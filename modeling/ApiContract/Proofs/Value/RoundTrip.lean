import ApiContract.Proofs.Value.Wire

/-!
# Values that are written and read again

The plain value of the tree that a value is written as passes as the value again
(`Models.Holds.conform_flat`), and the tree is one that a reader takes (`Models.Holds.readable`).
-/

namespace ApiContract

namespace Value

/-! ## Conditions on values -/

/-- In no record of a value a key is taken for the name of a field that has been left out. -/
inductive Clear : Value → Prop
  | scalar (s : Scalar) : Clear (.scalar s)
  | list {vs} : (∀ v ∈ vs, Clear v) → Clear (.list vs)
  | map {es} : (∀ e ∈ es, Clear e.2) → Clear (.map es)
  | record {type fields extra} : Unmistaken type fields extra → (∀ e ∈ fields, Clear e.2) →
      (∀ e ∈ extra, Clear e.2) → Clear (.record type fields extra)
  | member (name : String) (k : Member) : Clear (.member name k)

/-- A whole number that a reader takes: it has not too many digits. -/
def IsShort (s : Scalar) : Prop :=
  ∀ k, s = .int k → (Text.Utf8.encode (toString k)).length ≤ Json.digitLimit

/-- A value that stays within what a reader takes inside of `n` containers more. -/
inductive Fits : Nat → Value → Prop
  | scalar {n s} : IsShort s → Fits n (.scalar s)
  | list {n vs} : (vs ≠ [] → 0 < n) → (∀ v ∈ vs, Fits (n - 1) v) → Fits n (.list vs)
  | map {n es} : (es ≠ [] → 0 < n) → (∀ e ∈ es, Fits (n - 1) e.2) → Fits n (.map es)
  | record {n type fields extra} : (sent type fields extra ≠ [] → 0 < n) →
      (∀ e ∈ fields, Fits (n - 1) e.2) → (∀ e ∈ extra, Fits (n - 1) e.2) →
      Fits n (.record type fields extra)
  | member {n name k} : (∀ s, k.value = .scalar s → IsShort s) → Fits n (.member name k)

/-! ## Plain values -/

/-- The plain value of the tree that a value is written as. -/
def FlatAs (v w : Value) : Prop :=
  ∃ t, v.wire? = some t ∧ ofTree t = w

theorem FlatAs.list {vs : List Value} {w : Value} (h : FlatAs (.list vs) w) :
    ∃ ws, List.Forall₂ FlatAs vs ws ∧ .list ws = w := by
  obtain ⟨t, ht, rfl⟩ := h
  obtain ⟨ts, hts, rfl⟩ := wire?_list_eq_some.1 ht
  refine ⟨ts.map ofTree, ?_, (ofTree_list none ts).symm⟩
  exact List.forall₂_map_right_iff.2 (hts.imp fun v t ht => ⟨t, ht, rfl⟩)

theorem WrittenAs.flat {parts : List (String × Value)} {entries : Entries} (h : WrittenAs parts entries) :
    ∃ ws, List.Forall₂ (fun e e' => FlatAs e.2 e'.2 ∧ e.1 = e'.1) parts ws ∧
      .map ws = ofTree (.map none entries) := by
  refine ⟨entries.map fun x => (keyText x.1, ofTree x.2), ?_, (ofTree_map none entries).symm⟩
  refine List.forall₂_map_right_iff.2 (h.imp fun e x hx => ⟨⟨x.2, hx.1, rfl⟩, ?_⟩)
  rw [← hx.2, keyText]

theorem FlatAs.map {es : List (String × Value)} {w : Value} (h : FlatAs (.map es) w) :
    ∃ ws, List.Forall₂ (fun e e' => FlatAs e.2 e'.2 ∧ e.1 = e'.1) es ws ∧ .map ws = w := by
  obtain ⟨t, ht, rfl⟩ := h
  obtain ⟨entries, hentries, rfl⟩ := wire?_map_eq_some.1 ht
  exact hentries.flat

theorem FlatAs.record {type : RecordType} {fields extra : List (String × Value)} {w : Value}
    (hplain : type.discriminator = none) (hkeys : ((sent type fields extra).map (·.1)).Nodup)
    (h : FlatAs (.record type fields extra) w) :
    ∃ ws, List.Forall₂ (fun e e' => FlatAs e.2 e'.2 ∧ e.1 = e'.1) (sent type fields extra) ws ∧
      .map ws = w := by
  obtain ⟨t, ht, rfl⟩ := h
  obtain ⟨entries, hentries, rfl⟩ := (wire?_record_eq_some hplain hkeys).1 ht
  exact hentries.flat

/-- A plain value is what it is written as. -/
theorem Plain.eq_of_flat {v w : Value} (h : Plain v) (hw : FlatAs v w) : w = v := by
  induction h generalizing w with
  | null | bool | int | text =>
    obtain ⟨_, ⟨⟩, rfl⟩ := hw
    rfl
  | @list vs _ ih =>
    obtain ⟨ws, hws, rfl⟩ := hw.list
    have heq : List.Forall₂ (fun v w => v = w) vs ws :=
      forall₂_of_mem hws fun v hv _ _ hvw => (ih v hv hvw).symm
    rw [List.forall₂_eq_eq_eq] at heq
    rw [heq]
  | @map es _ _ ih =>
    obtain ⟨ws, hws, rfl⟩ := hw.map
    have heq : List.Forall₂ (fun e e' => e = e') es ws :=
      forall₂_of_mem hws fun e he e' _ hee' => Prod.ext hee'.2 (ih e he hee'.1).symm
    rw [List.forall₂_eq_eq_eq] at heq
    rw [heq]

theorem Plain.writable {v : Value} (h : Plain v) : v.Writable := by
  induction h with
  | null | bool | int | text => exact ⟨_, rfl⟩
  | list _ ih => exact writable_list ih
  | map _ _ ih => exact writable_map ih

end Value

namespace Models

open Value Json.Octets

variable {m : Models} {e : TypeExpr} {v : Value}

section
variable {types : List NamedType} {type : RecordType} {fields extra ws : List (String × Value)}
  (hb : type.body.Sound types) (hclear : Unmistaken type fields extra)
  (hws : List.Forall₂ (fun e e' => FlatAs e.2 e'.2 ∧ e.1 = e'.1) (sent type fields extra) ws)
include hb hclear hws

/-- A field is read again from what the record is written with. -/
theorem conformField_flat {f : Field} (hf : f ∈ type.body.fields) (hv : fields.lookup f.name = some v)
    (hpass : ∀ w, FlatAs v w → m.conform w .program (asked f) = .ok v) :
    conformField (m.parts ws) f = .ok (f.name, v) := by
  have hsent : held? (sent type fields extra) f = some (f.wireName, v) ∨
      held? (sent type fields extra) f = Option.none ∧ Absent fields f :=
    held?_sent hb hclear hf hv
  rcases hsent with hheld | ⟨hheld, hoptional, hnull⟩
  · rcases held?_forall₂ hws f with ⟨h, -⟩ | ⟨k, v', w, h, hw, hflat⟩
    · rw [h] at hheld
      cases hheld
    · rw [h] at hheld
      cases hheld
      exact (conformField_of_held hw).2 ⟨hpass w hflat, rfl⟩
  · rw [hv] at hnull
    cases hnull
    rcases held?_forall₂ hws f with ⟨-, hw⟩ | ⟨k, v', w, h, -, -⟩
    · exact (conformField_of_none hw).2 ⟨hoptional, rfl⟩
    · rw [h] at hheld
      cases hheld

variable (hfields : fields.map (·.1) = type.body.fields.map (·.name))
  (hfree : ∀ e ∈ extra, e.1 ∉ type.body.fields.map (·.wireName))
include hfields hfree

/-- The further entries are read again from what the record is written with. -/
theorem conformExtra_flat (hnone : type.body.extra = Option.none → extra = [])
    (hpass : ∀ t, type.body.extra = some t → ∀ e ∈ extra, ∀ w, FlatAs e.2 w → m.conform w .program t = .ok e.2) :
    conformExtra (m.parts ws) type.body = .ok extra := by
  cases hextra : type.body.extra with
  | none =>
    rw [conformExtra, hextra, hnone hextra]
  | some t =>
    have hsent : (sent type fields extra).filter
        (fun e => !(takenKeys type.body ws).contains e.1) = extra := by
      rw [← takenKeys_forall₂ hws type.body]
      exact sent_filter hb hclear hfields hfree
    have hleft : List.Forall₂ (fun e e' => FlatAs e.2 e'.2 ∧ e.1 = e'.1) extra
        (ws.filter fun e => !(takenKeys type.body ws).contains e.1) := by
      have := forall₂_filter hws fun e e' h => show (!(takenKeys type.body ws).contains e.1) = _ by rw [h.2]
      rwa [hsent] at this
    refine (conformExtra_eq_ok hextra).2 (forall₂_of_mem hleft fun e he e' _ h => ?_).flip
    exact ⟨hpass t hextra e he e'.2 h.1, h.2.symm⟩

variable (hnone : type.body.extra = Option.none → extra = [])
  (hpass : ∀ f ∈ type.body.fields, ∀ v, fields.lookup f.name = some v →
    ∀ w, FlatAs v w → m.conform w .program (asked f) = .ok v)
  (hpassExtra : ∀ t, type.body.extra = some t → ∀ e ∈ extra,
    ∀ w, FlatAs e.2 w → m.conform w .program t = .ok e.2)
include hnone hpass hpassExtra

/-- A record is read again from what it is written with. -/
theorem conformParts_flat (hplain : type.discriminator = Option.none) :
    conformParts type (m.parts ws) = .ok (.record type fields extra) := by
  have hkeys : (fields.map (·.1)).Nodup := hfields ▸ hb.names
  have hpairs : List.Forall₂ (fun f e => f.name = e.1) type.body.fields fields :=
    forall₂_eq_iff.2 hfields.symm
  rw [conformParts_eq_ok, RecordType.kept_of_plain hplain]
  refine ⟨fields, extra, forall₂_of_mem hpairs fun f hf e he hfe => ?_, ?_, rfl⟩
  · obtain ⟨k, v⟩ := e
    obtain rfl : f.name = k := hfe
    exact conformField_flat hb hclear hws hf (lookup_of_mem hkeys he) (hpass f hf v (lookup_of_mem hkeys he))
  · exact conformExtra_flat hb hclear hws hfields hfree hnone hpassExtra

omit hws in
/-- What a record without a tag is written as is a map of which the record is made again. -/
theorem exists_parts_flat (hplain : type.discriminator = Option.none) (hextra : (extra.map (·.1)).Nodup)
    {w : Value} (hw : FlatAs (.record type fields extra) w) :
    ∃ ws, .map ws = w ∧ ws.map (·.1) = (sent type fields extra).map (·.1) ∧ mergeKeys ws = ws ∧
      conformParts type (m.parts ws) = .ok (.record type fields extra) := by
  have hkeys : ((sent type fields extra).map (·.1)).Nodup := nodup_sent hb hextra hfree
  obtain ⟨ws, hws, rfl⟩ := hw.record hplain hkeys
  have hwsKeys : (sent type fields extra).map (·.1) = ws.map (·.1) :=
    forall₂_eq_iff.1 (hws.imp fun _ _ h => h.2)
  exact ⟨ws, rfl, hwsKeys.symm, mergeKeys_of_nodup (hwsKeys ▸ hkeys),
    conformParts_flat hb hclear hws hfields hfree hnone hpass hpassExtra hplain⟩

end

/-- The literal of a member passes as the member. -/
theorem conform_literal {name : String} {nullable : Bool} {t : NamedType} {members : List Member} {k : Member}
    {origin : Origin} (ht : m.find? name = some t) (hshape : t.shape = .enumeration members)
    (hk : k ∈ Member.distinct members) (hlit : Member.IsLiteral k.value) :
    m.conform (.ofTree k.value) origin (.named (some name) nullable) = .ok (.member t.name k) := by
  have hself := Member.ofLiteral?_self hk hlit
  obtain ⟨s, hs, hnull⟩ := hlit.scalar
  rw [hs] at hself ⊢
  show conformScalar m s origin _ = _
  unfold conformScalar
  rw [if_neg fun h => hnull h.1]
  show conformLeaf m (.scalar s) .other (.named (some name) nullable) = _
  rw [conformLeaf_named ht, conformNamed, hshape]
  have hmember : memberOf? t.name members (.scalar s) = some (.member t.name k) := by
    show (Member.ofLiteral? members (.scalar s)).map (Value.member t.name) = _
    rw [hself, Option.map_some]
  simp only [conformMember, hmember]

section
variable (hm : NamedType.Ordered m.types) {name : String} {t : NamedType} (ht : m.find? name = some t)
include hm ht

theorem sound_of_record {body : Body} (hshape : t.shape = .record body) : body.Sound m.types := by
  refine (hm.sound (of_find?_eq_some ht).1).bodies body ?_
  rw [NamedType.bodies, hshape]
  exact List.mem_cons_self

theorem sound_of_untagged {variants : List Variant} (hshape : t.shape = .untagged variants) {c : Variant}
    (hc : c ∈ variants) : c.body.Sound m.types := by
  refine (hm.sound (of_find?_eq_some ht).1).bodies c.body ?_
  rw [NamedType.bodies, hshape]
  exact List.mem_map_of_mem hc

end

/-- The plain value of what a value is written as passes as the value. -/
theorem Holds.conform_flat (hm : NamedType.Ordered m.types) (h : Holds m e v) (hclear : v.Clear)
    {w : Value} (hw : FlatAs v w) (origin : Origin) : m.conform w origin e = .ok v := by
  induction h generalizing w origin with
  | null hn =>
    obtain ⟨_, ⟨⟩, rfl⟩ := hw
    exact if_pos ⟨rfl, hn⟩
  | string | integer | boolean =>
    obtain ⟨_, ⟨⟩, rfl⟩ := hw
    exact conform_scalar (by simp) (by simp)
  | empty =>
    obtain ⟨_, ⟨⟩, rfl⟩ := hw
    rfl
  | any hv =>
    rw [hv.eq_of_flat hw]
    exact conform_any hv origin _ _
  | @list item unique nullable vs _ ih =>
    obtain ⟨ws, hws, rfl⟩ := hw.list
    cases hclear with
    | list hclear =>
      refine conform_list_eq_ok.2 ⟨vs, (forall₂_of_mem hws fun v hv w _ hvw => ?_).flip, rfl⟩
      exact ih v hv (hclear v hv) hvw origin
  | @map value nullable es hkeys _ ih =>
    obtain ⟨ws, hws, rfl⟩ := hw.map
    cases hclear with
    | map hclear =>
      refine conform_map_eq_ok.2 ⟨es, (forall₂_of_mem hws fun e he e' _ hee' => ?_).flip, ?_⟩
      · exact ⟨ih e he (hclear e he) hee'.1 origin, hee'.2.symm⟩
      · rw [mergeKeys_of_nodup hkeys]
  | @member name nullable t members k ht hshape hk hlit =>
    obtain ⟨tree, htree, rfl⟩ := hw
    cases htree
    exact conform_literal ht hshape hk hlit
  | @record name nullable t body fields extra ht hshape hfields _ hextra hfree hnone _ ihfields ihextra =>
    have hb : body.Sound m.types := sound_of_record hm ht hshape
    cases hclear with
    | record hunmistaken hclearFields hclearExtra =>
      obtain ⟨ws, rfl, -, hmerged, hpasses⟩ := exists_parts_flat (m := m) hb hunmistaken hfields hfree hnone
        (fun f hf v hv w hvw => ihfields f hf v hv (hclearFields _ (mem_of_lookup hv)) hvw .program)
        (fun t ht e he w hew => ihextra t ht e he (hclearExtra e he) hew .program) rfl hextra hw
      rw [conform_map_named ht, hmerged, conformNamed, hshape]
      exact hpasses

/-- Such a value has a text. -/
theorem Holds.writable (h : Holds m e v) : v.Writable := by
  induction h with
  | null | string | integer | boolean | empty => exact ⟨_, rfl⟩
  | any hv => exact hv.writable
  | list _ ih => exact writable_list ih
  | map _ _ ih => exact writable_map ih
  | @member name nullable t members k _ _ _ hlit =>
    refine writable_iff.2 ⟨_, rfl, ?_⟩
    generalize k.value = tree at hlit
    cases hlit <;> exact ⟨_, rfl⟩
  | @record name nullable t body fields extra _ _ _ _ _ _ hnone _ ihfields ihextra =>
    exact writable_record (forall_mem_sent hnone ihfields ihextra)

/-! ## Limits of a reader -/

/-- What parts are written as is readable if each part is. -/
theorem readable_of_writtenAs {n : Nat} {parts : List (String × Value)} {entries : Entries}
    (h : WrittenAs parts entries) (hpos : parts ≠ [] → 0 < n)
    (hparts : ∀ e ∈ parts, ∀ t, e.2.wire? = some t → Readable (n - 1) t) : Readable n (.map Option.none entries) := by
  refine .map (fun hne => hpos fun hnil => ?_) (fun x hx => ?_) fun x hx => ?_
  · subst hnil
    cases h
    exact hne rfl
  · obtain ⟨e, -, -, hk⟩ := mem_of_forall₂_right h hx
    exact ⟨e.1, hk.symm⟩
  · obtain ⟨e, he, ht, -⟩ := mem_of_forall₂_right h hx
    exact hparts e he x.2 ht

theorem readable_list {n : Nat} {vs : List Value} (hpos : vs ≠ [] → 0 < n)
    (hitems : ∀ v ∈ vs, ∀ t, v.wire? = some t → Readable (n - 1) t) {t : Tree}
    (ht : (Value.list vs).wire? = some t) : Readable n t := by
  obtain ⟨ts, hts, rfl⟩ := wire?_list_eq_some.1 ht
  refine .list (fun hne => hpos fun hnil => ?_) fun t ht => ?_
  · subst hnil
    cases hts
    exact hne rfl
  · obtain ⟨v, hv, hvt⟩ := mem_of_forall₂_right hts ht
    exact hitems v hv t hvt

theorem readable_map {n : Nat} {es : List (String × Value)} (hpos : es ≠ [] → 0 < n)
    (hentries : ∀ e ∈ es, ∀ t, e.2.wire? = some t → Readable (n - 1) t) {t : Tree}
    (ht : (Value.map es).wire? = some t) : Readable n t := by
  obtain ⟨entries, hwritten, rfl⟩ := wire?_map_eq_some.1 ht
  exact readable_of_writtenAs hwritten hpos hentries

/-- The tree of a plain value is one that a reader takes. -/
theorem readable_plain {n : Nat} (h : v.Plain) (hfits : v.Fits n) {t : Tree} (ht : v.wire? = some t) :
    Readable n t := by
  induction h generalizing n t with
  | null =>
    cases ht
    exact .null
  | bool b =>
    cases ht
    exact .bool b
  | text s =>
    cases ht
    exact .text s
  | int k =>
    cases ht
    cases hfits with
    | scalar hshort => exact .int (hshort k rfl)
  | list _ ih =>
    cases hfits with
    | list hpos hfits => exact readable_list hpos (fun v hv t ht => ih v hv (hfits v hv) ht) ht
  | map _ _ ih =>
    cases hfits with
    | map hpos hfits => exact readable_map hpos (fun e he t ht => ih e he (hfits e he) ht) ht

/-- What a record is written as is readable if its parts are. -/
theorem readable_record {n : Nat} {type : RecordType} {fields extra : List (String × Value)}
    (hplain : type.discriminator = Option.none) (hkeys : ((sent type fields extra).map (·.1)).Nodup)
    (hnone : type.body.extra = Option.none → extra = []) (hpos : sent type fields extra ≠ [] → 0 < n) {t : Tree}
    (ht : (Value.record type fields extra).wire? = some t)
    (hfields : ∀ f ∈ type.body.fields, ∀ v, fields.lookup f.name = some v →
      ∀ t, v.wire? = some t → Readable (n - 1) t)
    (hextra : ∀ e', type.body.extra = some e' → ∀ e ∈ extra, ∀ t, e.2.wire? = some t → Readable (n - 1) t) :
    Readable n t := by
  obtain ⟨entries, hentries, rfl⟩ := (wire?_record_eq_some hplain hkeys).1 ht
  exact readable_of_writtenAs hentries hpos
    (forall_mem_sent (P := fun v => ∀ t, v.wire? = some t → Readable (n - 1) t) hnone hfields hextra)

/-- The tree that a value is written as is one that a reader takes. -/
theorem Holds.readable (hm : NamedType.Ordered m.types) (h : Holds m e v) {n : Nat} (hfits : v.Fits n)
    {t : Tree} (ht : v.wire? = some t) : Readable n t := by
  induction h generalizing n t with
  | null => exact readable_plain .null hfits ht
  | string s => exact readable_plain (.text s) hfits ht
  | integer k => exact readable_plain (.int k) hfits ht
  | boolean b => exact readable_plain (.bool b) hfits ht
  | any hv => exact readable_plain hv hfits ht
  | empty =>
    cases ht
    exact .map (fun h => absurd rfl h) nofun nofun
  | list _ ih =>
    cases hfits with
    | list hpos hfits => exact readable_list hpos (fun v hv t ht => ih v hv (hfits v hv) ht) ht
  | map _ _ ih =>
    cases hfits with
    | map hpos hfits => exact readable_map hpos (fun e he t ht => ih e he (hfits e he) ht) ht
  | @member name nullable t members k _ _ _ hlit =>
    cases ht
    cases hfits with
    | member hshort =>
      generalize hk : k.value = tree at hlit
      cases hlit with
      | text s => exact .text s
      | int i => exact .int (hshort _ hk i rfl)
      | bool b => exact .bool b
  | @record name nullable r body fields extra hr hshape _ _ hextra hfree hnone _ ihfields ihextra =>
    have hb : body.Sound m.types := sound_of_record hm hr hshape
    have hkeys : ((sent (.ofNamed r.name body) fields extra).map (·.1)).Nodup :=
      nodup_sent hb hextra hfree
    cases hfits with
    | record hpos hfitsFields hfitsExtra =>
      refine readable_record rfl hkeys hnone hpos ht (fun f hf v hv t ht => ?_) fun type hopen e he t ht => ?_
      · exact ihfields f hf v hv (hfitsFields (f.name, v) (mem_of_lookup hv)) ht
      · exact ihextra type hopen e he (hfitsExtra e he) ht

/-! ## Records of any type without a tag -/

section

variable {type : RecordType} {fields extra : List (String × Value)} (h : HoldsRecord m type.body fields extra)
include h

theorem HoldsRecord.writable : (Value.record type fields extra).Writable := by
  refine writable_record (forall_mem_sent h.closed (fun f hf v hv => ?_) fun t ht e he => ?_)
  · exact (h.fields f hf v hv).writable
  · exact (h.entries t ht e he).writable

variable (hm : NamedType.Ordered m.types) (hb : type.body.Sound m.types)
  (hplain : type.discriminator = Option.none)
include hm hb hplain

theorem HoldsRecord.readable {n : Nat} (hfits : (Value.record type fields extra).Fits n) {t : Tree}
    (ht : (Value.record type fields extra).wire? = some t) : Readable n t := by
  cases hfits with
  | record hpos hfitsFields hfitsExtra =>
    refine readable_record hplain (nodup_sent hb h.keys h.free) h.closed hpos ht ?_ ?_
    · intro f hf v hv t ht
      exact (h.fields f hf v hv).readable hm (hfitsFields (f.name, v) (mem_of_lookup hv)) ht
    · intro e' hopen e he t ht
      exact (h.entries e' hopen e he).readable hm (hfitsExtra e he) ht

theorem HoldsRecord.exists_parts (hclear : (Value.record type fields extra).Clear) {w : Value}
    (hw : FlatAs (.record type fields extra) w) :
    ∃ ws, .map ws = w ∧ ws.map (·.1) = (sent type fields extra).map (·.1) ∧ mergeKeys ws = ws ∧
      conformParts type (m.parts ws) = .ok (.record type fields extra) := by
  cases hclear with
  | record hunmistaken hclearFields hclearExtra =>
    refine exists_parts_flat hb hunmistaken h.names h.free h.closed ?_ ?_ hplain h.keys hw
    · intro f hf v hv w hvw
      exact (h.fields f hf v hv).conform_flat hm (hclearFields _ (mem_of_lookup hv)) hvw .program
    · intro e' hopen e he w hew
      exact (h.entries e' hopen e he).conform_flat hm (hclearExtra e he) hew .program

end

end Models

end ApiContract
