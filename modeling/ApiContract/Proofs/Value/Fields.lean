import ApiContract.Proofs.Compile.Sound
import ApiContract.Proofs.Value.Conform
import Mathlib.Data.List.Induction

/-!
# Records from maps

What it takes for a map to pass as a record. A map passes if each field of the record does under the key
that holds it, and so does what no field has taken (`conformParts_eq_ok`). So a map in which all else is
right passes exactly if the value of one of its properties does (`conformParts_iff_of_encloses`), and this
is decided as for a program's value, wherever the map comes from.
-/

namespace ApiContract

namespace Value

/-! ## Repeated keys -/

variable {β γ : Type}

/-- Puts a part under its key, in the place of an earlier one. -/
def mergeKey (done : List (String × β)) (e : String × β) : List (String × β) :=
  if done.any fun p => p.1 = e.1 then done.map fun p => if p.1 = e.1 then e else p else done ++ [e]

theorem mergeKeys_concat (l : List (String × β)) (e : String × β) :
    mergeKeys (l ++ [e]) = mergeKey (mergeKeys l) e := by
  rw [mergeKeys, List.foldl_append]
  rfl

theorem any_key {l : List (String × β)} {k : String} :
    (l.any fun p => p.1 = k) = true ↔ k ∈ l.map (·.1) := by
  simp only [List.any_eq_true, decide_eq_true_eq, List.mem_map]

/-- Parts under different keys stay as they are. -/
theorem mergeKeys_of_nodup {l : List (String × β)} (h : (l.map (·.1)).Nodup) : mergeKeys l = l := by
  induction l using List.reverseRecOn with
  | nil => rfl
  | append_singleton l e ih =>
    rw [List.map_append, List.map_singleton, List.nodup_append] at h
    have hfree : e.1 ∉ l.map (·.1) := fun he => h.2.2 e.1 he e.1 List.mem_cons_self rfl
    rw [mergeKeys_concat, ih h.1, mergeKey, if_neg (mt any_key.1 hfree)]

theorem mergeKeys_map (f : β → γ) (l : List (String × β)) :
    mergeKeys (l.map fun e => (e.1, f e.2)) = (mergeKeys l).map fun e => (e.1, f e.2) := by
  induction l using List.reverseRecOn with
  | nil => rfl
  | append_singleton l e ih =>
    rw [List.map_append, List.map_singleton, mergeKeys_concat, mergeKeys_concat, ih]
    have hkeys : ((mergeKeys l).map fun e => (e.1, f e.2)).map (·.1) = (mergeKeys l).map (·.1) :=
      List.map_map
    unfold mergeKey
    by_cases h : e.1 ∈ (mergeKeys l).map (·.1)
    · rw [if_pos (any_key.2 (hkeys ▸ h)), if_pos (any_key.2 h), List.map_map, List.map_map]
      refine List.map_congr_left fun p _ => ?_
      by_cases hp : p.1 = e.1 <;> simp [hp]
    · rw [if_neg (mt any_key.1 (hkeys ▸ h)), if_neg (mt any_key.1 h), List.map_append,
        List.map_singleton]

theorem lookup_replace (e : String × β) (k : String) (l : List (String × β)) :
    (l.map fun p => if p.1 = e.1 then e else p).lookup k =
      if k = e.1 then (l.lookup k).map fun _ => e.2 else l.lookup k := by
  induction l with
  | nil => simp
  | cons p l ih =>
    rw [List.map_cons, lookup_cons_ite k p.1 p.2]
    split
    · rename_i hp
      rw [lookup_cons_ite k e.1 e.2, ih, hp]
      split <;> simp
    · rename_i hp
      rw [lookup_cons_ite k p.1 p.2, ih]
      by_cases hk : k = p.1
      · rw [if_pos hk, if_pos hk, if_neg fun h => hp (hk ▸ h)]
      · rw [if_neg hk, if_neg hk]

theorem lookup_mergeKey (l : List (String × β)) (e : String × β) (k : String) :
    (mergeKey l e).lookup k = if k = e.1 then some e.2 else l.lookup k := by
  unfold mergeKey
  split
  · rename_i hmem
    rw [lookup_replace]
    split
    · rename_i hk
      obtain ⟨b, hb⟩ := exists_lookup (hk ▸ any_key.1 hmem)
      rw [hb, Option.map_some]
    · rfl
  · rename_i hmem
    rw [List.lookup_append, lookup_cons_ite k e.1 e.2, List.lookup_nil]
    split
    · rename_i hk
      rw [lookup_eq_none.2 (hk ▸ mt any_key.2 hmem), Option.none_or]
    · rw [Option.or_none]

/-- Of the parts under one key the last one counts. -/
theorem lookup_mergeKeys (l : List (String × β)) (k : String) :
    (mergeKeys l).lookup k = l.reverse.lookup k := by
  induction l using List.reverseRecOn with
  | nil => rfl
  | append_singleton l e ih =>
    rw [mergeKeys_concat, lookup_mergeKey, List.reverse_append, List.reverse_singleton,
      List.singleton_append, lookup_cons_ite k e.1 e.2, ih]

end Value

/-- What is left of a map for the fields of a record: all but the tag. -/
def RecordType.kept {β : Type} (type : RecordType) (es : List (String × β)) : List (String × β) :=
  es.filter fun p => type.discriminator ≠ some p.1

theorem RecordType.kept_of_plain {β : Type} {type : RecordType} (hplain : type.discriminator = none)
    (es : List (String × β)) : type.kept es = es :=
  List.filter_eq_self.2 fun p _ => decide_eq_true (hplain ▸ (Option.some_ne_none p.1).symm)

namespace Models

open Record

variable {m : Models} {es : List (String × Value)} {f : Field} {type : RecordType}

/-! ## Fields -/

/-- The parts of a map, each with the check of its value. -/
def parts (m : Models) (es : List (String × Value)) : Parts :=
  es.map fun e => (e.1, e.2, m.conform e.2)

/-- The entry that holds a field, under its wire name or else under its own. -/
def held? (es : List (String × Value)) (f : Field) : Option (String × Value) :=
  ((es.lookup f.wireName).map (f.wireName, ·)).or ((es.lookup f.name).map (f.name, ·))

/-- The type that the value of a field must have. -/
def asked (f : Field) : TypeExpr :=
  if f.required then f.type else orAbsent f.type

theorem find?_key {β : Type} (l : List (String × β)) (k : String) :
    (l.find? fun p => p.1 = k) = (l.lookup k).map (k, ·) := by
  induction l with
  | nil => rfl
  | cons p l ih =>
    rw [List.find?_cons, lookup_cons_ite k p.1 p.2]
    by_cases h : k = p.1
    · subst h
      simp
    · simp [h, Ne.symm h, ih]

theorem find?_parts (k : String) : ((m.parts es).find? fun p => p.1 = k) =
    ((es.lookup k).map (k, ·)).map fun e => (e.1, e.2, m.conform e.2) := by
  rw [parts, List.find?_map, ← find?_key]
  rfl

theorem keyOf?_parts : keyOf? (m.parts es) f = (held? es f).map fun e => (e.1, e.2, m.conform e.2) := by
  rw [keyOf?, find?_parts, find?_parts, held?, Option.map_or]

theorem conformField_of_held {p e : String × Value} (hp : held? es f = some p) :
    conformField (m.parts es) f = .ok e ↔
      m.conform p.2 .program (asked f) = .ok e.2 ∧ f.name = e.1 := by
  obtain ⟨n, w⟩ := e
  rw [conformField, keyOf?_parts, hp]
  simp [asked, map_eq_ok]

theorem conformField_of_none {e : String × Value} (hp : held? es f = Option.none) :
    conformField (m.parts es) f = .ok e ↔ f.required = false ∧ (f.name, Value.null) = e := by
  rw [conformField, keyOf?_parts, hp]
  cases f.required <;> simp [wrong]

theorem kept_parts : type.kept (m.parts es) = m.parts (type.kept es) :=
  List.filter_map

/-- The keys that hold the fields of a record. -/
def takenKeys (body : Body) (es : List (String × Value)) : List String :=
  body.fields.filterMap fun f => (held? es f).map (·.1)

/-- In maps with the same keys a field is held under the same key. -/
theorem held?_forall₂ {R : Value → Value → Prop} {es' : List (String × Value)}
    (h : List.Forall₂ (fun e e' => R e.2 e'.2 ∧ e.1 = e'.1) es es') (f : Field) :
    (held? es f = Option.none ∧ held? es' f = Option.none) ∨
      ∃ k v w, held? es f = some (k, v) ∧ held? es' f = some (k, w) ∧ R v w := by
  unfold held?
  rcases lookup_forall₂ h f.wireName with ⟨h₁, h₂⟩ | ⟨v, w, h₁, h₂, hR⟩
  · rcases lookup_forall₂ h f.name with ⟨h₃, h₄⟩ | ⟨v, w, h₃, h₄, hR⟩
    · exact .inl (by simp [h₁, h₂, h₃, h₄])
    · exact .inr ⟨f.name, v, w, by simp [h₁, h₃], by simp [h₂, h₄], hR⟩
  · exact .inr ⟨f.wireName, v, w, by simp [h₁], by simp [h₂], hR⟩

theorem takenKeys_forall₂ {R : Value → Value → Prop} {es' : List (String × Value)}
    (h : List.Forall₂ (fun e e' => R e.2 e'.2 ∧ e.1 = e'.1) es es') (body : Body) :
    takenKeys body es = takenKeys body es' := by
  refine List.filterMap_congr fun f _ => ?_
  rcases held?_forall₂ h f with ⟨h₁, h₂⟩ | ⟨k, v, w, h₁, h₂, -⟩
  · rw [h₁, h₂]
  · rw [h₁, h₂]
    rfl

theorem conformExtra_eq_ok {body : Body} {t : TypeExpr} (ht : body.extra = some t)
    {extra : List (String × Value)} : conformExtra (m.parts es) body = .ok extra ↔
      List.Forall₂ (fun e e' => m.conform e.2 .program t = .ok e'.2 ∧ e.1 = e'.1)
        (es.filter fun e => !(takenKeys body es).contains e.1) extra := by
  have htaken : (body.fields.filterMap fun f => (keyOf? (m.parts es) f).map (·.1)) =
      takenKeys body es := by
    refine List.filterMap_congr fun f _ => ?_
    rw [keyOf?_parts, Option.map_map]
    rfl
  have hentry : (fun (e e' : String × Value) =>
      field e.1 ((m.conform e.2 .program t).map (e.1, ·)) = .ok e') =
      fun e e' => m.conform e.2 .program t = .ok e'.2 ∧ e.1 = e'.1 := by
    funext e ⟨k, v⟩
    simp [map_eq_ok]
  have hfilter : (m.parts es).filter (fun p => !(takenKeys body es).contains p.1) =
      m.parts (es.filter fun e => !(takenKeys body es).contains e.1) := List.filter_map
  rw [conformExtra, ht]
  simp only [htaken, hfilter]
  rw [← hentry, parts, List.map_map]
  exact each_map_eq_ok

/-- A map passes as a record if all of its fields do, and so does what no field has taken. -/
theorem conformParts_eq_ok {w : Value} : conformParts type (m.parts es) = .ok w ↔
    ∃ fields extra,
      List.Forall₂ (fun f e => conformField (m.parts (type.kept es)) f = .ok e)
        type.body.fields fields ∧
      conformExtra (m.parts (type.kept es)) type.body = .ok extra ∧ .record type fields extra = w := by
  have hkept : conformParts type (m.parts es) =
      both (each (type.body.fields.map (conformField (m.parts (type.kept es)))))
        (conformExtra (m.parts (type.kept es)) type.body) >>= fun r => .ok (.record type r.1 r.2) := by
    rw [← kept_parts, conformParts, RecordType.kept]
    cases type.discriminator with
    | none => simp only [ne_eq, reduceCtorEq, not_false_eq_true, decide_true, List.filter_true]; rfl
    | some key => simp only [ne_eq, Option.some.injEq, eq_comm]; rfl
  rw [hkept, bind_eq_ok]
  constructor
  · rintro ⟨⟨fields, extra⟩, hr, hw⟩
    obtain ⟨hfields, hextra⟩ := both_eq_ok.1 hr
    exact ⟨fields, extra, each_map_eq_ok.1 hfields, hextra, Except.ok.inj hw⟩
  · rintro ⟨fields, extra, hfields, hextra, hw⟩
    exact ⟨(fields, extra), both_eq_ok.2 ⟨each_map_eq_ok.2 hfields, hextra⟩, congrArg Except.ok hw⟩

/-! ## One property among others -/

/-- A map whose value under the wire name of a required field is `v`, and whose other parts fit: the other
fields, and what no field has taken. -/
structure Encloses (m : Models) (type : RecordType) (es : List (String × Value)) (f : Field) (v : Value) :
    Prop where
  field : f ∈ type.body.fields
  required : f.required = true
  /-- The property is not the one that tells the cases of a union apart. -/
  untagged : type.discriminator ≠ some f.wireName
  value : es.lookup f.wireName = some v
  others : ∀ g ∈ type.body.fields, g ≠ f → ∃ e, conformField (m.parts (type.kept es)) g = .ok e
  extra : ∃ x, conformExtra (m.parts (type.kept es)) type.body = .ok x

theorem Encloses.held {v : Value} (h : Encloses m type es f v) :
    held? (type.kept es) f = some (f.wireName, v) := by
  have hkept : (type.kept es).lookup f.wireName = some v :=
    (lookup_filter (fun k => type.discriminator ≠ some k) _ es).trans
      ((if_pos (decide_eq_true h.untagged)).trans h.value)
  rw [held?, hkept, Option.map_some, Option.some_or]

/-- A map in which all else is right passes as a record exactly if the value of the property does, as a
program's. -/
theorem conformParts_iff_of_encloses {v : Value} (h : Encloses m type es f v) :
    (∃ w, conformParts type (m.parts es) = .ok w) ↔ ∃ w, m.conform v .program f.type = .ok w := by
  have hfield (e : String × Value) : conformField (m.parts (type.kept es)) f = .ok e ↔
      m.conform v .program f.type = .ok e.2 ∧ f.name = e.1 := by
    rw [conformField_of_held h.held, asked, if_pos h.required]
  constructor
  · rintro ⟨w, hw⟩
    obtain ⟨fields, extra, hfields, -, -⟩ := conformParts_eq_ok.1 hw
    obtain ⟨e, -, he⟩ := mem_of_forall₂_left hfields h.field
    exact ⟨e.2, ((hfield e).1 he).1⟩
  · rintro ⟨w, hw⟩
    have hall : ∀ g ∈ type.body.fields, ∃ e, conformField (m.parts (type.kept es)) g = .ok e := by
      intro g hg
      by_cases hgf : g = f
      · subst hgf
        exact ⟨(g.name, w), (hfield _).2 ⟨hw, rfl⟩⟩
      · exact h.others g hg hgf
    obtain ⟨fields, hfields⟩ := exists_forall₂.2 hall
    obtain ⟨extra, hextra⟩ := h.extra
    exact ⟨_, conformParts_eq_ok.2 ⟨fields, extra, hfields, hextra, rfl⟩⟩

/-! ## Named types -/

/-- The type of records by which alone a named type takes or refuses a map: that of a record, the only
case of a union, the case that the tag of the map selects, or a case such that no other takes the map. -/
inductive Selects (m : Models) (t : NamedType) (es : List (String × Value)) : RecordType → Prop where
  | record {body} : t.shape = .record body → Selects m t es (.ofNamed t.name body)
  | onlyTagged {d c} : t.shape = .tagged d [c] → Selects m t es (.ofVariant t.name d c.tag c)
  | onlyUntagged {c} : t.shape = .untagged [c] →
      Selects m t es (.ofVariant t.name Option.none Option.none c)
  | tagged {d variants tag c} : t.shape = .tagged d variants → variants.length ≠ 1 →
      es.lookup (d.getD "") = some (.text tag) →
      (variants.reverse.find? fun c => selector c = tag) = some c →
      Selects m t es (.ofVariant t.name d c.tag c)
  | untagged {variants c} : t.shape = .untagged variants → variants.length ≠ 1 → c ∈ variants →
      (∀ c' ∈ variants, c' ≠ c → ∀ w, conformParts
        (.ofVariant t.name Option.none Option.none c') (m.parts es) ≠ .ok w) →
      Selects m t es (.ofVariant t.name Option.none Option.none c)

theorem Selects.body_mem {t : NamedType} (h : Selects m t es type) : type.body ∈ t.bodies := by
  unfold NamedType.bodies
  cases h with
  | record ht | onlyTagged ht | onlyUntagged ht => rw [ht]; exact List.mem_cons_self
  | tagged ht _ _ hc =>
    rw [ht]
    exact List.mem_map_of_mem (List.mem_reverse.1 (List.mem_of_find?_eq_some hc))
  | untagged ht _ hc _ =>
    rw [ht]
    exact List.mem_map_of_mem hc

theorem conformFirst_eq_ok {union : String} {v : Value} {content : Content} {variants : List Variant} :
    (∃ w, conformFirst union v content variants = .ok w) ↔ ∃ c ∈ variants, ∃ w,
      conformRecord (.ofVariant union Option.none Option.none c) v content = .ok w := by
  induction variants with
  | nil => simp [conformFirst]
  | cons c variants ih =>
    rw [List.exists_mem_cons_iff, ← ih, conformFirst]
    cases hc : conformRecord (.ofVariant union Option.none Option.none c) v content with
    | ok w => simp [field, at_, Except.mapError]
    | error e =>
      rw [show field c.name (.error e) = (.error _ : Check Value) from rfl]
      simp only [mapError_eq_ok, reduceCtorEq, exists_false, false_or]

theorem conformNamed_tagged {t : NamedType} {d : Option String} {variants : List Variant}
    (ht : t.shape = .tagged d variants) (hlen : variants.length ≠ 1) (v : Value) (content : Content) :
    conformNamed t v content = conformTagged t.name d variants v content := by
  rw [conformNamed, ht]
  rcases variants with _ | ⟨_, _ | _⟩
  · rfl
  · exact absurd rfl hlen
  · rfl

theorem conformNamed_untagged_eq_ok {t : NamedType} {variants : List Variant} {v w : Value}
    {content : Content} (ht : t.shape = .untagged variants) :
    conformNamed t v content = .ok w ↔ conformFirst t.name v content variants = .ok w := by
  rw [conformNamed, ht]
  rcases variants with _ | ⟨c, _ | _⟩
  · rfl
  · dsimp only
    rw [conformFirst, conformFirst]
    cases conformRecord (.ofVariant t.name Option.none Option.none c) v content with
    | ok w' => rfl
    | error e => exact iff_of_false nofun nofun
  · rfl

/-- The tag of a value selects the last case with it. -/
theorem conformTagged_eq_ok {union : String} {d : Option String} {variants : List Variant} {v w : Value}
    {content : Content} : conformTagged union d variants v content = .ok w ↔
      ∃ tag c, tagOf (d.getD "") content = some tag ∧
        (variants.reverse.find? fun c => selector c = tag) = some c ∧
        conformRecord (.ofVariant union d c.tag c) v content = .ok w := by
  unfold conformTagged
  cases tagOf (d.getD "") content with
  | none => simp [wrong]
  | some tag =>
    dsimp only
    cases hc : variants.reverse.find? fun c => selector c = tag with
    | none => simp [wrong, hc]
    | some c => simp [hc]

theorem tagOf_parts {key tag : String} :
    tagOf key (.parts (m.parts es)) = some tag ↔ es.lookup key = some (.text tag) := by
  rw [tagOf, find?_parts]
  cases es.lookup key with
  | none => simp
  | some v =>
    cases v with
    | scalar s => cases s <;> simp
    | _ => simp

/-- What selects a type of records leaves the decision to it. -/
theorem conformNamed_of_selects {t : NamedType} {v : Value} (h : Selects m t es type) :
    (∃ w, conformNamed t v (.parts (m.parts es)) = .ok w) ↔
      ∃ w, conformParts type (m.parts es) = .ok w := by
  cases h with
  | record ht | onlyTagged ht | onlyUntagged ht => rw [conformNamed, ht]; rfl
  | @tagged d variants tag c ht hlen htag hc =>
    have htagOf : tagOf (d.getD "") (.parts (m.parts es)) = some tag := tagOf_parts.2 htag
    rw [conformNamed_tagged ht hlen]
    refine exists_congr fun w => conformTagged_eq_ok.trans ⟨?_, fun h => ⟨tag, c, htagOf, hc, h⟩⟩
    rintro ⟨tag', c', htag', hc', h⟩
    cases htagOf.symm.trans htag'
    cases hc.symm.trans hc'
    exact h
  | @untagged variants c ht hlen hc hothers =>
    simp only [conformNamed_untagged_eq_ok ht]
    rw [conformFirst_eq_ok]
    constructor
    · rintro ⟨c', hc', w, hw⟩
      by_cases h : c' = c
      · exact ⟨w, h ▸ hw⟩
      · exact absurd hw (hothers c' hc' h w)
    · rintro ⟨w, hw⟩
      exact ⟨c, hc, w, hw⟩

/-- A map is taken by a named type as a record is made of it, where the last value of each key counts. -/
theorem conform_map_named {name : String} {nullable : Bool} {origin : Origin} {t : NamedType}
    (ht : m.find? name = some t) :
    m.conform (.map es) origin (.named (some name) nullable) =
      conformNamed t (Value.map es).merged (.parts (m.parts (Value.mergeKeys es))) := by
  have hvalues : (es.map fun e => (e.1, e.2, m.conform e.2)).map (fun e => (e.1, e.2.1)) = es := by
    rw [List.map_map]
    exact List.map_id es
  have hparts : Value.mergeKeys (es.map fun e => (e.1, e.2, m.conform e.2)) =
      m.parts (Value.mergeKeys es) := Value.mergeKeys_map (fun v => (v, m.conform v)) es
  rw [conform_map]
  show conformLeaf m _ _ (.named (some name) nullable) = _
  rw [hvalues, hparts, conformLeaf_named ht]

end Models

end ApiContract
