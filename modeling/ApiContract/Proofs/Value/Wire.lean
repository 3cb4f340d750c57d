import ApiContract.Proofs.Json.RoundTrip
import ApiContract.Proofs.Value.Typed
import ApiContract.Value.Written

/-!
# Written values

The tree that a value is written as stands for the value again, unless a record in it leaves out a field whose
own name is a key of what it is written with (`Unmistaken`).

A record is written with its fields under their wire names and its further entries, less the fields that it
leaves out (`sent`). Under the wire name of a field there is its value; a field that has been left out is
found neither under its wire name nor under its own (`held?_sent`).
-/

namespace ApiContract.Value

open Json (allSome_eq_some)

/-! ## Trees of values -/

/-- The fields of a record under their wire names. -/
def fieldEntries (body : Body) (fields : List (String × Value)) : List (String × Value) :=
  body.fields.filterMap fun f => (fields.lookup f.name).map fun v => (f.wireName, v)

/-- The keys that a record is written without. -/
def omitted (type : RecordType) (fields : List (String × Value)) : List String :=
  omittedKeys type (fields.map fun e => (e.1, e.2, e.2.wire?))

/-- The entries that a record is written with. -/
def sent (type : RecordType) (fields extra : List (String × Value)) : List (String × Value) :=
  (fieldEntries type.body fields ++ extra).filter fun e => !(omitted type fields).contains e.1

theorem writtenFields_eq (type : RecordType) (fields : List (String × Value)) :
    writtenFields type (fields.map fun e => (e.1, e.2, e.2.wire?)) =
      (fieldEntries type.body fields).map fun e => (e.1, e.2.wire?) := by
  rw [writtenFields, fieldEntries, List.map_filterMap]
  refine List.filterMap_congr fun f _ => ?_
  rw [lookup_map (fun v => (v, wire? v)), Option.map_map, Option.map_map]
  rfl

theorem wire?_record (type : RecordType) (fields extra : List (String × Value)) :
    wire? (.record type fields extra) =
      (wireEntries ((sent type fields extra).map fun e => (e.1, e.2.wire?))).map fun entries =>
        .map none (entries.foldl (fun es e => Entries.put e.1 e.2 es) (tagEntry type)) := by
  have hsent : (sent type fields extra).map (fun e => (e.1, e.2.wire?)) =
      (writtenFields type (fields.map fun e => (e.1, e.2, e.2.wire?)) ++
        (extra.map fun e => (e.1, e.2, e.2.wire?)).map fun e => (e.1, e.2.2)).filter fun p =>
          !(omitted type fields).contains p.1 := by
    have hextra : (extra.map fun e => (e.1, e.2, e.2.wire?)).map (fun e => (e.1, e.2.2)) =
        extra.map fun e => (e.1, e.2.wire?) := List.map_map
    rw [sent, writtenFields_eq, hextra, ← List.map_append, List.filter_map]
    rfl
  rw [hsent, wire?, para, paraEntries_eq, paraEntries_eq, Option.map_eq_bind]
  rfl

/-- The entries that parts are written as. -/
abbrev WrittenAs (parts : List (String × Value)) (entries : Entries) : Prop :=
  List.Forall₂ (fun e x => e.2.wire? = some x.2 ∧ .text e.1 = x.1) parts entries

theorem wireEntries_eq_some {parts : List (String × Value)} {entries : Entries} :
    wireEntries (parts.map fun e => (e.1, e.2.wire?)) = some entries ↔ WrittenAs parts entries := by
  have hentry : (fun (e : String × Value) (x : Scalar × Tree) =>
      (e.2.wire?.map fun t => (Scalar.text e.1, t)) = some x) =
      fun e x => e.2.wire? = some x.2 ∧ .text e.1 = x.1 := by
    funext e ⟨k, t⟩
    simp [Option.map_eq_some_iff]
  rw [wireEntries, List.map_map, allSome_eq_some, List.forall₂_map_left_iff, WrittenAs, ← hentry]
  rfl

theorem WrittenAs.keys {parts : List (String × Value)} {entries : Entries} (h : WrittenAs parts entries) :
    entries.map (·.1) = (parts.map (·.1)).map Scalar.text := by
  induction h with
  | nil => rfl
  | cons hR _ ih => rw [List.map_cons, List.map_cons, List.map_cons, ih, hR.2]

theorem wire?_list_eq_some {vs : List Value} {tree : Tree} : wire? (.list vs) = some tree ↔
    ∃ ts, List.Forall₂ (fun v t => v.wire? = some t) vs ts ∧ .list none ts = tree := by
  rw [wire?, para, paraItems_eq, List.map_map, Option.map_eq_some_iff]
  refine exists_congr fun ts => and_congr_left fun _ => ?_
  rw [allSome_eq_some, List.forall₂_map_left_iff]
  rfl

theorem wire?_map_eq_some {es : List (String × Value)} {tree : Tree} : wire? (.map es) = some tree ↔
    ∃ entries, WrittenAs es entries ∧ .map none entries = tree := by
  rw [wire?, para, paraEntries_eq, List.map_map, Option.map_eq_some_iff]
  exact exists_congr fun ts => and_congr_left fun _ => wireEntries_eq_some

/-- A record without a tag is written with its parts, where these have different keys. -/
theorem wire?_record_eq_some {type : RecordType} {fields extra : List (String × Value)}
    (hplain : type.discriminator = none) (hkeys : ((sent type fields extra).map (·.1)).Nodup)
    {tree : Tree} : wire? (.record type fields extra) = some tree ↔
      ∃ entries, WrittenAs (sent type fields extra) entries ∧ .map none entries = tree := by
  rw [wire?_record, Option.map_eq_some_iff]
  simp only [wireEntries_eq_some]
  refine exists_congr fun entries => and_congr_right fun h => ?_
  have hnodup : ((([] : Entries) ++ entries).map (·.1)).Nodup := by
    rw [List.nil_append, h.keys]
    exact hkeys.map fun _ _ => Scalar.text.inj
  have htag : tagEntry type = [] := by rw [tagEntry, hplain]
  rw [htag, Entries.foldl_put_of_nodup hnodup, List.nil_append]

/-! ## Values with a text -/

/-- A value that has a JSON text. -/
def Writable (v : Value) : Prop :=
  ∃ text, v.jsonText? = some text

theorem writable_iff {v : Value} :
    v.Writable ↔ ∃ t, v.wire? = some t ∧ ∃ text, Json.print? .compact t = some text := by
  simp only [Writable, jsonText?, Option.bind_eq_some_iff]
  exact ⟨fun ⟨s, t, ht, hs⟩ => ⟨t, ht, s, hs⟩, fun ⟨t, ht, s, hs⟩ => ⟨s, t, ht, hs⟩⟩

/-- Parts that have texts are written as entries that have. -/
theorem exists_writtenAs {parts : List (String × Value)} (h : ∀ e ∈ parts, e.2.Writable) :
    ∃ entries, WrittenAs parts entries ∧
      ∀ x ∈ entries, (∃ k, x.1 = .text k) ∧ ∃ text, Json.print? .compact x.2 = some text := by
  have hentry : ∀ e ∈ parts, ∃ x : Scalar × Tree, e.2.wire? = some x.2 ∧ .text e.1 = x.1 := by
    intro e he
    obtain ⟨t, ht, -⟩ := writable_iff.1 (h e he)
    exact ⟨(.text e.1, t), ht, rfl⟩
  obtain ⟨entries, hentries⟩ := exists_forall₂.2 hentry
  refine ⟨entries, hentries, fun x hx => ?_⟩
  obtain ⟨e, he, ht, hk⟩ := mem_of_forall₂_right hentries hx
  obtain ⟨t, ht', htext⟩ := writable_iff.1 (h e he)
  cases ht.symm.trans ht'
  exact ⟨⟨e.1, hk.symm⟩, htext⟩

theorem writable_list {vs : List Value} (h : ∀ v ∈ vs, v.Writable) : (list vs).Writable := by
  have hitem : ∀ v ∈ vs, ∃ t, v.wire? = some t := fun v hv =>
    (writable_iff.1 (h v hv)).imp fun _ h => h.1
  obtain ⟨ts, hts⟩ := exists_forall₂.2 hitem
  refine writable_iff.2 ⟨_, wire?_list_eq_some.2 ⟨ts, hts, rfl⟩, Json.exists_print_list rfl fun t ht => ?_⟩
  obtain ⟨v, hv, hvt⟩ := mem_of_forall₂_right hts ht
  obtain ⟨t', ht', htext⟩ := writable_iff.1 (h v hv)
  cases hvt.symm.trans ht'
  exact htext

theorem writable_map {es : List (String × Value)} (h : ∀ e ∈ es, e.2.Writable) : (map es).Writable := by
  obtain ⟨entries, hentries, htexts⟩ := exists_writtenAs h
  exact writable_iff.2 ⟨_, wire?_map_eq_some.2 ⟨entries, hentries, rfl⟩,
    Json.exists_print_map rfl (fun x hx => (htexts x hx).1) fun x hx => (htexts x hx).2⟩

/-! ## What a record is written with -/

/-- Whether a record leaves out a field: it is not required and holds nothing. -/
def Absent (fields : List (String × Value)) (f : Field) : Prop :=
  f.required = false ∧ fields.lookup f.name = some .null

/-- No key that a record is written with is the name of a field that it leaves out. -/
structure Unmistaken (type : RecordType) (fields extra : List (String × Value)) : Prop where
  amongFields : ∀ f ∈ type.body.fields, Absent fields f →
    ∀ g ∈ type.body.fields, ¬ Absent fields g → g.wireName ≠ f.name
  amongExtra : ∀ f ∈ type.body.fields, Absent fields f → f.name ∉ extra.map (·.1)

variable {type : RecordType} {fields extra : List (String × Value)} {f : Field} {k : String}

theorem mem_omitted : k ∈ omitted type fields ↔
    ∃ f ∈ type.body.fields, Absent fields f ∧
      (if f.wireName.isEmpty then f.name else f.wireName) = k := by
  rw [omitted, omittedKeys, List.mem_filterMap]
  refine exists_congr fun f => and_congr_right fun _ => ?_
  rw [lookup_map (fun v => (v, wire? v)), Absent]
  cases f.required with
  | true => simp
  | false =>
    cases fields.lookup f.name with
    | none => simp
    | some v =>
      cases v with
      | scalar s => cases s <;> simp
      | _ => simp

theorem mem_fieldEntries {body : Body} {e : String × Value} : e ∈ fieldEntries body fields ↔
    ∃ f ∈ body.fields, f.wireName = e.1 ∧ fields.lookup f.name = some e.2 := by
  obtain ⟨k, v⟩ := e
  simp only [fieldEntries, List.mem_filterMap, Option.map_eq_some_iff, Prod.mk.injEq]
  refine exists_congr fun f => and_congr_right fun _ => ?_
  exact ⟨fun ⟨_, h, hk, hv⟩ => ⟨hk, hv ▸ h⟩, fun ⟨hk, h⟩ => ⟨v, h, hk, rfl⟩⟩

theorem keys_fieldEntries (body : Body) :
    ((fieldEntries body fields).map (·.1)).Sublist (body.fields.map (·.wireName)) := by
  rw [fieldEntries]
  induction body.fields with
  | nil => exact .slnil
  | cons f fs ih =>
    rw [List.filterMap_cons]
    cases fields.lookup f.name with
    | none => exact ih.cons _
    | some v => exact ih.cons_cons _

theorem lookup_fieldEntries {body : Body} (hb : (body.fields.map (·.wireName)).Nodup)
    (hf : f ∈ body.fields) : (fieldEntries body fields).lookup f.wireName = fields.lookup f.name := by
  cases hv : fields.lookup f.name with
  | some v =>
    have hmem : (f.wireName, v) ∈ fieldEntries body fields := mem_fieldEntries.2 ⟨f, hf, rfl, hv⟩
    exact lookup_of_mem (hb.sublist (keys_fieldEntries body)) hmem
  | none =>
    refine lookup_eq_none.2 fun hk => ?_
    obtain ⟨e, he, hwire⟩ := List.mem_map.1 hk
    obtain ⟨g, hg, hgwire, hgv⟩ := mem_fieldEntries.1 he
    obtain rfl : g = f := List.inj_on_of_nodup_map hb hg hf (hgwire.trans hwire)
    rw [hv] at hgv
    cases hgv

/-- A record is written with its fields, under their wire names, and its further entries. -/
theorem mem_sent {e : String × Value} (h : e ∈ sent type fields extra) :
    (∃ f ∈ type.body.fields, f.wireName = e.1 ∧ fields.lookup f.name = some e.2) ∨ e ∈ extra :=
  (List.mem_append.1 (List.mem_of_mem_filter h)).imp_left mem_fieldEntries.1

theorem notMem_sent (hfield : k ∉ type.body.fields.map (·.wireName)) (hentry : k ∉ extra.map (·.1)) :
    k ∉ (sent type fields extra).map (·.1) := by
  intro hk
  obtain ⟨e, he, rfl⟩ := List.mem_map.1 hk
  rcases mem_sent he with ⟨f, hf, hwire, -⟩ | he
  · exact hfield (hwire ▸ List.mem_map_of_mem hf)
  · exact hentry (List.mem_map_of_mem he)

/-- What is so of the fields of a record, and of its further entries where it may have any, is so of all that it
is written with. -/
theorem forall_mem_sent {P : Value → Prop} (hnone : type.body.extra = none → extra = [])
    (hfields : ∀ f ∈ type.body.fields, ∀ v, fields.lookup f.name = some v → P v)
    (hextra : ∀ t, type.body.extra = some t → ∀ e ∈ extra, P e.2) :
    ∀ e ∈ sent type fields extra, P e.2 := by
  intro e he
  rcases mem_sent he with ⟨f, hf, -, hv⟩ | he
  · exact hfields f hf e.2 hv
  · cases hopen : type.body.extra with
    | none =>
      rw [hnone hopen] at he
      cases he
    | some t => exact hextra t hopen e he

/-- A record has a text if what it is written with does. -/
theorem writable_record (h : ∀ e ∈ sent type fields extra, e.2.Writable) :
    (record type fields extra).Writable := by
  obtain ⟨entries, hentries, htexts⟩ := exists_writtenAs h
  have htag : ∀ x ∈ tagEntry type, (∃ k, x.1 = .text k) ∧ ∃ text, Json.print? .compact x.2 = some text := by
    unfold tagEntry
    cases type.discriminator with
    | none => exact nofun
    | some key =>
      refine List.forall_mem_singleton.2 ⟨⟨key, rfl⟩, ?_⟩
      cases type.tag <;> exact ⟨_, rfl⟩
  have hall : ∀ x ∈ entries.foldl (fun (es : Entries) e => Entries.put e.1 e.2 es) (tagEntry type),
      (∃ k, x.1 = .text k) ∧ ∃ text, Json.print? .compact x.2 = some text :=
    fun x hx => (Entries.mem_foldl_put hx).elim (htag x) (htexts x)
  have hwire : wire? (record type fields extra) = some (.map none
      (entries.foldl (fun (es : Entries) e => Entries.put e.1 e.2 es) (tagEntry type))) := by
    rw [wire?_record, wireEntries_eq_some.2 hentries, Option.map_some]
  exact writable_iff.2 ⟨_, hwire,
    Json.exists_print_map rfl (fun x hx => (hall x hx).1) fun x hx => (hall x hx).2⟩

/-! ## What is found in it -/

theorem lookup_sent (k : String) : (sent type fields extra).lookup k =
    if k ∈ omitted type fields then none
    else (fieldEntries type.body fields ++ extra).lookup k := by
  rw [sent, lookup_filter fun k => !(omitted type fields).contains k]
  by_cases hk : k ∈ omitted type fields <;> simp [hk]

section
variable {types : List NamedType} (hb : type.body.Sound types)
include hb

/-- No key is written twice. -/
theorem nodup_sent (hextra : (extra.map (·.1)).Nodup)
    (hfree : ∀ e ∈ extra, e.1 ∉ type.body.fields.map (·.wireName)) :
    ((sent type fields extra).map (·.1)).Nodup := by
  refine List.Nodup.sublist (List.filter_sublist.map _) ?_
  rw [List.map_append, List.nodup_append]
  refine ⟨hb.wireNames.sublist (keys_fieldEntries type.body), hextra, fun k hk k' hk' heq => ?_⟩
  obtain ⟨e, he, rfl⟩ := List.mem_map.1 hk'
  exact hfree e he (heq ▸ (keys_fieldEntries type.body).subset hk)

/-- A field whose key is not omitted is held under its wire name. -/
theorem held?_of_notMem (hf : f ∈ type.body.fields) {v : Value} (hv : fields.lookup f.name = some v)
    (hk : f.wireName ∉ omitted type fields) :
    Models.held? (sent type fields extra) f = some (f.wireName, v) := by
  rw [Models.held?, lookup_sent, if_neg hk, List.lookup_append, lookup_fieldEntries hb.wireNames hf, hv]
  rfl

variable (hclear : Unmistaken type fields extra)
include hclear

/-- The key of a field that is not left out is not omitted. -/
theorem wireName_notMem_omitted (hf : f ∈ type.body.fields) (hpresent : ¬ Absent fields f) :
    f.wireName ∉ omitted type fields := by
  rw [mem_omitted]
  rintro ⟨g, hg, habsent, hkey⟩
  split at hkey
  · exact hclear.amongFields g hg habsent f hf hpresent hkey.symm
  · obtain rfl : g = f := List.inj_on_of_nodup_map hb.wireNames hg hf hkey
    exact hpresent habsent

/-- A field that is left out is not under its own name. -/
theorem lookup_name_of_absent (hf : f ∈ type.body.fields) (habsent : Absent fields f) :
    (sent type fields extra).lookup f.name = none := by
  rw [lookup_sent]
  split
  · rfl
  · rename_i hkey
    rw [lookup_eq_none, List.map_append, List.mem_append, not_or]
    refine ⟨fun hk => ?_, hclear.amongExtra f hf habsent⟩
    obtain ⟨e, he, hek⟩ := List.mem_map.1 hk
    obtain ⟨g, hg, hwire, -⟩ := mem_fieldEntries.1 he
    have hwire : g.wireName = f.name := hwire.trans hek
    by_cases hg' : Absent fields g
    · refine hkey (mem_omitted.2 ⟨g, hg, hg', ?_⟩)
      rw [hwire, if_neg (by simpa using (hb.named f hf).ne_empty)]
    · exact hclear.amongFields f hf habsent g hg hg' hwire

/-- A field that a record holds is found under its wire name, or else is one that is left out. -/
theorem held?_sent (hf : f ∈ type.body.fields) {v : Value} (hv : fields.lookup f.name = some v) :
    Models.held? (sent type fields extra) f = some (f.wireName, v) ∨
      Models.held? (sent type fields extra) f = none ∧ Absent fields f := by
  by_cases habsent : Absent fields f
  · by_cases hempty : f.wireName = ""
    · -- Such a field is written: its wire name counts as none when keys are left out.
      refine .inl (held?_of_notMem hb hf hv ?_)
      rw [hempty, mem_omitted]
      rintro ⟨g, hg, -, hkey⟩
      split at hkey
      · exact (hb.named g hg).ne_empty hkey
      · simp_all
    · have hkey : f.wireName ∈ omitted type fields :=
        mem_omitted.2 ⟨f, hf, habsent, if_neg (by simpa using hempty)⟩
      refine .inr ⟨?_, habsent⟩
      rw [Models.held?, lookup_sent, if_pos hkey, lookup_name_of_absent hb hclear hf habsent]
      rfl
  · exact .inl (held?_of_notMem hb hf hv (wireName_notMem_omitted hb hclear hf habsent))

/-- Fields are found under wire names only. -/
theorem mem_wireNames_of_taken (hfields : fields.map (·.1) = type.body.fields.map (·.name))
    (hk : k ∈ Models.takenKeys type.body (sent type fields extra)) :
    k ∈ type.body.fields.map (·.wireName) := by
  obtain ⟨f, hf, hk⟩ := List.mem_filterMap.1 hk
  obtain ⟨v, hv⟩ := exists_lookup (hfields ▸ List.mem_map_of_mem hf)
  rcases held?_sent hb hclear hf hv with h | ⟨h, -⟩
  · rw [h] at hk
    cases hk
    exact List.mem_map_of_mem hf
  · rw [h] at hk
    cases hk

/-- What no field has taken are the further entries. -/
theorem sent_filter (hfields : fields.map (·.1) = type.body.fields.map (·.name))
    (hfree : ∀ e ∈ extra, e.1 ∉ type.body.fields.map (·.wireName)) :
    (sent type fields extra).filter
      (fun e => !(Models.takenKeys type.body (sent type fields extra)).contains e.1) = extra := by
  have htaken (k : String) := mem_wireNames_of_taken (k := k) hb hclear hfields
  generalize hsent : Models.takenKeys type.body (sent type fields extra) = taken at htaken
  have hwritten : ∀ e ∈ fieldEntries type.body fields, e.1 ∉ omitted type fields → e.1 ∈ taken := by
    intro e he hk
    obtain ⟨f, hf, hwire, hv⟩ := mem_fieldEntries.1 he
    rw [← hwire] at hk ⊢
    rw [← hsent]
    exact List.mem_filterMap.2 ⟨f, hf, by rw [held?_of_notMem hb hf hv hk]; rfl⟩
  have hextra : ∀ e ∈ extra, e.1 ∉ omitted type fields ∧ e.1 ∉ taken := by
    refine fun e he => ⟨fun hk => ?_, fun hk => hfree e he (htaken e.1 hk)⟩
    obtain ⟨f, hf, habsent, hkey⟩ := mem_omitted.1 hk
    split at hkey
    · exact hclear.amongExtra f hf habsent (hkey ▸ List.mem_map_of_mem he)
    · exact hfree e he (hkey ▸ List.mem_map_of_mem hf)
  rw [sent, List.filter_filter, List.filter_append]
  have hnone : (fieldEntries type.body fields).filter (fun e =>
      !taken.contains e.1 && !(omitted type fields).contains e.1) = [] := by
    refine List.filter_eq_nil_iff.2 fun e he => ?_
    simpa using fun hk => by_contra fun hkept => hk (hwritten e he hkept)
  have hall : extra.filter (fun e =>
      !taken.contains e.1 && !(omitted type fields).contains e.1) = extra := by
    refine List.filter_eq_self.2 fun e he => ?_
    obtain ⟨hk, hk'⟩ := hextra e he
    simp [hk, hk']
  rw [hnone, hall, List.nil_append]

end

end ApiContract.Value
