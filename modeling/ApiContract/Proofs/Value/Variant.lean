import ApiContract.Proofs.Compile.Union
import ApiContract.Proofs.Value.Wire

/-!
# Cases of unions

A map that passes as a value of a union with tags is a record of the case that its tag selects
(`conform_tagged_map`), and what holds nothing for the property of the tag is written with the tag in front
(`wire?_tagged`). A union with one case only is that case, whatever the tag.

Of a union without tags, a value is of the first case that takes it (`conformFirst_of_refused`). A case does
not take a map without a key for one of its required fields (`conformParts_ne_of_missing`).
-/

namespace ApiContract

/-- What a record of a type holds: its fields, and further entries only if it may have any. The property that
tells the cases of a union apart is neither a field nor a further entry. -/
structure RecordType.Takes (type : RecordType) (fields extra : List (String × Value)) : Prop where
  names : fields.map (·.1) = type.body.fields.map (·.name)
  closed : type.body.extra = none → extra = []
  noField : ∀ key, type.discriminator = some key → key ∉ type.body.fields.map (·.wireName)
  noEntry : ∀ key, type.discriminator = some key → key ∉ extra.map (·.1)

namespace Models

variable {m : Models} {es fields extra : List (String × Value)} {type : RecordType}

/-! ## Reading -/

theorem name_of_conformField {f : Field} {e : String × Value} (h : conformField (m.parts es) f = .ok e) :
    f.name = e.1 := by
  cases hheld : held? es f with
  | none => exact congrArg Prod.fst ((conformField_of_none hheld).1 h).2
  | some p => exact ((conformField_of_held hheld).1 h).2

/-- A record that a map has passed as. -/
theorem takes_of_conformParts {w : Value}
    (hfree : ∀ key, type.discriminator = some key → key ∉ type.body.fields.map (·.wireName))
    (h : conformParts type (m.parts es) = .ok w) :
    ∃ fields extra, type.Takes fields extra ∧ w = .record type fields extra := by
  obtain ⟨fields, extra, hfields, hextra, rfl⟩ := conformParts_eq_ok.1 h
  have hnames : type.body.fields.map (·.name) = fields.map (·.1) :=
    forall₂_eq_iff.1 (hfields.imp fun _ _ => name_of_conformField)
  cases hopen : type.body.extra with
  | none =>
    rw [conformExtra, hopen] at hextra
    cases hextra
    exact ⟨fields, [], ⟨hnames.symm, fun _ => rfl, hfree, fun _ _ => List.not_mem_nil⟩, rfl⟩
  | some t =>
    have hentries := (conformExtra_eq_ok hopen).1 hextra
    refine ⟨fields, extra, ⟨hnames.symm, fun hnone => ?_, hfree, fun key hkey hmem => ?_⟩, rfl⟩
    · cases hopen.symm.trans hnone
    · obtain ⟨e', he', rfl⟩ := List.mem_map.1 hmem
      obtain ⟨e, he, -, hk⟩ := mem_of_forall₂_right hentries he'
      have hkept := (List.mem_filter.1 (List.mem_of_mem_filter he)).2
      exact of_decide_eq_true hkept (hkey.trans (congrArg some hk.symm))

section

variable {name : String} {nullable : Bool} {origin : Origin} {t : NamedType} {key : String}
  {variants : List Variant} (ht : m.find? name = some t) (hshape : t.shape = .tagged (some key) variants)
include ht hshape

/-- A map that passes as a value of a union with tags is a record of one of its cases, and unless there is no
other case, the last value under the property of the tag is the text that selects it. -/
theorem conform_tagged_map (hvariants : ∀ v ∈ variants, v.TaggedBy key) {w : Value}
    (h : m.conform (.map es) origin (.named (some name) nullable) = .ok w) :
    ∃ c ∈ variants, (variants.length ≠ 1 → es.reverse.lookup key = some (.text (selector c))) ∧
      ∃ fields extra, (RecordType.ofVariant t.name (some key) c.tag c).Takes fields extra ∧
        w = .record (.ofVariant t.name (some key) c.tag c) fields extra := by
  have htakes : ∀ c ∈ variants, ∀ w, conformParts (.ofVariant t.name (some key) c.tag c)
      (m.parts (Value.mergeKeys es)) = .ok w →
        ∃ fields extra, (RecordType.ofVariant t.name (some key) c.tag c).Takes fields extra ∧
          w = .record (.ofVariant t.name (some key) c.tag c) fields extra := by
    refine fun c hc w hw => takes_of_conformParts (fun k hk => ?_) hw
    cases hk
    exact (hvariants c hc).free
  rw [conform_map_named ht] at h
  by_cases hlen : variants.length = 1
  · obtain ⟨c, rfl⟩ := List.length_eq_one_iff.1 hlen
    rw [conformNamed, hshape] at h
    exact ⟨c, List.mem_cons_self, fun hne => absurd hlen hne, htakes c List.mem_cons_self w h⟩
  · rw [conformNamed_tagged hshape hlen, conformTagged_eq_ok] at h
    obtain ⟨tag, c, htag, hc, h⟩ := h
    have hmem : c ∈ variants := List.mem_reverse.1 (List.mem_of_find?_eq_some hc)
    have hselector : selector c = tag := by simpa using List.find?_some hc
    refine ⟨c, hmem, fun _ => ?_, htakes c hmem w h⟩
    rw [← Value.lookup_mergeKeys, hselector]
    exact tagOf_parts.1 htag

/-- A record of a case passes as it is, if there is no other case, or if its tag selects the case. -/
theorem conform_tagged_record {before after : List Variant} {c : Variant}
    (hsplit : variants = before ++ c :: after)
    (hselected : variants = [c] ∨ c.tag = some (selector c) ∧ ∀ c' ∈ after, selector c' ≠ selector c) :
    m.conform (.record (.ofVariant t.name (some key) c.tag c) fields extra) origin
        (.named (some name) nullable) =
      .ok (.record (.ofVariant t.name (some key) c.tag c) fields extra) := by
  rw [conform_record, conformLeaf_named ht]
  rcases hselected with rfl | ⟨htag, hlast⟩
  · rw [conformNamed, hshape]
    exact if_pos rfl
  · by_cases hlen : variants.length = 1
    · obtain ⟨c', rfl⟩ := List.length_eq_one_iff.1 hlen
      obtain rfl : c = c' := List.mem_singleton.1 (hsplit ▸ List.mem_append_right _ List.mem_cons_self)
      rw [conformNamed, hshape]
      exact if_pos rfl
    · rw [conformNamed_tagged hshape hlen, conformTagged_eq_ok]
      refine ⟨selector c, c, htag, ?_, if_pos rfl⟩
      have hnone : after.reverse.find? (fun c' => selector c' = selector c) = Option.none :=
        List.find?_eq_none.2 fun c' hc' => by simpa using hlast c' (List.mem_reverse.1 hc')
      rw [hsplit, List.reverse_append, List.reverse_cons, List.append_assoc, List.find?_append, hnone,
        Option.none_or, List.singleton_append, List.find?_cons_of_pos (by simp)]

end

/-! ## One case after another -/

theorem held?_eq_none {f : Field} (hwire : f.wireName ∉ es.map (·.1)) (hname : f.name ∉ es.map (·.1)) :
    held? es f = Option.none := by
  rw [held?, lookup_eq_none.2 hwire, lookup_eq_none.2 hname]
  rfl

/-- Without a key for a required field there is no record. -/
theorem conformParts_ne_of_missing (hplain : type.discriminator = Option.none) {f : Field}
    (hf : f ∈ type.body.fields) (hrequired : f.required = true) (hwire : f.wireName ∉ es.map (·.1))
    (hname : f.name ∉ es.map (·.1)) (w : Value) : conformParts type (m.parts es) ≠ .ok w := by
  intro h
  obtain ⟨fields, extra, hfields, -⟩ := conformParts_eq_ok.1 h
  have hmissing : held? (type.kept es) f = Option.none := by
    rw [RecordType.kept_of_plain hplain]
    exact held?_eq_none hwire hname
  obtain ⟨e, -, he⟩ := mem_of_forall₂_left hfields hf
  rw [((conformField_of_none hmissing).1 he).1] at hrequired
  cases hrequired

variable {union : String} {v w : Value} {content : Content} {c : Variant}

/-- The first case that takes a value decides what it is. -/
theorem conformFirst_of_refused {before rest : List Variant}
    (hrefused : ∀ u ∈ before, ∀ w,
      conformRecord (.ofVariant union Option.none Option.none u) v content ≠ .ok w)
    (h : conformRecord (.ofVariant union Option.none Option.none c) v content = .ok w) :
    conformFirst union v content (before ++ c :: rest) = .ok w := by
  induction before with
  | nil =>
    rw [List.nil_append, conformFirst, h]
    rfl
  | cons u before ih =>
    obtain ⟨hu, hbefore⟩ := List.forall_mem_cons.1 hrefused
    rw [List.cons_append, conformFirst, ih hbefore]
    cases hcase : conformRecord (.ofVariant union Option.none Option.none u) v content with
    | ok w' => exact absurd hcase (hu w')
    | error e => rfl

/-- A record of one of the cases passes as it is. -/
theorem conformFirst_record : ∀ {variants : List Variant}, c ∈ variants →
    conformFirst union v (.record (.ofVariant union Option.none Option.none c)) variants = .ok v
  | u :: variants, hc => by
    rw [conformFirst, conformRecord]
    by_cases hname : (RecordType.ofVariant union Option.none Option.none c).name =
        (RecordType.ofVariant union Option.none Option.none u).name
    · rw [if_pos hname]
      rfl
    · have hne : c ≠ u := fun h => hname (h ▸ rfl)
      rw [if_neg hname, conformFirst_record ((List.mem_cons.1 hc).resolve_left hne)]
      rfl

end Models

namespace Value

variable {type : RecordType} {fields extra : List (String × Value)}

/-! ## Writing -/

/-- A record of a case is written with its tag in front. -/
theorem wire?_tagged (htakes : type.Takes fields extra) {key tag : String}
    (hkey : type.discriminator = some key) (htag : type.tag = some tag) {t : Tree}
    (ht : wire? (.record type fields extra) = some t) :
    ∃ entries : Entries, t = .map none ((.text key, .text tag) :: entries) ∧
      .text key ∉ entries.map (·.1) := by
  rw [wire?_record, Option.map_eq_some_iff] at ht
  obtain ⟨written, hwritten, rfl⟩ := ht
  rw [wireEntries_eq_some] at hwritten
  have hfree : Scalar.text key ∉ written.map (·.1) := by
    rw [hwritten.keys]
    intro hmem
    obtain ⟨_, hsent, hk⟩ := List.mem_map.1 hmem
    cases hk
    exact notMem_sent (htakes.noField _ hkey) (htakes.noEntry _ hkey) hsent
  have htagged : tagEntry type = [(.text key, .text tag)] := by
    rw [tagEntry, hkey, htag]
    rfl
  rw [htagged, Entries.foldl_put_cons hfree]
  refine ⟨_, rfl, fun hmem => hfree ?_⟩
  obtain ⟨x, hx, hxk⟩ := List.mem_map.1 hmem
  exact List.mem_map.2 ⟨x, (Entries.mem_foldl_put hx).resolve_left List.not_mem_nil, hxk⟩

end Value

end ApiContract
