import ApiContract.Proofs.Compile.Origin

/-!
# Variants of unions

* `taggedBy_after`: every variant of a union with tags has a tag, and no field for the property of the tag,
  provided that the schema names the property by a text. A name that is given as octets is read as the text
  that they encode, but it is no key of the properties, so that none is left out.
* `exists_lacks_of_all`: of a union without tags that is made without a notice, each variant requires a field
  that no later one has.
-/

namespace ApiContract

/-- A variant that a property tells apart from others: it has a tag, and no field for the property. -/
structure Variant.TaggedBy (key : String) (v : Variant) : Prop where
  tagged : ∃ tag, v.tag = some tag
  free : key ∉ v.body.fields.map (·.wireName)

/-- A variant does not have a field that another one requires. -/
structure Variant.Lacks (v u : Variant) (f : Field) : Prop where
  mem : f ∈ u.body.fields
  required : f.required = true
  missing : f.wireName ∉ v.body.fields.map (·.wireName)

namespace Compile

variable {table : Entries}

/-! ## With tags -/

/-- The property that tells the variants of a union apart is not named by octets. -/
def NamesTag (schema : Tree) : Prop :=
  ∀ es a discriminator octets, schema.entries? = some es →
    Entries.get? es "discriminator" = some (.map a discriminator) →
    Entries.orNull discriminator "propertyName" ≠ .scalar (.bytes octets)

/-- A field that is a text is read as it is, or as the text that octets encode. -/
theorem eq_text_of_optionalText {field s : String} {t : Tree} (h : optionalText field t = .ok (some s))
    (ht : ∀ octets, t ≠ .scalar (.bytes octets)) : t = .text s := by
  cases t with
  | scalar k =>
    cases k with
    | text s' =>
      cases h
      rfl
    | bytes octets => exact absurd rfl (ht octets)
    | _ => cases h
  | _ => cases h

theorem textFields_pair {a b : String} {t u : Tree} {r r' : Option String}
    (h : textFields [(a, t), (b, u)] = .ok [r, r']) : optionalText b u = .ok r' := by
  unfold textFields at h
  cases ht : optionalText a t <;> cases hu : optionalText b u <;>
    simp only [List.map_cons, List.map_nil, ht, hu] at h <;> cases h
  rfl

theorem Gave.taggedBy {n : String} {schema : Tree} {t : NamedType} (h : Gave table n schema t)
    (hnames : NamesTag schema) {d : Option String} {vs : List Variant} (hshape : t.shape = .tagged d vs) :
    ∃ key, d = some key ∧ ∀ v ∈ vs, v.TaggedBy key := by
  obtain ⟨follow, s, s', h⟩ := h
  obtain ⟨es, m, hentries, hmakes, hm⟩ := makes_of_schemaType h
  obtain ⟨a, discriminator, hdiscriminator, hrun⟩ := hmakes.taggedUnion hm hshape
  obtain ⟨_, key, variants, _, _, _, htexts, -, -, -, hvariants, rfl⟩ := taggedUnion_eq_ok hrun
  cases hshape
  have hkey : Entries.orNull discriminator "propertyName" = .text key :=
    eq_text_of_optionalText (textFields_pair htexts)
      fun octets => hnames es a discriminator octets hentries hdiscriminator
  refine ⟨key, rfl, fun v hv => ?_⟩
  obtain ⟨b, hb, htag, -, objects, _, _, -, hbody⟩ := mem_of_forall₂_right (variantsFrom_eq_ok hvariants) hv
  obtain ⟨branch, -, rfl⟩ := List.mem_map.1 hb
  refine ⟨⟨_, htag⟩, fun hmem => ?_⟩
  obtain ⟨f, hf, rfl⟩ := List.mem_map.1 hmem
  exact wireName_ne_of_body hbody hf hkey.symm

/-- Whatever has been compiled, the variants of a union with tags are told apart by a property. -/
theorem taggedBy_after {calls : List Call} (htable : ∀ e ∈ table, NamesTag e.2)
    (hcalls : ∀ call ∈ calls, call.Asks fun _ => NamesTag) {t : NamedType}
    (ht : t ∈ (after table calls).types) {d : Option String} {vs : List Variant}
    (hshape : t.shape = .tagged d vs) : ∃ key, d = some key ∧ ∀ v ∈ vs, v.TaggedBy key := by
  have htraced : Traced table (fun _ => NamesTag) (after table calls) :=
    traced_after (fun _ _ hmem _ => htable _ hmem) hcalls
  obtain ⟨n, schema, hnames, hgave, -⟩ := htraced.types t ht
  exact hgave.taggedBy hnames hshape

/-! ## Without tags -/

/-- Variants that overlap are noted. -/
theorem overlap_mem {union : String} {u c : Variant} {rest : List Variant} (h : overlaps u c = true) :
    ∀ {before : List Variant}, u ∈ before →
      .overlap union u.name c.name ∈ overlapNotices union (before ++ c :: rest)
  | u' :: before, hu => by
    rw [List.cons_append, overlapNotices, List.mem_append]
    rcases List.mem_cons.1 hu with rfl | hu
    · refine .inl (List.mem_map.2 ⟨c, List.mem_filter.2 ⟨?_, h⟩, rfl⟩)
      exact List.mem_append_right _ List.mem_cons_self
    · exact .inr (overlap_mem h hu)

/-- Variants that do not overlap differ in a field that the earlier one requires. -/
theorem exists_lacks_of_not_overlaps {u c : Variant} (h : overlaps u c = false) : ∃ f, c.Lacks u f := by
  obtain ⟨f, hf, hcovered⟩ := List.all_eq_false.1 h
  simp only [Bool.or_eq_true, Bool.not_eq_true', List.any_eq_true, beq_iff_eq, not_or,
    Bool.not_eq_false] at hcovered
  obtain ⟨hrequired, hnone⟩ := hcovered
  exact ⟨f, ⟨hf, hrequired, fun hmem => hnone (List.mem_map.1 hmem)⟩⟩

/-- A variant requires a field that no later one has, if compiling the table has given no notice about the
union. -/
theorem exists_lacks_of_all {types : List NamedType} {s : State}
    (h : all table .start = (.ok types, s)) {t : NamedType} (ht : t ∈ types)
    (hquiet : ∀ u c, .overlap t.name u c ∉ s.notices) {before rest : List Variant} {u c : Variant}
    (hshape : t.shape = .untagged (before ++ c :: rest)) (hu : u ∈ before) : ∃ f, c.Lacks u f := by
  have htypes : t ∈ s.types := (all_run h).2.1 ▸ ht
  refine exists_lacks_of_not_overlaps (Bool.eq_false_iff.2 fun hoverlaps => ?_)
  exact hquiet _ _ ((traced_of_all h).noted t htypes _ hshape (overlap_mem hoverlaps hu))

end Compile

end ApiContract
