import ApiContract.Proofs.Compile.Grounded
import ApiContract.Proofs.Compile.Origin

/-!
# Tags of unions

Each entry of a mapping gives a variant of the branch that it is for, tagged by the text of its key, and each
branch that the mapping leaves out gives one that is tagged by the branch's own name (`Tags`). So every branch
has a variant, and every entry its own. But tags come from two sources that nothing compares: they differ just
if the texts of the keys do and none of them is the name of a branch that is left out (`Tags.nodup_iff`), and
one is empty just if a key is (`Tags.empty_mem_iff`).
-/

namespace ApiContract

theorem Reference.ne_empty_of_schemaName {r n : String} (h : schemaName r = .ok n) : n ≠ "" := by
  unfold schemaName at h
  split at h
  · cases h
  · rename_i cs _
    split at h
    · cases h
    · rename_i hcs
      cases h
      -- No step of unescaping takes the last character away.
      have hslash : ∀ {cs : List Char}, cs ≠ [] → unescapeSlash cs ≠ [] := by
        intro cs hcs
        fun_cases unescapeSlash cs <;> simp_all
      have htilde : ∀ {cs : List Char}, cs ≠ [] → unescapeTilde cs ≠ [] := by
        intro cs hcs
        fun_cases unescapeTilde cs <;> simp_all
      have hne : cs ≠ [] := fun h => hcs (by simp [h])
      intro hempty
      have hlist := congrArg String.toList hempty
      rw [unescape, String.toList_ofList, String.toList_ofList] at hlist
      exact htilde (hslash hne) hlist

namespace Compile

open Tree

variable {table : Entries} {union : String} {tagField : Tree} {mapping : Entries} {parts : List Tree}

/-! ## What a union asks for -/

/-- A schema is a union of parts that a property tells apart, with a mapping of tags. -/
def Discriminates (schema tagField : Tree) (mapping : Entries) (parts : List Tree) : Prop :=
  ∃ (es : Entries) (a : Anchor) (discriminator : Entries), schema.entries? = some es ∧
    es.get? "discriminator" = some (.map a discriminator) ∧
    discriminator.orNull "propertyName" = tagField ∧ entriesOf discriminator "mapping" = .ok mapping ∧
    partsOf es "oneOf" = .ok parts

/-- An entry of a mapping is for the branch of a name. -/
def MapsTo (e : Scalar × Tree) (n : String) : Prop :=
  Reference.schemaName (mappingReference e.2.display) = .ok n

/-- The texts of the keys of a mapping. -/
def keyTexts (mapping : Entries) : List String :=
  mapping.map fun e => e.1.display

/-- A part of a union is the branch of a name. -/
def IsBranch (t : Tree) (n : String) : Prop :=
  ∃ r, Reference.ofTree? t = some r ∧ Reference.schemaName r = .ok n

/-- No two keys have one text, and none is the name of a branch that the mapping leaves out. -/
def TellsApart (mapping : Entries) (parts : List Tree) : Prop :=
  (keyTexts mapping).Nodup ∧
    ∀ t ∈ parts, ∀ n ∈ keyTexts mapping, IsBranch t n → ∃ e ∈ mapping, MapsTo e n

/-- A variant is made of the object schemas of the entry that it is named after, without the property of the
tag. -/
def BuiltFrom (table : Entries) (union : String) (tagField : Tree) (v : Variant) : Prop :=
  ∃ schema objects, table.get? v.schemaName = some schema ∧
    branchObjects table union v.schemaName schema = .ok objects ∧
      ∃ follow, ∃ s s' : State, body table (typeWith follow) union objects tagField s = (.ok v.body, s')

/-- The variants of a union: those that its mapping asks for, and those of the branches that the mapping leaves
out. -/
structure Tags (table : Entries) (union : String) (tagField : Tree) (mapping : Entries) (parts : List Tree)
    (asked own : List Variant) : Prop where
  mapped : List.Forall₂ (fun e v => v.tag = some e.1.display ∧ MapsTo e v.schemaName) mapping asked
  left : ∀ v ∈ own, v.tag = some v.schemaName ∧ ∀ e ∈ mapping, ¬ MapsTo e v.schemaName
  once : (own.map (·.schemaName)).Nodup
  branch : ∀ v ∈ asked ++ own, ∃ t ∈ parts, IsBranch t v.schemaName
  covers : ∀ t ∈ parts, ∃ v ∈ asked ++ own, IsBranch t v.schemaName
  made : ∀ v ∈ asked ++ own, BuiltFrom table union tagField v

theorem IsBranch.eq {t : Tree} {n n' : String} (h : IsBranch t n) (h' : IsBranch t n') : n = n' := by
  obtain ⟨r, href, hname⟩ := h
  obtain ⟨r', href', hname'⟩ := h'
  cases href.symm.trans href'
  exact Except.ok.inj (hname.symm.trans hname')

/-! ## Making the variants -/

/-- Every part of a union is a reference to an entry. -/
theorem refers_of_branchesFrom : ∀ {ts : List Tree} {done bs : List (String × Tree)},
    branchesFrom table union done ts = .ok bs →
      ∀ t ∈ ts, ∃ r n schema, Reference.ofTree? t = some r ∧ Names table r n schema
  | [], _, _, _ => nofun
  | t :: ts, done, bs, h => by
    unfold branchesFrom at h
    cases href : Reference.ofTree? t with
    | none =>
      rw [href] at h
      cases h
    | some r =>
      rw [href] at h
      obtain ⟨found, hfind, h⟩ := ApiContract.bind_eq_ok.1 h
      exact List.forall_mem_cons.2
        ⟨⟨r, _, _, href, names_of_find hfind⟩, refers_of_branchesFrom h⟩

/-- A mapping gives each entry the tag of its key and the branch that it is for. -/
theorem mapsTo_of_mappedTags {bs : List (String × Tree)} {mapped : List (String × String)}
    (h : mappedTags union bs mapping = .ok mapped) :
    List.Forall₂ (fun e m => m.1 = e.1.display ∧ MapsTo e m.2) mapping mapped := by
  refine (forall₂_of_mapM h).imp fun e m hm => ?_
  obtain ⟨n, hname, hm⟩ := ApiContract.bind_eq_ok.1 hm
  split at hm
  · cases hm
    exact ⟨rfl, hname⟩
  · cases hm

theorem tags_of_taggedUnion {follow : String → Run TypeExpr} {name schemaName : String}
    {schema discriminator : Entries} {t : NamedType} {s s' : State}
    (h : taggedUnion table (typeWith follow) name schemaName schema discriminator s = (.ok t, s'))
    {d : Option String} {vs : List Variant} (hshape : t.shape = .tagged d vs) :
    ∃ parts mapping asked own, partsOf schema "oneOf" = .ok parts ∧
      entriesOf discriminator "mapping" = .ok mapping ∧ vs = asked ++ own ∧
        Tags table t.name (discriminator.orNull "propertyName") mapping parts asked own := by
  obtain ⟨_, key, variants, bs, mapping, mapped, -, hbs, hmapping, hmapped, hvariants, rfl⟩ :=
    taggedUnion_eq_ok h
  cases hshape
  obtain ⟨parts, hparts, hfrom⟩ := ApiContract.bind_eq_ok.1 hbs
  obtain ⟨hentries, hnodup, -, hall⟩ := of_branchesFrom hfrom nofun List.nodup_nil
  have hmapsTo := mapsTo_of_mappedTags hmapped
  have hmade := List.forall₂_map_left_iff.1 (variantsFrom_eq_ok hvariants)
  have hasked := List.forall₂_take mapped.length hmade
  have hown := List.forall₂_drop mapped.length hmade
  rw [tagBranches, List.take_left] at hasked
  rw [tagBranches, List.drop_left] at hown
  have hbranch : ∀ v ∈ vs, ∃ b ∈ bs, v.schemaName = b.1 ∧
      BuiltFrom table name (discriminator.orNull "propertyName") v := by
    intro v hv
    obtain ⟨m, hm, -, hname, objects, s, s', hobjects, hbody⟩ := mem_of_forall₂_right hmade hv
    obtain ⟨b, hb, hbname⟩ := List.mem_map.1 (mem_of_mem_tagBranches (mem_of_mappedTags hmapped) m hm)
    rw [← hbname] at hname hobjects
    rw [lookup_of_mem hnodup hb] at hobjects
    refine ⟨b, hb, hname, b.2, objects, ?_⟩
    rw [hname]
    exact ⟨(hentries b hb).found, hobjects, follow, s, s', hbody⟩
  have hsplit := List.take_append_drop mapped.length vs
  refine ⟨parts, mapping, vs.take mapped.length, vs.drop mapped.length, hparts, hmapping, hsplit.symm, ?_⟩
  constructor
  case mapped =>
    refine forall₂_comp hmapsTo hasked fun e m v hm hv => ?_
    exact ⟨hv.1.trans (congrArg some hm.1), hv.2.1 ▸ hm.2⟩
  case left =>
    intro v hv
    obtain ⟨m, hm, htag, hname, -⟩ := mem_of_forall₂_right hown hv
    obtain ⟨b, hb, rfl⟩ := List.mem_map.1 hm
    obtain ⟨-, hleft⟩ := List.mem_filter.1 hb
    refine ⟨htag.trans (congrArg some hname.symm), fun e he hmaps => ?_⟩
    obtain ⟨m, hm, -, hm'⟩ := mem_of_forall₂_left hmapsTo he
    have heq : m.2 = b.1 := (Except.ok.inj (hm'.symm.trans hmaps)).trans hname
    have hany : mapped.any (·.2 == b.1) = true := List.any_eq_true.2 ⟨m, hm, beq_iff_eq.2 heq⟩
    rw [hany] at hleft
    cases hleft
  case once =>
    have hnames : List.Forall₂ (fun b v => b.1 = v.schemaName) (bs.filter _) (vs.drop mapped.length) :=
      (List.forall₂_map_left_iff.1 hown).imp fun _ _ hv => hv.2.1.symm
    rw [← forall₂_eq_iff.1 hnames]
    exact hnodup.sublist (List.filter_sublist.map _)
  case branch =>
    rw [hsplit]
    intro v hv
    obtain ⟨b, hb, hname, -⟩ := hbranch v hv
    rcases names_of_branchesFrom hfrom b hb with hnone | ⟨t, ht, r, href, hnames⟩
    · cases hnone
    · exact ⟨t, ht, r, href, hname ▸ hnames.1⟩
  case covers =>
    rw [hsplit]
    intro t ht
    obtain ⟨r, n, schema, href, hnames⟩ := refers_of_branchesFrom hfrom t ht
    obtain ⟨tag, htag⟩ := mem_tagBranches (hall t ht r n schema href hnames)
    obtain ⟨v, hv, -, hname, -⟩ := mem_of_forall₂_left hmade htag
    exact ⟨v, hv, r, href, hname.symm ▸ hnames.1⟩
  case made =>
    rw [hsplit]
    intro v hv
    obtain ⟨b, -, -, hbuilt⟩ := hbranch v hv
    exact hbuilt

/-! ## Telling variants apart -/

section

variable {asked own : List Variant} (h : Tags table union tagField mapping parts asked own)
include h

/-- The tags are the texts of the keys, and then the names of the branches that are left out. -/
theorem Tags.eq_map : (asked ++ own).map (·.tag) =
    (keyTexts mapping ++ own.map (·.schemaName)).map some := by
  have hasked : asked.map (·.tag) = (keyTexts mapping).map some := by
    rw [keyTexts, List.map_map]
    exact (forall₂_eq_iff.1 (h.mapped.imp fun _ _ hv => hv.1.symm)).symm
  have hown : own.map (·.tag) = (own.map (·.schemaName)).map some := by
    rw [List.map_map]
    exact List.map_congr_left fun v hv => (h.left v hv).1
  rw [List.map_append, List.map_append, hasked, hown]

/-- Tags differ just if the mapping tells the branches apart. -/
theorem Tags.nodup_iff : ((asked ++ own).map (·.tag)).Nodup ↔ TellsApart mapping parts := by
  rw [h.eq_map, List.nodup_map_iff fun _ _ => Option.some.inj, List.nodup_append']
  constructor
  · rintro ⟨hkeys, -, hdisjoint⟩
    refine ⟨hkeys, fun t ht n hn hbranch => ?_⟩
    obtain ⟨v, hv, hv'⟩ := h.covers t ht
    obtain rfl := hbranch.eq hv'
    rcases List.mem_append.1 hv with hv | hv
    · obtain ⟨e, he, -, hmaps⟩ := mem_of_forall₂_right h.mapped hv
      exact ⟨e, he, hmaps⟩
    · exact absurd (List.mem_map_of_mem hv) (hdisjoint hn)
  · rintro ⟨hkeys, hbranches⟩
    refine ⟨hkeys, h.once, fun n hn hmem => ?_⟩
    obtain ⟨v, hv, rfl⟩ := List.mem_map.1 hmem
    obtain ⟨t, ht, hbranch⟩ := h.branch v (List.mem_append_right _ hv)
    obtain ⟨e, he, hmaps⟩ := hbranches t ht _ hn hbranch
    exact (h.left v hv).2 e he hmaps

/-- A tag is empty just if a key is. -/
theorem Tags.empty_mem_iff : some "" ∈ (asked ++ own).map (·.tag) ↔ "" ∈ keyTexts mapping := by
  rw [h.eq_map, List.mem_map_of_injective fun _ _ => Option.some.inj, List.mem_append]
  refine or_iff_left fun hmem => ?_
  obtain ⟨v, hv, hname⟩ := List.mem_map.1 hmem
  obtain ⟨t, -, r, -, hr⟩ := h.branch v (List.mem_append_right _ hv)
  exact Reference.ne_empty_of_schemaName hr hname

/-- Where tags differ, the variant of an entry is the only one with its tag. -/
theorem Tags.existsUnique (htags : TellsApart mapping parts) {e : Scalar × Tree} (he : e ∈ mapping) :
    ∃! v, v ∈ asked ++ own ∧ v.tag = some e.1.display := by
  obtain ⟨v, hv, htag, -⟩ := mem_of_forall₂_left h.mapped he
  have hv := List.mem_append_left own hv
  refine ⟨v, ⟨hv, htag⟩, fun w ⟨hw, hwtag⟩ => ?_⟩
  exact List.inj_on_of_nodup_map (h.nodup_iff.2 htags) hw hv (hwtag.trans htag.symm)

end

/-- Whatever has been compiled, a union with tags comes of a schema that was asked for, and has the variants
that the mapping and the branches of the schema ask for. Their tags differ just if the mapping tells the
branches apart, and none is empty just if no key is. -/
theorem tags_after {calls : List Call} {t : NamedType} (ht : t ∈ (after table calls).types)
    {d : Option String} {vs : List Variant} (hshape : t.shape = .tagged d vs) :
    ∃ n schema tagField mapping parts asked own,
      ((.text n, schema) ∈ table ∨ Call.compile n schema ∈ calls) ∧ Gave table n schema t ∧
      Discriminates schema tagField mapping parts ∧ vs = asked ++ own ∧
      Tags table t.name tagField mapping parts asked own ∧
      ((vs.map (·.tag)).Nodup ↔ TellsApart mapping parts) ∧
      (some "" ∉ vs.map (·.tag) ↔ "" ∉ keyTexts mapping) ∧
      (TellsApart mapping parts → ∀ e ∈ mapping, ∃! v, v ∈ vs ∧ v.tag = some e.1.display) := by
  have htraced : Traced table
      (fun n schema => (.text n, schema) ∈ table ∨ Call.compile n schema ∈ calls) (after table calls) :=
    traced_after (fun _ _ hmem _ => .inl hmem) fun call hcall => by
      cases call with
      | compile => exact .inr hcall
      | _ => trivial
  obtain ⟨n, schema, hasked, hgave, -⟩ := htraced.types t ht
  obtain ⟨follow, s, s', hrun⟩ := id hgave
  obtain ⟨es, m, hentries, hmakes, hm⟩ := makes_of_schemaType hrun
  obtain ⟨a, discriminator, hdiscriminator, htagged⟩ := hmakes.taggedUnion hm hshape
  obtain ⟨parts, mapping, asked, own, hparts, hmapping, rfl, htags⟩ := tags_of_taggedUnion htagged hshape
  exact ⟨n, schema, _, mapping, parts, asked, own, hasked, hgave,
    ⟨es, a, discriminator, hentries, hdiscriminator, rfl, hmapping, hparts⟩, rfl, htags, htags.nodup_iff,
    not_congr htags.empty_mem_iff, fun hapart _ => htags.existsUnique hapart⟩

/-- Cats and dogs, and pets, which are either, with a mapping. -/
def samplePets (mapping : List (String × String)) : Entries := [
  (.text "Cat", Tree.object [("type", .text "object")]),
  (.text "Dog", Tree.object [("type", .text "object")]),
  (.text "Pet", Tree.object [
    ("oneOf", Tree.array [Reference.asTree "#/components/schemas/Cat",
      Reference.asTree "#/components/schemas/Dog"]),
    ("discriminator", Tree.object [("propertyName", .text "kind"),
      ("mapping", Tree.object (mapping.map fun e => (e.1, .text e.2)))])])]

/-- The type of pets, with the tags of cats and dogs. -/
def samplePet (cat dog : String) : NamedType :=
  ⟨"Pet", "Pet", none, .tagged (some "kind")
    [⟨"Cat", some cat, "Cat", ⟨[], none⟩, none⟩, ⟨"Dog", some dog, "Dog", ⟨[], none⟩, none⟩]⟩

theorem tags_after_samplePets : ∃ n schema tagField mapping parts asked own,
    (.text n, schema) ∈ samplePets [("feline", "Cat")] ∧ Discriminates schema tagField mapping parts ∧
      Tags (samplePets [("feline", "Cat")]) "Pet" tagField mapping parts asked own ∧
        ([some "feline", some "Dog"].Nodup ↔ TellsApart mapping parts) := by
  have hpet : samplePet "feline" "Dog" ∈ (after (samplePets [("feline", "Cat")]) [.all]).types := by
    decide +kernel
  obtain ⟨n, schema, tagField, mapping, parts, asked, own, hmem | hmem, -, hschema, -, htags, hnodup, -⟩ :=
    tags_after hpet rfl
  · exact ⟨n, schema, tagField, mapping, parts, asked, own, hmem, hschema, htags, hnodup⟩
  · cases List.mem_singleton.1 hmem

/-- Both variants have one tag where the name of the one branch is a key for the other, and an empty key is an
empty tag. -/
theorem after_samplePets : samplePet "Dog" "Dog" ∈ (after (samplePets [("Dog", "Cat")]) [.all]).types ∧
    samplePet "" "Dog" ∈ (after (samplePets [("", "Cat")]) [.all]).types := by
  decide +kernel

end Compile

end ApiContract
