import ApiContract.Proofs.Compile.Type
import ApiContract.Proofs.Naming.Outcome

/-!
# Compiling a named description

* `Tidy.all`: compiling the table of a description that has been named never meets a schema that stands
  inline and should have got a name.
-/

namespace ApiContract.Compile

open Tree Naming

variable {I : List NamedType → Prop} {table : Entries}

/-- The type is what compiling an entry of the table gave. -/
def Made (table : Entries) (type : NamedType) : Prop :=
  ∃ name schemaName typeOf tree, ∃ s s' : State, table.get? schemaName = some tree ∧
    schemaType table typeOf name schemaName tree s = (.ok (some type), s')

theorem keeps_claim (name schemaName : String) : Keeps I (claim name schemaName) := by
  refine Keeps.get_bind fun t => ?_
  split
  · exact keeps_modify fun _ => rfl
  · split
    · exact keeps_throw rfl
    · exact keeps_pure _

section

variable (ht : Tidy table) (hI : ∀ types type, Made table type → I types → I (types ++ [type]))
include ht hI

/-! ## Following references -/

/-- A schema that compiles to no named type has a type expression, or that is known already. -/
theorem ends_named {path : List String} {name : String} {schema : Tree}
    {follow : Text.typeIdentifier name ∉ path → String → Run TypeExpr} {s : State}
    (hs : Proper schema) (hname : table.get? name = some schema) (hf : ∀ h r, Keeps I (follow h r))
    (hi : I s.types) : Ends (named table path name schema follow) s fun r s' => I s'.types ∧
      (r = none → (s'.inlines.lookup name).isSome = true ∨
        ∃ a es, schema = .map a es ∧ HasExpression es) := by
  unfold named
  dsimp only
  refine (ends_get (P := fun t s' => t = s' ∧ I s'.types) ⟨rfl, hi⟩).bind ?_
  rintro _ s ⟨rfl, hi⟩
  split
  · exact ((keeps_claim _ _).ends hi).bind fun _ _ hi' => ends_pure ⟨hi', nofun⟩
  · split
    · exact ends_pure ⟨hi, fun _ => .inl ‹_›⟩
    · split
      · exact ends_throw rfl
      · refine (ends_schemaType (fun t => keeps_typeWith (hf _) t) ht hs hi).run_eq.bind fun r s' hr => ?_
        obtain ⟨⟨hi', hr⟩, hrun⟩ := hr
        split
        · exact ends_pure ⟨hi', fun _ => .inr (hr rfl)⟩
        · have hmade : Made table _ := ⟨_, _, _, _, _, _, hname, hrun⟩
          refine ((keeps_claim _ _).ends hi').bind fun _ _ hi'' => ?_
          exact (ends_modify (P := fun _ s' => I s'.types) (hI _ _ hmade hi'')).bind
            fun _ _ hi' => ends_pure ⟨hi', nofun⟩

theorem Tidy.typeOfReference (path : Path) (reference : String) :
    Keeps I (typeOfReference table path reference) := by
  rw [Compile.typeOfReference]
  refine Keeps.lift_bind (ht.find reference) fun found hfound s hi => ?_
  refine (ends_named ht hI hfound found.found (fun h r =>
    Tidy.typeOfReference ⟨path.types ++ [Text.typeIdentifier found.name], path.inlines⟩ r) hi).bind
    fun type s' htype => ?_
  obtain ⟨hi', htype⟩ := htype
  split
  · exact ends_pure hi'
  · rename_i hnone
    refine (ends_get (P := fun t s => t = s' ∧ s = s') ⟨rfl, rfl⟩).bind ?_
    rintro _ _ ⟨rfl, rfl⟩
    split
    · exact ends_pure hi'
    · rename_i hlookup
      split
      · exact ends_throw rfl
      · rename_i hmem
        obtain ⟨a, es, hschema, hes⟩ : ∃ a es, found.schema = .map a es ∧ HasExpression es :=
          (htype (by simpa using hnone)).resolve_left fun h => by
            obtain ⟨type, hfound⟩ := Option.isSome_iff_exists.1 h
            exact hlookup type hfound
        rw [hschema] at hfound ⊢
        refine ((hfound.keeps_typeWith (fun r => Tidy.typeOfReference
          ⟨path.types, path.inlines ++ [found.name]⟩ r) hes).ends hi').bind fun type _ hi'' => ?_
        exact (keeps_modify fun _ => rfl).bind (fun _ => keeps_pure _) _ hi''
termination_by unvisited (typeNames table) path.types + unvisited (names table) path.inlines
decreasing_by
  · have := unvisited_append_lt (mem_typeNames found.found) ‹_›
    omega
  · have := unvisited_append_lt (mem_names found.found) ‹_›
    omega

/-! ## The table -/

theorem Tidy.entry {name : String} {schema : Tree} (hs : Proper schema)
    (hname : table.get? name = some schema) : Keeps I (entry table name schema) := fun _ hi =>
  (ends_named ht hI hs hname (fun _ r => ht.typeOfReference hI ⟨[Text.typeIdentifier name], []⟩ r) hi).mono
    fun _ _ h => h.1

theorem Tidy.entries : ∀ {es : Entries}, (∀ e ∈ es, Prepared .own e.2 ∧ table.at? e.1 = some e.2) →
    Keeps I (entries table es)
  | [], _ => keeps_pure _
  | (key, schema) :: es, h => by
    obtain ⟨⟨hs, hname⟩, hes⟩ := List.forall_mem_cons.1 h
    rw [Compile.entries.eq_def]
    dsimp only
    split
    · rename_i hr
      split
      · refine (ht.entry hI ⟨hs, ?_⟩ hname).bind fun _ => Tidy.entries hes
        simpa [Reference.isReference] using hr
      · exact keeps_throw rfl
    · exact Tidy.entries hes

/-- Compiling a table in whose schemas nothing that needs a name stands inline. -/
theorem Tidy.all (hp : Plain (.map none table)) {s : State} (hi : I s.types) :
    Ends (all table) s fun types _ => I types := by
  have hentries : Keeps I (Compile.entries table table) :=
    ht.entries hI fun e he => ⟨ht e he, Entries.at?_of_mem (plain_map.1 hp).2.1.nodup he⟩
  refine (hentries.ends hi).bind fun _ s' hi' => ?_
  exact (ends_get (P := fun t _ => I t.types) hi').bind fun _ _ hi => ends_pure hi

end

/-- After naming, nothing that needs a name stands inline in a schema of the table, and compiling the
table never ends with a failure about an inline schema. -/
theorem compile_nameSchemas {t : Tree} {table : Entries} (hp : Plain t)
    (h : (nameSchemas t).result = .ok ())
    (ht : Compilation.schemaTable (nameSchemas t).document = .ok table) :
    (∀ e ∈ table, Prepared .own e.2) ∧
      ∀ s f, Failure.isInlineSchema f = true → (Compile.all table s).1 ≠ .error f := by
  have htidy : Tidy table := prepared_schemaTable hp h ht
  refine ⟨htidy, fun s f hf heq => ?_⟩
  have hends := htidy.all (I := fun _ => True) (fun _ _ _ h => h) (plain_schemaTable hp h ht) (s := s) trivial
  rw [Ends, heq] at hends
  cases hf.symm.trans hends

/-- A description with an enumeration and a union inline. -/
def sampleInline : Tree :=
  Tree.object [("components", Tree.object [("schemas", Tree.object [
    ("Pet", Tree.object [
      ("type", .text "object"),
      ("properties", Tree.object [
        ("kind", Tree.object [("type", .text "string"), ("enum", Tree.array [.text "cat"])]),
        ("toys", Tree.object [
          ("type", .text "array"),
          ("items", Tree.object [("oneOf", Tree.array [])])])])])])])]

/-- The table of schemas that naming makes of it. -/
def sampleTable : Entries := [
  (.text "Pet", Tree.object [
    ("type", .text "object"),
    ("properties", Tree.object [
      ("kind", Reference.asTree "#/components/schemas/PetKind"),
      ("toys", Tree.object [
        ("type", .text "array"),
        ("items", Reference.asTree "#/components/schemas/PetToysItem")])])]),
  (.text "PetKind", Tree.object [("type", .text "string"), ("enum", Tree.array [.text "cat"])]),
  (.text "PetToysItem", Tree.object [("oneOf", Tree.array [])])]

theorem compile_sampleInline :
    Compilation.schemaTable (nameSchemas sampleInline).document = .ok sampleTable ∧
      (∀ e ∈ sampleTable, Prepared .own e.2) ∧
        ∀ s f, Failure.isInlineSchema f = true → (Compile.all sampleTable s).1 ≠ .error f := by
  have ht : Compilation.schemaTable (nameSchemas sampleInline).document = .ok sampleTable :=
    eq_ok_of_toOption (by decide +kernel)
  exact ⟨ht, compile_nameSchemas (by simp [sampleInline, Tree.array, Scalar.anchor])
    (eq_ok_of_toOption (by decide +kernel)) ht⟩

end ApiContract.Compile
