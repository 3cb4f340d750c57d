import ApiContract.Proofs.Compile.Origin
import ApiContract.Proofs.Naming.Restore
import ApiContract.Proofs.Text.Spelling

/-!
# Type names after naming

The names that naming makes up differ from all names of the table, but the names of types are made of these
only later, when words are put together again. So a made-up name may have the type name of another one, though
both are spelled alike then (`Collide`). Where the schemas that a description names have type names of their
own, nothing else makes two entries of the named table clash (`collide_of_typeNames`).
-/

namespace ApiContract.Naming

open Text (typeIdentifier spelling)

variable {t : Tree} {table : Entries}

/-- Two names of a named description that have one type name: one of them was made up, and they are spelled
alike. -/
structure Collide (o : Outcome) (a b : String) : Prop where
  ne : a ≠ b
  typeName : typeIdentifier a = typeIdentifier b
  created : a ∈ o.created ∨ b ∈ o.created
  spelling : spelling a = spelling b

theorem mem_schemaKeys {k : Scalar} (h : Compilation.schemaTable t = .ok table) (hk : k ∈ table.keys) :
    k ∈ schemaKeys t := by
  rcases schemaTable_eq_ok h with rfl | ⟨a, hschemas⟩
  · cases hk
  · rwa [schemaKeys, hschemas]

/-- Whatever has been compiled of a named description: entries of its table clash over a type name only if one
of the two names was made up and they are spelled alike, provided the schemas that the description itself
names have type names of their own. -/
theorem collide_of_typeNames (hp : Tree.Plain t) (h : (nameSchemas t).result = .ok ())
    (ht : Compilation.schemaTable (nameSchemas t).document = .ok table)
    (hseparate : ∀ a b, .text a ∈ schemaKeys t → .text b ∈ schemaKeys t →
      typeIdentifier a = typeIdentifier b → a = b) :
    (∀ a b, .text a ∈ table.keys → .text b ∈ table.keys → typeIdentifier a = typeIdentifier b → a ≠ b →
      Collide (nameSchemas t) a b) ∧
    ∀ (calls : List Compile.Call) (call : Compile.Call), (∀ c ∈ calls, c.Direct table) → call.Direct table →
      ∀ a b n, (call.run table (Compile.after table calls)).1 = .error (.typeNameClash a b n) →
        Collide (nameSchemas t) a b ∧ typeIdentifier a = n := by
  obtain ⟨s, he⟩ := ends_nameSchemas hp h
  have hkeys := he.schemaKeys hp
  have hcollide : ∀ a b, .text a ∈ table.keys → .text b ∈ table.keys →
      typeIdentifier a = typeIdentifier b → a ≠ b → Collide (nameSchemas t) a b := by
    intro a b ha hb htype hne
    -- A name of the table that was not made up is one of the description's own.
    have hold : ∀ c, .text c ∈ table.keys → c ∉ (nameSchemas t).created → .text c ∈ schemaKeys t := by
      intro c hc hnot
      have hmem := mem_schemaKeys ht hc
      rw [hkeys] at hmem
      exact (List.mem_append.1 hmem).resolve_right fun hmem => hnot (by simpa using hmem)
    refine ⟨hne, htype, ?_, Text.spelling_eq_of_typeIdentifier htype⟩
    by_contra hcreated
    obtain ⟨hna, hnb⟩ := not_or.1 hcreated
    exact hne (hseparate a b (hold a ha hna) (hold b hb hnb) htype)
  refine ⟨hcollide, fun calls call hcalls hcall a b n herror => ?_⟩
  have hnodup : (table.map (·.1)).Nodup := (Tree.plain_map.1 (he.entry hp ht).1).2.1.nodup
  have htraced := Compile.traced_direct hnodup hcalls
  have hasks : call.Asks (Compile.IsEntry table) := by cases call <;> exact hcall
  have hrun := Compile.Call.traces (fun _ _ => Compile.isEntry_of_mem hnodup) hasks _ htraced
  obtain ⟨hne, rfl, htype, ⟨u, hu⟩, v, hv⟩ := hrun.accounted _ herror
  have hmem : ∀ {c u}, Compile.IsEntry table c u → .text c ∈ table.keys := fun h =>
    List.mem_map_of_mem (Entries.mem_of_at? h.found)
  exact ⟨hcollide a b (hmem hu) (hmem hv) htype.symm hne, rfl⟩

/-- An object schema with a property that is one too, and a name that is spelled like the property's. -/
def sampleSpelled : Tree :=
  Tree.object [("components", Tree.object [("schemas", Tree.object [
    ("Foo", Tree.object [("type", .text "object"), ("properties", Tree.object [
      ("bar", Tree.object [("type", .text "object"), ("properties", Tree.object [
        ("a", Tree.object [("type", .text "string")])])])])]),
    ("foo_bar", Tree.object [("type", .text "object"), ("properties", Tree.object [
      ("b", Tree.object [("type", .text "string")])])])])])]

/-- The table of its schemas when they have been named. -/
def sampleSpelledTable : Entries := tableOf (nameSchemas sampleSpelled).document

theorem collide_sampleSpelled : Collide (nameSchemas sampleSpelled) "FooBar" "foo_bar" := by
  have hp : Tree.Plain sampleSpelled := by simp [sampleSpelled, Scalar.anchor]
  have hkeys : schemaKeys sampleSpelled = [.text "Foo", .text "foo_bar"] := by decide +kernel
  have hne : typeIdentifier "Foo" ≠ typeIdentifier "foo_bar" := by decide +kernel
  have hseparate : ∀ a b, .text a ∈ schemaKeys sampleSpelled → .text b ∈ schemaKeys sampleSpelled →
      typeIdentifier a = typeIdentifier b → a = b := by
    rw [hkeys]
    simp only [List.mem_cons, List.not_mem_nil, or_false, Scalar.text.injEq]
    rintro a b (rfl | rfl) (rfl | rfl) h
    · rfl
    · exact absurd h hne
    · exact absurd h.symm hne
    · rfl
  have ht : Compilation.schemaTable (nameSchemas sampleSpelled).document = .ok sampleSpelledTable :=
    eq_ok_of_toOption (by decide +kernel)
  have hcollide := (collide_of_typeNames hp (eq_ok_of_toOption (by decide +kernel)) ht hseparate).2 [] .all
    (List.forall_mem_nil _) trivial
  exact (hcollide "FooBar" "foo_bar" "FooBar" (by decide +kernel)).1

/-- The schemas of `Foo` and `foo_bar` have type names of their own, but the name that naming makes up for the
property takes the second one. -/
theorem typeNameClash_sampleSpelled : schemaKeys sampleSpelled = [.text "Foo", .text "foo_bar"] ∧
    typeIdentifier "Foo" ≠ typeIdentifier "foo_bar" ∧ (nameSchemas sampleSpelled).result = .ok () ∧
      Compilation.schemaTable (nameSchemas sampleSpelled).document = .ok sampleSpelledTable ∧
        (Compile.all sampleSpelledTable .start).1 =
          .error (.typeNameClash "FooBar" "foo_bar" "FooBar") := by
  refine ⟨by decide +kernel, by decide +kernel, eq_ok_of_toOption (by decide +kernel),
    eq_ok_of_toOption (by decide +kernel), by decide +kernel⟩

end ApiContract.Naming
