import ApiContract.Proofs.Compile.Order
import ApiContract.Proofs.Models
import Mathlib.Logic.Relation

/-!
# Dependencies of compiled types

In types in order, what a type mentions stands before it (`NamedType.Ordered.before`), so that its
dependencies stand at lower positions (`NamedType.Ordered.idxOf_lt`) and no type depends on itself. The
types that a table compiles to are in order, and they are accepted as models unless a union is empty
(`Compile.all_ordered`).
-/

namespace ApiContract

variable {types : List NamedType}

theorem TypeExpr.target?_of_name? {e : TypeExpr} {n : String} (h : e.name? = some n) :
    e.target? = some n := by
  induction e with
  | primitive p format nullable => cases h
  | array item unique nullable ih => exact ih h
  | map value nullable ih => exact ih h
  | named name nullable =>
    replace h : name = some n := h
    rw [h]
    rfl

namespace NamedType

/-- What a type depends on is mentioned in one of its records. -/
theorem mem_dependencies {t : NamedType} {n : String} :
    n ∈ t.dependencies ↔ ∃ b ∈ t.bodies, ∃ e ∈ b.types, e.name? = some n := by
  unfold dependencies bodies
  rw [List.mem_eraseDups, List.mem_filterMap]
  cases t.shape with
  | record b => simp
  | tagged d vs | untagged vs =>
    simp only [List.mem_flatMap, List.mem_map]
    constructor
    · rintro ⟨e, ⟨v, hv, he⟩, hname⟩
      exact ⟨v.body, ⟨v, hv, rfl⟩, e, he, hname⟩
    · rintro ⟨b, ⟨v, hv, rfl⟩, e, he, hname⟩
      exact ⟨e, ⟨v, hv, he⟩, hname⟩
  | enumeration ms => simp

/-- The type of one name mentions the other name. -/
def DependsOn (types : List NamedType) (n m : String) : Prop :=
  ∃ t ∈ types, t.name = n ∧ m ∈ t.dependencies

theorem Sound.mem {t : NamedType} (h : t.Sound types) {n : String} (hn : n ∈ t.dependencies) :
    n ∈ types.map (·.name) := by
  obtain ⟨b, hb, e, he, hname⟩ := mem_dependencies.1 hn
  exact (h.bodies b hb).known e he n (TypeExpr.target?_of_name? hname)

/-- What a type depends on stands before it. -/
theorem Ordered.before (h : Ordered types) {before after : List NamedType} {t : NamedType}
    (hsplit : types = before ++ t :: after) : ∀ n ∈ t.dependencies, n ∈ before.map (·.name) := by
  induction h generalizing after with
  | nil =>
    have hmem : t ∈ ([] : List NamedType) := hsplit ▸ List.mem_append_right _ List.mem_cons_self
    exact absurd hmem List.not_mem_nil
  | @snoc types u hordered hsound hfree ih =>
    rcases List.eq_nil_or_concat after with rfl | ⟨after, w, rfl⟩
    · obtain ⟨rfl, hlast⟩ := List.append_inj' hsplit rfl
      cases hlast
      exact fun n hn => hsound.mem hn
    · have hassoc : before ++ t :: (after ++ [w]) = (before ++ t :: after) ++ [w] := by simp
      rw [List.concat_eq_append, hassoc] at hsplit
      exact ih (List.append_inj' hsplit rfl).1

/-- Dependencies stand at lower positions. -/
theorem Ordered.idxOf_lt (h : Ordered types) {n m : String} (hdep : DependsOn types n m) :
    (types.map (·.name)).idxOf m < (types.map (·.name)).idxOf n := by
  obtain ⟨t, ht, rfl, hm⟩ := hdep
  have hnodup := h.nodup
  obtain ⟨before, after, rfl⟩ := List.append_of_mem ht
  have hbefore : m ∈ before.map (·.name) := h.before rfl m hm
  rw [List.map_append, List.map_cons] at hnodup ⊢
  have hfree : t.name ∉ before.map (·.name) := fun hmem =>
    List.disjoint_of_nodup_append hnodup hmem List.mem_cons_self
  rw [List.idxOf_append_of_mem hbefore, List.idxOf_append_of_notMem hfree, List.idxOf_cons_self]
  have hlt := List.idxOf_lt_length_of_mem hbefore
  omega

/-- Along dependencies no type is met again. -/
theorem Ordered.acyclic (h : Ordered types) (n : String) :
    ¬ Relation.TransGen (DependsOn types) n n := by
  have hlt : ∀ m, Relation.TransGen (DependsOn types) n m →
      (types.map (·.name)).idxOf m < (types.map (·.name)).idxOf n := by
    intro m hm
    induction hm with
    | single hdep => exact h.idxOf_lt hdep
    | tail _ hdep ih => exact (h.idxOf_lt hdep).trans ih
  exact fun hn => Nat.lt_irrefl _ (hlt n hn)

end NamedType

namespace Compile

open NamedType (DependsOn)

/-- The types that a table compiles to have names of their own, and each stands behind those that it
depends on; so none depends on itself, and as models none is unknown where it is mentioned or defined
twice. -/
theorem all_ordered {table : Entries} {s : State} (h : all table .start = (.ok types, s)) :
    (types.map (·.name)).Nodup ∧
      (∀ before t after, types = before ++ t :: after →
        ∀ n ∈ t.dependencies, n ∈ before.map (·.name)) ∧
      (∀ n, ¬ Relation.TransGen (DependsOn types) n n) ∧
      ∀ n, Models.ofTypes types ≠ .error (.unknownTypeName n) ∧
        Models.ofTypes types ≠ .error (.typeDefinedTwice n) := by
  obtain ⟨hgood, rfl, -⟩ := all_run h
  have hordered := hgood.ordered
  refine ⟨hordered.nodup, fun _ _ _ hsplit => hordered.before hsplit, hordered.acyclic, fun n => ⟨?_, ?_⟩⟩
  · intro herror
    obtain ⟨u, hu⟩ := Models.error_of_ofTypes hordered herror
    cases hu
  · intro herror
    obtain ⟨u, hu⟩ := Models.error_of_ofTypes hordered herror
    cases hu

/-- A record that mentions a record compiled after it is met, a union of both, and a list of maps
without a type of its own. -/
def sampleGraph : Entries := [
  (.text "Owner", Tree.object [
    ("type", .text "object"),
    ("properties", Tree.object [("pets", Reference.asTree "#/components/schemas/Pets")])]),
  (.text "Pets", Tree.object [
    ("type", .text "array"),
    ("items", Tree.object [
      ("type", .text "object"),
      ("additionalProperties", Reference.asTree "#/components/schemas/Pet")])]),
  (.text "Pet", Tree.object [
    ("type", .text "object"),
    ("properties", Tree.object [
      ("kind", Tree.object [("type", .text "string")]),
      ("color", Reference.asTree "#/components/schemas/Color")])]),
  (.text "Color", Tree.object [("type", .text "string"), ("enum", Tree.array [.text "red"])]),
  (.text "Thing", Tree.object [
    ("oneOf", Tree.array [
      Reference.asTree "#/components/schemas/Pet", Reference.asTree "#/components/schemas/Owner"]),
    ("discriminator", Tree.object [("propertyName", .text "kind")])])]

/-- The types of the table with what they depend on. -/
theorem all_ordered_sampleGraph : ∃ types s, all sampleGraph .start = (.ok types, s) ∧
    types.map (fun t => (t.name, t.dependencies)) =
      [("Color", []), ("Pet", ["Color"]), ("Owner", ["Pet"]), ("Thing", ["Color", "Pet"])] ∧
    (types.map (·.name)).Nodup ∧
      (∀ before t after, types = before ++ t :: after →
        ∀ n ∈ t.dependencies, n ∈ before.map (·.name)) ∧
      (∀ n, ¬ Relation.TransGen (DependsOn types) n n) ∧
      ∀ n, Models.ofTypes types ≠ .error (.unknownTypeName n) ∧
        Models.ofTypes types ≠ .error (.typeDefinedTwice n) := by
  have hrun : (all sampleGraph .start).1.toOption.map (fun types =>
      types.map fun t => (t.name, t.dependencies)) =
        some [("Color", []), ("Pet", ["Color"]), ("Owner", ["Pet"]), ("Thing", ["Color", "Pet"])] := by
    decide +kernel
  obtain ⟨types, htypes, hfacts⟩ := Option.map_eq_some_iff.1 hrun
  have hok := eq_ok_of_toOption_fst htypes
  exact ⟨types, _, hok, hfacts, all_ordered hok⟩

end Compile

end ApiContract
