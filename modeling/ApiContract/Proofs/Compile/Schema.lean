import ApiContract.Proofs.Compile.Reading
import ApiContract.Proofs.Naming.Relation

/-!
# Schemas after naming

What the compiler meets in a table in whose schemas nothing that needs a name stands inline (`Tidy`).
A schema without a named type has a type expression (`HasExpression`), the parts of compositions are
objects whose properties are prepared (`Leaf`), and reading any of them fails for no reason that has to
do with names.

* `keeps_typeWith`: what stands inline has a type expression.
-/

namespace ApiContract.Compile

open Tree Naming

/-! ## Looking up schemas -/

/-- Nothing that needs a name stands inline in the schemas of a table. -/
def Tidy (table : Entries) : Prop := ∀ e ∈ table, Prepared .own e.2

/-- A schema of the table that is no reference. -/
def Proper (t : Tree) : Prop := Prepared .own t ∧ Reference.ofTree? t = none

variable {I : List NamedType → Prop} {table es : Entries} {t : Tree}

theorem Tidy.find (ht : Tidy table) (reference : String) :
    Fits (find table reference) fun found => Proper found.schema := by
  refine (local_schemaName reference).fits.bind fun name _ => ?_
  split
  · rfl
  · rfl
  · rename_i schema _ hget
    split
    · rfl
    · rename_i href
      exact ⟨ht _ (Entries.mem_of_at? hget), href⟩

/-! ## Type expressions -/

/-- A schema without a named type, whose type expression can be told. -/
def HasExpression (es : Entries) : Prop :=
  match Schema.kind es with
  | .ok .object => (es.orNull "properties").truthy = false
  | .ok .array => True
  | .ok .any => Schema.isTrivial es = .ok true
  | .ok .string | .ok .number | .ok .integer | .ok .boolean => (Schema.literals es).isEmpty = true
  | _ => False

/-- What needs no name has a type expression. -/
theorem hasExpression_of_not_needsName {kind : SchemaKind} (hf : Fair es kind)
    (hn : needsName es = false) : HasExpression es := by
  have hany := hf.trivial
  have hnot := hf.ne_not
  unfold needsName at hn
  unfold HasExpression
  rw [hf.kind] at hn ⊢
  cases kind <;> simp_all

/-- The object that is a part of a composition. -/
structure Leaf (es : Entries) : Prop where
  properties : ∀ x, es.get? "properties" = some x → Prepared .properties x
  additional : ∀ x, es.get? "additionalProperties" = some x → Prepared .inline x

/-- What is known of a schema that stands under a name or in a composition. -/
theorem Proper.fair {a : Anchor} (h : Proper (.map a es)) :
    ∃ kind, Fair es kind ∧ ∀ e ∈ es, Prepared (Stand.within kind e.1) e.2 := by
  obtain ⟨hp, hr⟩ := h
  cases hp with
  | skip hs =>
    rw [Stand.skips, Reference.isReference, hr] at hs
    cases hs
  | map hst hes =>
    obtain ⟨kind, hf⟩ := hst
    refine ⟨kind, hf, fun e he => ?_⟩
    have hpart := hes e he
    rwa [Stand.part, hf.kind] at hpart

theorem Proper.leaf {a : Anchor} (h : Proper (.map a es)) (hkind : Schema.kind es = .ok .object) :
    Leaf es := by
  obtain ⟨kind, hf, hes⟩ := h.fair
  cases hf.kind.symm.trans hkind
  exact ⟨fun x hx => hes _ (Entries.mem_of_at? hx), fun x hx => hes _ (Entries.mem_of_at? hx)⟩

theorem keeps_additionalType {additional : Option (Tree × Run TypeExpr)}
    (h : ∀ p, additional = some p → Keeps I p.2) : Keeps I (additionalType additional) := by
  unfold additionalType
  split
  · exact keeps_pure _
  · exact keeps_pure _
  · exact keeps_pure _
  · exact keeps_pure _
  · exact (h _ rfl).map

/-- The type expression of a schema without a named type, whose parts have one. -/
theorem keeps_inlineSchema {tree : Tree} {children : List (Scalar × Tree × Run TypeExpr)}
    (hes : HasExpression es)
    (hadd : Schema.kind es = .ok .object → ∀ p,
      children.lookup (.text "additionalProperties") = some p → Keeps I p.2)
    (hitems : Schema.kind es = .ok .array → ∀ p, children.lookup (.text "items") = some p → Keeps I p.2) :
    Keeps I (inlineSchema es tree children) := by
  unfold HasExpression at hes
  unfold inlineSchema
  cases hkind : Schema.kind es with
  | error f => rw [hkind] at hes; exact hes.elim
  | ok kind =>
    rw [hkind] at hes hadd hitems
    refine Keeps.lift_bind (P := fun k => kind = k) rfl ?_
    rintro _ rfl
    cases kind with
    | string | number | integer | boolean =>
      dsimp only at hes ⊢
      rw [hes]
      exact keeps_lift (local_scalarType _ _ _).fits
    | object =>
      dsimp only at hes ⊢
      rw [hes]
      refine (keeps_additionalType (hadd rfl)).bind fun value => ?_
      split <;> exact keeps_pure _
    | array =>
      dsimp only
      split
      · rename_i hp
        exact (hitems rfl _ hp).bind fun _ => keeps_pure _
      · exact keeps_pure _
    | any =>
      dsimp only at hes ⊢
      rw [hes]
      exact keeps_pure _
    | _ => exact hes.elim

theorem typeWith_map {σ : Type} (follow : String → RunOn σ TypeExpr) (a : Anchor) (es : Entries) :
    typeWith follow (.map a es) =
      match Reference.ofEntries? es with
      | some reference => follow reference
      | none => inlineSchema es (.map a es) (es.map fun e => (e.1, e.2, typeWith follow e.2)) := by
  cases h : Reference.ofEntries? es with
  | none =>
    simp only [typeWith, para, paraEntries_eq, List.map_map, Function.comp_def, List.map_id', h]
  | some reference =>
    simp only [typeWith, para, paraEntries_eq, List.map_map, Function.comp_def, List.map_id', h]

section

variable {follow : String → Run TypeExpr} (hf : ∀ r, Keeps I (follow r))
include hf

theorem keeps_typeWith_map {a : Anchor} {kind : SchemaKind} (hkind : Schema.kind es = .ok kind)
    (hes : HasExpression es)
    (hparts : ∀ e ∈ es, Stand.within kind e.1 = .inline → Keeps I (typeWith follow e.2)) :
    Keeps I (typeWith follow (.map a es)) := by
  have hpart : ∀ key, Stand.within kind (.text key) = .inline → ∀ p,
      (es.map fun e => (e.1, e.2, typeWith follow e.2)).lookup (.text key) = some p → Keeps I p.2 := by
    intro key hkey p hp
    rw [Entries.lookup_children] at hp
    obtain ⟨x, hx, rfl⟩ := Option.map_eq_some_iff.1 hp
    exact hparts _ (Entries.mem_of_at? hx) hkey
  rw [typeWith_map]
  split
  · exact hf _
  · refine keeps_inlineSchema hes (fun h => hpart _ ?_) (fun h => hpart _ ?_)
    · cases hkind.symm.trans h
      rfl
    · cases hkind.symm.trans h
      rfl

/-- What stands inline has a type expression. -/
theorem keeps_typeWith (t : Tree) : Prepared .inline t → Keeps I (typeWith follow t) := by
  induction t using Tree.induct with
  | map a es ih =>
    intro h
    cases h with
    | skip hs =>
      obtain ⟨r, hr⟩ := Option.isSome_iff_exists.1
        (show (Reference.ofEntries? es).isSome = true from by simpa [Stand.skips, Tree.isMap,
          Tree.entries?, Reference.isReference, Reference.ofTree?] using hs)
      rw [typeWith_map, hr]
      exact hf r
    | map hst hes =>
      obtain ⟨⟨kind, hfair⟩, hn⟩ := hst
      refine keeps_typeWith_map hf hfair.kind (hasExpression_of_not_needsName hfair hn)
        fun e he hpart => ih e he ?_
      have hp := hes e he
      simp only [Stand.part, hfair.kind, hpart] at hp
      exact hp
  | _ => exact fun _ => keeps_throw rfl

/-- A schema without a named type has a type expression. -/
theorem Proper.keeps_typeWith {a : Anchor} (h : Proper (.map a es)) (hes : HasExpression es) :
    Keeps I (typeWith follow (.map a es)) := by
  obtain ⟨kind, hfair, hparts⟩ := h.fair
  exact keeps_typeWith_map hf hfair.kind hes fun e he hpart =>
    Compile.keeps_typeWith hf e.2 (hpart ▸ hparts e he)

end

end ApiContract.Compile
