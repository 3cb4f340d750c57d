import ApiContract.Proofs.Compile.Outcome
import ApiContract.Proofs.Compile.Schema
import ApiContract.Proofs.Compile.Sound

/-!
# How types come about

The compiler only adds types, each behind those that it mentions (`Adds`), and none where there is one for
every schema (`Grows`). So the type expression of a schema mentions types that have been compiled
(`typed_typeWith`).
-/

namespace ApiContract.Compile

open NamedType (Ordered)

/-- The compiler makes no named type of a schema, whatever has been compiled before. -/
def Nameless (table : Entries) (tree : Tree) : Prop :=
  ∀ typeOf name schemaName (s : State), schemaType table typeOf name schemaName tree s = (.ok none, s)

/-- The types are in order; the schemas without a type have a type expression that is known. -/
structure Good (table : Entries) (s : State) : Prop where
  ordered : Ordered s.types
  known : ∀ e ∈ s.inlines, e.2.Known s.types
  nameless : ∀ e ∈ s.inlines, ∀ tree, table.get? e.1 = some tree → Nameless table tree

/-- Every schema of the table has a type if it makes one. -/
def Complete (table : Entries) (types : List NamedType) : Prop :=
  ∀ n tree, table.get? n = some tree → Reference.ofTree? tree = none →
    Text.typeIdentifier n ∈ types.map (·.name) ∨ Nameless table tree

/-- What a run does to the state: it adds types, of other names than those on the path. -/
structure Adds (table : Entries) (path : List String) (s s' : State) : Prop where
  good : Good table s'
  added : ∃ new, s'.types = s.types ++ new ∧ ∀ t ∈ new, t.name ∉ path

/-- A run that adds no types if there is one for every schema. -/
structure Grows (table : Entries) (path : List String) (s s' : State) : Prop
    extends Adds table path s s' where
  complete : Complete table s.types → s'.types = s.types

variable {table : Entries} {path : List String} {s s' s'' : State}

theorem Adds.of_eq (h : Good table s) (htypes : s'.types = s.types) (hinlines : s'.inlines = s.inlines) :
    Adds table path s s' := by
  refine ⟨⟨?_, ?_, ?_⟩, [], by rw [htypes, List.append_nil], fun _ ht => absurd ht List.not_mem_nil⟩
  · rw [htypes]
    exact h.ordered
  · rw [htypes, hinlines]
    exact h.known
  · rw [hinlines]
    exact h.nameless

theorem Grows.of_eq (h : Good table s) (htypes : s'.types = s.types) (hinlines : s'.inlines = s.inlines) :
    Grows table path s s' :=
  ⟨.of_eq h htypes hinlines, fun _ => htypes⟩

theorem Grows.refl (h : Good table s) : Grows table path s s := .of_eq h rfl rfl

theorem Adds.trans (h : Adds table path s s') (h' : Adds table path s' s'') :
    Adds table path s s'' := by
  obtain ⟨new, hnew, hpath⟩ := h.added
  obtain ⟨new', hnew', hpath'⟩ := h'.added
  refine ⟨h'.good, new ++ new', by rw [hnew', hnew, List.append_assoc], fun t ht => ?_⟩
  exact (List.mem_append.1 ht).elim (hpath t) (hpath' t)

theorem Grows.trans (h : Grows table path s s') (h' : Grows table path s' s'') :
    Grows table path s s'' := by
  refine ⟨h.toAdds.trans h'.toAdds, fun hc => ?_⟩
  have hsame := h.complete hc
  rw [h'.complete (hsame ▸ hc), hsame]

theorem Adds.weaken {path' : List String} (h : Adds table (path ++ path') s s') :
    Adds table path s s' := by
  obtain ⟨new, hnew, hpath⟩ := h.added
  exact ⟨h.good, new, hnew, fun t ht hmem => hpath t ht (List.mem_append_left _ hmem)⟩

theorem Adds.mem {n : String} (h : Adds table path s s') (hn : n ∈ s.types.map (·.name)) :
    n ∈ s'.types.map (·.name) := by
  obtain ⟨new, hnew, -⟩ := h.added
  rw [hnew, List.map_append]
  exact List.mem_append_left _ hn

theorem Adds.known {e : TypeExpr} (h : Adds table path s s') (he : e.Known s.types) :
    e.Known s'.types :=
  fun n hn => h.mem (he n hn)

theorem Adds.body {b : Body} (h : Adds table path s s') (hb : b.Sound s.types) :
    b.Sound s'.types := by
  obtain ⟨new, hnew, -⟩ := h.added
  exact hnew ▸ hb.append

theorem Adds.sound {t : NamedType} (h : Adds table path s s') (ht : t.Sound s.types) :
    t.Sound s'.types := by
  obtain ⟨new, hnew, -⟩ := h.added
  exact hnew ▸ ht.append

/-! ## Type expressions -/

/-- A run that gives a type expression that is known. -/
def Typed (table : Entries) (path : List String) (m : Run TypeExpr) : Prop :=
  ∀ ⦃s e s'⦄, Good table s → m s = (.ok e, s') → Grows table path s s' ∧ e.Known s'.types

theorem Typed.map {m : Run TypeExpr} {f : TypeExpr → Option TypeExpr} {r : Option TypeExpr}
    (h : Typed table path m) (hs : Good table s) (hrun : (f <$> m) s = (.ok r, s')) :
    ∃ e, Grows table path s s' ∧ e.Known s'.types ∧ r = f e := by
  rw [map_eq_pure_bind] at hrun
  obtain ⟨e, _, he, hrun⟩ := bind_eq_ok.1 hrun
  obtain ⟨rfl, rfl⟩ := pure_eq_ok.1 hrun
  obtain ⟨hgrows, hknown⟩ := h hs he
  exact ⟨e, hgrows, hknown, rfl⟩

theorem typed_throw {f : Failure} : Typed table path (throw f) := by
  intro s e s' _ h
  cases h

theorem grows_additionalType {additional : Option (Tree × Run TypeExpr)} {r : Option TypeExpr}
    (h : ∀ p, additional = some p → Typed table path p.2) (hs : Good table s)
    (hrun : additionalType additional s = (.ok r, s')) :
    Grows table path s s' ∧ ∀ e, r = some e → e.Known s'.types := by
  have hnone : (pure none : Run (Option TypeExpr)) s = (.ok r, s') →
      Grows table path s s' ∧ ∀ e, r = some e → e.Known s'.types := by
    intro hrun
    obtain ⟨rfl, rfl⟩ := pure_eq_ok.1 hrun
    exact ⟨.refl hs, fun _ he => by cases he⟩
  unfold additionalType at hrun
  split at hrun
  · exact hnone hrun
  · exact hnone hrun
  · exact hnone hrun
  · obtain ⟨rfl, rfl⟩ := pure_eq_ok.1 hrun
    refine ⟨.refl hs, fun e he => ?_⟩
    cases he
    exact TypeExpr.known_primitive _ _ _
  · obtain ⟨e, hgrows, hknown, rfl⟩ := (h _ rfl).map hs hrun
    refine ⟨hgrows, fun x hx => ?_⟩
    cases hx
    exact hknown

theorem scalarType_eq_ok {kind : SchemaKind} {format : Tree} {nullable : Bool} {e : TypeExpr}
    (h : scalarType kind format nullable = .ok e) : ∃ p text, e = .primitive p text nullable := by
  have hrest : ∀ {p : Primitive}, (do
      return TypeExpr.primitive p (← textField "format" format) nullable : Except Failure TypeExpr) = .ok e →
      ∃ p text, e = .primitive p text nullable := by
    intro p h
    obtain ⟨text, -, h⟩ := ApiContract.bind_eq_ok.1 h
    cases h
    exact ⟨p, text, rfl⟩
  unfold scalarType at h
  dsimp only at h
  split at h
  · split at h
    · exact hrest h
    · split at h
      · cases h
      · exact hrest h
  · exact hrest h

theorem known_scalarType {kind : SchemaKind} {format : Tree} {nullable : Bool} {e : TypeExpr}
    {types : List NamedType} (h : scalarType kind format nullable = .ok e) : e.Known types := by
  obtain ⟨p, text, rfl⟩ := scalarType_eq_ok h
  exact TypeExpr.known_primitive _ _ _

/-- The type expression of a schema without a named type. -/
theorem typed_inlineSchema {es : Entries} {tree : Tree} {children : List (Scalar × Tree × Run TypeExpr)}
    (h : ∀ key p, children.lookup key = some p → Typed table path p.2) :
    Typed table path (inlineSchema es tree children) := by
  intro s e s' hs hrun
  obtain ⟨kind, _, hkind, hrun⟩ := bind_eq_ok.1 hrun
  obtain ⟨-, rfl⟩ := lift_eq_ok.1 hkind
  have hprimitive : ∀ {p : Primitive} {format : Option String} {nullable : Bool},
      (pure (.primitive p format nullable) : Run TypeExpr) s = (.ok e, s') →
        Grows table path s s' ∧ e.Known s'.types := by
    intro p format nullable hrun
    obtain ⟨rfl, rfl⟩ := pure_eq_ok.1 hrun
    exact ⟨.refl hs, TypeExpr.known_primitive _ _ _⟩
  cases kind with
  | string | number | integer | boolean =>
    dsimp only at hrun
    split at hrun
    · cases hrun
    · obtain ⟨he, rfl⟩ := lift_eq_ok.1 hrun
      exact ⟨.refl hs, known_scalarType he⟩
  | object =>
    dsimp only at hrun
    split at hrun
    · cases hrun
    · obtain ⟨r, _, hr, hrun⟩ := bind_eq_ok.1 hrun
      obtain ⟨hgrows, hknown⟩ := grows_additionalType (fun p hp => h _ p hp) hs hr
      cases r with
      | none =>
        obtain ⟨rfl, rfl⟩ := pure_eq_ok.1 hrun
        exact ⟨hgrows, TypeExpr.known_primitive _ _ _⟩
      | some value =>
        obtain ⟨rfl, rfl⟩ := pure_eq_ok.1 hrun
        exact ⟨hgrows, hknown value rfl⟩
  | array =>
    dsimp only at hrun
    have hany : (pure (.array .any (es.orNull "uniqueItems").truthy (Schema.isNullable es)) :
        Run TypeExpr) s = (.ok e, s') → Grows table path s s' ∧ e.Known s'.types := by
      intro hrun
      obtain ⟨rfl, rfl⟩ := pure_eq_ok.1 hrun
      exact ⟨.refl hs, nofun⟩
    cases hitems : children.lookup (.text "items") with
    | none =>
      rw [hitems] at hrun
      exact hany hrun
    | some p =>
      obtain ⟨t, type⟩ := p
      rw [hitems] at hrun
      cases t with
      | map =>
        obtain ⟨item, _, hitem, hrun⟩ := bind_eq_ok.1 hrun
        obtain ⟨rfl, rfl⟩ := pure_eq_ok.1 hrun
        obtain ⟨hgrows, hknown⟩ := h _ _ hitems hs hitem
        exact ⟨hgrows, hknown⟩
      | _ => exact hany hrun
  | any =>
    dsimp only at hrun
    obtain ⟨trivially, _, htrivial, hrun⟩ := bind_eq_ok.1 hrun
    obtain ⟨-, rfl⟩ := lift_eq_ok.1 htrivial
    split at hrun
    · cases hrun
    · exact hprimitive hrun
  | _ => cases hrun

theorem typed_typeWith {follow : String → Run TypeExpr} (hf : ∀ r, Typed table path (follow r))
    (t : Tree) : Typed table path (typeWith follow t) := by
  induction t using Tree.induct with
  | map a es ih =>
    rw [typeWith_map]
    split
    · exact hf _
    · refine typed_inlineSchema fun key p hp => ?_
      rw [Entries.lookup_children] at hp
      obtain ⟨x, hx, rfl⟩ := Option.map_eq_some_iff.1 hp
      exact ih _ (Entries.mem_of_at? hx)
  | _ => exact typed_throw

end ApiContract.Compile
