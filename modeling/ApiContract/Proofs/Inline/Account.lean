import ApiContract.Proofs.Edit
import ApiContract.Proofs.Inline.Relation

/-!
# Accounts of a run

Inlining compares a foreign schema with what its name stands for at that moment. An `Account` says what
is followed of the states of a run: which of them are valid, which may come later, and what a state says
of the names of schemas. What a state says must hold of all later ones, and placing a schema must lead to
such a state (`Account.places`); a walk then does (`visits_walk`).
-/

namespace ApiContract.Inline

open Tree Walk

variable {s s' s'' : State} {name : String} {n u : Tree}

/-! ## Reading the state -/

theorem presentTable_run (h : s.records = []) : presentTable s = (s.table, s) := by
  show ((s.table.map fun t => (t.anchor.bind (List.lookup · s.records)).getD t, s) : _ × State) = _
  rw [h]
  cases s.table with
  | none => rfl
  | some t =>
    cases t.anchor <;> simp

theorem present_run (h : s.records = []) (t : Tree) : present t s = (t, s) := by
  show ((t.settle s.records, s) : _ × State) = _
  rw [h]
  rfl

theorem copy_run {t : Tree} (ht : Plain t) : copy t s = (t, s) := by
  simp only [copy, anchorBound_eq_zero ht, if_pos]
  rfl

/-- A schema is placed by what its name is found to stand for: it joins under a free name, or it is
compared. -/
theorem placeSchema_cases (h : placeSchema name n s = (.ok u, s')) :
    ∃ found s₁, schemaNamed name s = (.ok found, s₁) ∧ (s₁.records = [] →
      (found = none ∧ s' = { s₁ with added := s₁.added ++ [(name, n)] } ∧
        u = Reference.asTree (Reference.toSchema name)) ∨
      ∃ e, found = some e ∧ s₁ = s' ∧
        u = if e.same n then Reference.asTree (Reference.toSchema name) else n) := by
  obtain ⟨r, s₁, h₁, h⟩ := bind_run.1 h
  rcases r with f | _ | e
  · cases (pure_run.1 h).1
  · refine ⟨none, s₁, h₁, fun _ => .inl ⟨rfl, ?_⟩⟩
    obtain ⟨_, s₂, h₂, h⟩ := bind_run.1 h
    obtain ⟨hu, rfl⟩ := pure_run.1 h
    exact ⟨(modify_run.1 h₂).symm, (Except.ok.inj hu).symm⟩
  · refine ⟨some e, s₁, h₁, fun hrec => .inr ⟨e, rfl, ?_⟩⟩
    obtain ⟨_, s₂, h₂, h⟩ := bind_run.1 h
    rw [present_run hrec] at h₂
    cases h₂
    obtain ⟨_, s₂, h₂, h⟩ := bind_run.1 h
    rw [present_run hrec] at h₂
    cases h₂
    obtain ⟨hu, rfl⟩ := pure_run.1 h
    exact ⟨rfl, (Except.ok.inj hu).symm⟩

/-! ## Accounts -/

/-- A scene in which nothing joins. -/
def sceneWith (library : Library) (root : Place) (kept taken : String → Tree → Prop) : Scene where
  library := library
  root := root
  kept := kept
  taken := taken
  joins _ _ _ := False

/-- What inlining made of a foreign schema. -/
def Foreign (c : Scene) (n : Tree) : Prop :=
  ∃ doc a es, Plain (.map a es) ∧ Reference.ofTree? (.map a es) = none ∧
    Inlines c doc (.visited .schema) (.map a es) n

/-- What is followed of the states of a run. -/
structure Account (library : Library) (root : Place) where
  Valid : State → Prop
  Later : State → State → Prop
  /-- The name stands for a schema that is the same. -/
  kept : State → String → Tree → Prop
  /-- The name is taken by another schema. -/
  taken : State → String → Tree → Prop
  refl : ∀ s, Later s s
  trans : ∀ {s s' s''}, Later s s' → Later s' s'' → Later s s''
  valid : ∀ {s s'}, Later s s' → Valid s → Valid s'
  keeps : ∀ {s s'}, Later s s' → ∀ name n, kept s name n → kept s' name n
  takes : ∀ {s s'}, Later s s' → ∀ name n, taken s name n → taken s' name n
  places : ∀ {s s' name n u}, Valid s → '#' ∉ name.toList → Plain n →
    Foreign (sceneWith library root (kept s) (taken s)) n → placeSchema name n s = (.ok u, s') →
      Later s s' ∧ ((u = Reference.asTree (Reference.toSchema name) ∧ kept s' name n) ∨
        (u = n ∧ taken s' name n))

namespace Account

variable {library : Library} {root : Place} (A : Account library root)

/-- What a state says. -/
def scene (s : State) : Scene := sceneWith library root (A.kept s) (A.taken s)

variable {A}

/-- What inlining may make of a tree, it may still make of it later. -/
theorem inlines {doc : Place} {spot : Spot} {t t' : Tree} (h : A.Later s s')
    (hi : Inlines (A.scene s) doc spot t t') (hs : spot.grows = false) :
    Inlines (A.scene s') doc spot t t' :=
  Inlines.mono (c := A.scene s) (d := A.scene s') rfl rfl (A.keeps h) (A.takes h) hi hs

end Account

end ApiContract.Inline
