import ApiContract.TypeModel.Compile
import ApiContract.Proofs.Tree.Plain

/-!
# Runs that meet no unexpected inline schema

Four failures say that a schema stands inline and should have got a name. `Fits r P`: the result `r` is
none of them, and what it gives has the property `P`. `Ends m s P` says the same of a run that starts
in the state `s`. `Keeps I m`: every run of `m` ends so, and it keeps the invariant `I` of the named
types; `Safe m` says it without an invariant.
-/

namespace ApiContract

/-- Whether a failure is about a schema that stands inline and should have got a name. -/
def Failure.isInlineSchema : Failure → Bool
  | .inlineEnum _ | .inlineObject _ | .inlineAny _ | .inlineComposition _ => true
  | _ => false

namespace Compile

variable {α β : Type}

/-- A result is no failure about an inline schema, and what it gives has a property. -/
def Fits (r : Except Failure α) (P : α → Prop) : Prop :=
  match r with
  | .ok a => P a
  | .error f => f.isInlineSchema = false

/-- A run from a state does not end with a failure about an inline schema. -/
def Ends (m : Run α) (s : State) (P : α → State → Prop) : Prop :=
  Fits (m s).1 fun a => P a (m s).2

/-- No run ends with a failure about an inline schema, and an invariant of the named types is kept. -/
def Keeps (I : List NamedType → Prop) (m : Run α) : Prop :=
  ∀ s, I s.types → Ends m s fun _ s' => I s'.types

/-- No run ends with a failure about an inline schema. -/
abbrev Safe (m : Run α) : Prop := Keeps (fun _ => True) m

/-! ## Results -/

section

variable {r : Except Failure α} {P Q : α → Prop} {R : β → Prop}

theorem Fits.mono (h : Fits r P) (hPQ : ∀ a, P a → Q a) : Fits r Q := by
  cases r with
  | ok a => exact hPQ a h
  | error f => exact h

theorem Fits.weaken (h : Fits r P) : Fits r fun _ => True := h.mono fun _ _ => trivial

theorem Fits.bind {f : α → Except Failure β} (h : Fits r P) (hf : ∀ a, P a → Fits (f a) R) :
    Fits (r >>= f) R := by
  cases r with
  | ok a => exact hf a h
  | error e => exact h

theorem Fits.map {f : α → β} (h : Fits r P) (hf : ∀ a, P a → R (f a)) : Fits (f <$> r) R := by
  cases r with
  | ok a => exact hf a h
  | error e => exact h

/-- What is done with each item of a list. -/
theorem fits_mapM {f : α → Except Failure β} : ∀ {l : List α}, (∀ a ∈ l, Fits (f a) R) →
    Fits (l.mapM f) fun bs => ∀ b ∈ bs, R b
  | [], _ => fun b hb => absurd hb List.not_mem_nil
  | a :: l, h => by
    rw [List.mapM_cons]
    refine (h a List.mem_cons_self).bind fun b hb =>
      (fits_mapM fun a ha => h a (List.mem_cons_of_mem _ ha)).bind fun bs hbs => ?_
    exact List.forall_mem_cons.2 ⟨hb, hbs⟩

theorem fits_foldlM {f : β → α → Except Failure β} {I : β → Prop} :
    ∀ {l : List α} {b : β}, I b → (∀ b, I b → ∀ a ∈ l, Fits (f b a) I) → Fits (l.foldlM f b) I
  | [], _, hb, _ => hb
  | a :: l, b, hb, h => by
    rw [List.foldlM_cons]
    exact (h b hb a List.mem_cons_self).bind fun b' hb' =>
      fits_foldlM hb' fun b hb a ha => h b hb a (List.mem_cons_of_mem _ ha)

theorem fits_forIn {f : α → β → Except Failure (ForInStep β)} {I : β → Prop} :
    ∀ {l : List α} {b : β}, I b →
      (∀ b, I b → ∀ a ∈ l, Fits (f a b) fun b' => I b'.value) → Fits (forIn l b f) I
  | [], _, hb, _ => hb
  | a :: l, b, hb, h => by
    rw [List.forIn_cons]
    refine (h b hb a List.mem_cons_self).bind fun b' hb' => ?_
    cases b' with
    | done b' => exact hb'
    | yield b' => exact fits_forIn hb' fun b hb a ha => h b hb a (List.mem_cons_of_mem _ ha)

end

/-! ## Runs -/

variable {m : Run α} {s : State} {P Q : α → State → Prop} {R : β → State → Prop}

theorem bind_eq {σ : Type} {m : RunOn σ α} {f : α → RunOn σ β} {s : σ} :
    (m >>= f) s = match m s with
      | (.ok a, s') => f a s'
      | (.error e, s') => (.error e, s') := by
  simp only [bind, ExceptT.bind, ExceptT.mk, ExceptT.bindCont, StateT.bind]
  rcases m s with ⟨a | e, s'⟩ <;> rfl

theorem get_eq (s : State) : (get : Run State) s = (.ok s, s) := rfl

theorem Ends.bind {f : α → Run β} (h : Ends m s P) (hf : ∀ a s', P a s' → Ends (f a) s' R) :
    Ends (m >>= f) s R := by
  rw [Ends] at h ⊢
  rw [bind_eq]
  rcases hm : m s with ⟨e | a, s'⟩
  · rw [hm] at h
    exact h
  · rw [hm] at h
    exact hf a s' h

theorem Ends.mono (h : Ends m s P) (hPQ : ∀ a s', P a s' → Q a s') : Ends m s Q :=
  Fits.mono h fun a => hPQ a _

theorem ends_pure {a : α} (h : P a s) : Ends (pure a) s P := h

theorem ends_throw {f : Failure} (h : f.isInlineSchema = false) : Ends (throw f) s P := h

theorem ends_lift {r : Except Failure α} (h : Fits r fun a => P a s) : Ends (lift r) s P := h

theorem lift_ok_bind {σ : Type} (a : α) (f : α → RunOn σ β) : lift (.ok a) >>= f = f a := rfl

theorem lift_bind_congr {σ : Type} {r : Except Failure α} {f g : α → RunOn σ β}
    (h : ∀ a, r = .ok a → f a = g a) : lift r >>= f = lift r >>= g := by
  cases r with
  | ok a => exact h a rfl
  | error e => rfl

theorem Ends.lift_bind {r : Except Failure α} {P : α → Prop} {f : α → Run β} (h : Fits r P)
    (hf : ∀ a, P a → Ends (f a) s R) : Ends (lift r >>= f) s R := by
  cases r with
  | ok a => exact hf a h
  | error f => exact h

/-- A run ends with what it gives. -/
theorem Ends.run_eq (h : Ends m s P) : Ends m s fun a s' => P a s' ∧ m s = (.ok a, s') := by
  rw [Ends] at h ⊢
  rcases hm : m s with ⟨e | a, s'⟩
  · rw [hm] at h
    exact h
  · rw [hm] at h
    exact ⟨h, rfl⟩

theorem ends_get {P : State → State → Prop} (h : P s s) : Ends get s P := h

theorem ends_modify {f : State → State} {P : PUnit → State → Prop} (h : P ⟨⟩ (f s)) :
    Ends (modify f) s P := h

section

variable {I : List NamedType → Prop}

theorem Keeps.ends (h : Keeps I m) (hs : I s.types) : Ends m s fun _ s' => I s'.types := h s hs

theorem Keeps.bind {f : α → Run β} (h : Keeps I m) (hf : ∀ a, Keeps I (f a)) : Keeps I (m >>= f) :=
  fun s hs => (h s hs).bind fun a _ hs' => hf a _ hs'

theorem Keeps.lift_bind {r : Except Failure α} {P : α → Prop} {f : α → Run β} (h : Fits r P)
    (hf : ∀ a, P a → Keeps I (f a)) : Keeps I (lift r >>= f) :=
  fun s hs => Ends.lift_bind h fun a ha => hf a ha s hs

theorem keeps_lift {r : Except Failure α} {P : α → Prop} (h : Fits r P) : Keeps I (lift r) :=
  fun _ hs => h.mono fun _ _ => hs

theorem keeps_pure (a : α) : Keeps I (pure a : Run α) := fun _ hs => hs

theorem keeps_throw {f : Failure} (h : f.isInlineSchema = false) : Keeps I (throw f : Run α) :=
  fun _ _ => h

theorem Keeps.get_bind {f : State → Run β} (hf : ∀ t, Keeps I (f t)) : Keeps I (get >>= f) :=
  fun _ hs => (ends_get (P := fun _ s' => I s'.types) hs).bind fun t _ hs' => hf t _ hs'

/-- What becomes of the rest of the state is of no account. -/
theorem keeps_modify {f : State → State} (h : ∀ s, (f s).types = s.types) :
    Keeps I (modify f : Run PUnit) :=
  fun s hs => ends_modify (P := fun _ s' => I s'.types) ((h s).symm ▸ hs)

theorem Keeps.map {f : α → β} (h : Keeps I m) : Keeps I (f <$> m) := by
  rw [map_eq_pure_bind]
  exact h.bind fun a => keeps_pure _

end

end Compile

end ApiContract
