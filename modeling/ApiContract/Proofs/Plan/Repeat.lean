import ApiContract.Compilation
import ApiContract.Proofs.Compile.Repeat

/-!
# Planning again

Planning reads schemas and the types that there are, one thing after the other. So a property of runs that
sequencing keeps and that reading a schema has is one of planning (`Sequential.plan`). Such a property is
that doing the same again gives the same (`Repeats`): the plan of an operation does not depend on which
operations have been planned before it.
-/

namespace ApiContract.Compile

variable {α β : Type} {table : Entries}

/-- A property of runs that sequencing keeps and that reading a schema has. -/
structure Sequential (table : Entries) (P : {α : Type} → Run α → Prop) : Prop where
  lift {α : Type} (r : Except Failure α) : P (lift r)
  bind {α β : Type} {m : Run α} {f : α → Run β} : P m → (∀ a, P (f a)) → P (m >>= f)
  types {α : Type} {f : List NamedType → Run α} : (∀ types, P (f types)) → P (get >>= fun s => f s.types)
  typeOf (t : Tree) : P (typeOf table t)

namespace Sequential

variable {P : {α : Type} → Run α → Prop} (hP : Sequential table P) {label : String}
include hP

theorem pure (a : α) : P (pure a) := hP.lift (.ok a)

theorem throw (f : Failure) : P (throw f : Run α) := hP.lift (.error f)

theorem lift_bind {r : Except Failure α} {f : α → Run β} (hf : ∀ a, P (f a)) : P (Compile.lift r >>= f) :=
  hP.bind (hP.lift r) hf

/-- A run that goes on unless something is wrong. -/
theorem refuse {f : Failure} {c : Prop} [Decidable c] {k : α → Run β} {m : Run β} (hm : P m) :
    P (if c then MonadExcept.throw f >>= k else m) := by
  have hthrow : (MonadExcept.throw f >>= k : Run β) = MonadExcept.throw f := rfl
  rw [hthrow]
  split
  · exact hP.throw f
  · exact hm

theorem mapM {f : α → Run β} (hf : ∀ a, P (f a)) (as : List α) : P (as.mapM f) := by
  induction as with
  | nil => exact hP.pure []
  | cons a as ih =>
    rw [List.mapM_cons]
    exact hP.bind (hf a) fun b => hP.bind ih fun bs => hP.pure _

/-! ## Bodies -/

theorem bodyPlan (mediaType : String) (schema : Option Tree) : P (BodyPlan.of table mediaType schema) := by
  unfold BodyPlan.of
  split
  · cases schema with
    | none => exact hP.pure _
    | some t =>
      refine hP.bind ?_ fun _ => hP.pure _
      refine hP.lift_bind fun resolved => hP.lift_bind fun kind => ?_
      split
      · exact hP.bind (hP.typeOf t) fun _ => hP.pure _
      · dsimp only
        split
        · exact hP.throw _
        · exact hP.pure _
  · exact hP.pure _

theorem ofContent (content : Tree) (what : String) : P (BodyPlan.ofContent table content what) := by
  refine hP.lift_bind fun found => ?_
  cases found with
  | none => exact hP.pure _
  | some p => exact hP.bind (hP.bodyPlan p.1 _) fun b => hP.pure _

/-! ## Parameters -/

theorem parsing {t : Tree} {type : TypeExpr} {place : ParameterPlace} {name : String} :
    P (ParameterPlan.parsing table t type place name label) := by
  have hensure : ∀ (item : TypeExpr) (parsed : Bool), P (do
      Compile.lift (ParameterPlan.ensureScalar (← get).types item name label)
      return parsed) := by
    intro item parsed
    exact hP.types (f := fun types => do
      Compile.lift (ParameterPlan.ensureScalar types item name label)
      return parsed) fun types => hP.lift_bind fun _ => hP.pure _
  unfold ParameterPlan.parsing
  split
  · exact hP.refuse (hP.lift_bind fun _ => hensure _ _)
  · exact hP.lift_bind fun _ => hensure _ _

theorem parameterPlan (parameter : Tree) : P (ParameterPlan.of table label parameter) := by
  unfold ParameterPlan.of
  split
  · dsimp only
    split
    · refine hP.refuse (hP.refuse (hP.refuse ?_))
      refine hP.bind (hP.typeOf _) fun type => hP.bind hP.parsing fun parsed => ?_
      exact hP.refuse (hP.lift_bind fun _ => hP.pure _)
    · exact hP.throw _
  · exact hP.throw _

/-! ## Operations -/

theorem requestBodyPlan (requestBody : Tree) : P (RequestBodyPlan.of table label requestBody) := by
  unfold RequestBodyPlan.of
  split
  · refine hP.bind (hP.ofContent _ _) fun body => ?_
    cases body with
    | none => exact hP.pure _
    | some body => exact hP.lift_bind fun _ => hP.pure _
  · exact hP.throw _

theorem responsePlan (name : String) (status : Option Nat) (response : Tree) :
    P (ResponsePlan.of table label name status response) := by
  unfold ResponsePlan.of
  split
  · exact hP.bind (hP.ofContent _ _) fun body => hP.lift_bind fun _ => hP.pure _
  · exact hP.throw _

theorem ofStatuses (responses : Entries) : P (ResponsePlan.ofStatuses table label responses) := by
  induction responses with
  | nil => exact hP.pure []
  | cons e responses ih =>
    obtain ⟨key, response⟩ := e
    rw [ResponsePlan.ofStatuses]
    split
    · exact ih
    · exact hP.lift_bind fun status => hP.bind (hP.responsePlan _ _ response) fun r =>
        hP.bind ih fun rs => hP.pure _

theorem responsePlans (responses : Entries) : P (ResponsePlan.all table label responses) := by
  refine hP.bind (hP.ofStatuses responses) fun plans => ?_
  split
  · exact hP.pure plans
  · exact hP.bind (hP.responsePlan _ _ _) fun r => hP.pure _

/-- Such a property is one of planning an operation. -/
theorem plan (o : Operation) : P (OperationPlan.of table o) := by
  unfold OperationPlan.of
  dsimp only
  split
  · exact hP.throw _
  · have hparameters : P (ParameterPlan.all table o.label (o.parameters.map (Tree.map none))) :=
      hP.bind (hP.mapM hP.parameterPlan _) fun plans => hP.pure _
    cases o.requestBody with
    | none =>
      exact hP.bind (hP.pure none) fun body => hP.bind hparameters fun parameters =>
        hP.bind (hP.responsePlans _) fun responses => hP.pure _
    | some body =>
      exact hP.bind (hP.requestBodyPlan _) fun body => hP.bind hparameters fun parameters =>
        hP.bind (hP.responsePlans _) fun responses => hP.pure _

theorem plans (os : List Operation) : P (os.mapM (OperationPlan.of table)) :=
  hP.mapM hP.plan os

end Sequential

/-! ## The same again -/

/-- Once a run has ended well, it does so again and gives the same from every state that knows no less than
the first one, and nothing that is not known later. -/
def Repeats (table : Entries) (base : State) (m : Run α) : Prop :=
  ∀ ⦃s a s'⦄, Learned table base s → m s = (.ok a, s') →
    Learned table base s' ∧ Extends s s' ∧ ∀ last, Learned table base last → Extends s' last →
      ∀ t, Within base last t → ∃ t', m t = (.ok a, t') ∧ Within base last t'

variable {base : State}

theorem Repeats.bind {m : Run α} {f : α → Run β} (h : Repeats table base m)
    (hf : ∀ a, Repeats table base (f a)) : Repeats table base (m >>= f) := by
  intro s b s' hs hrun
  obtain ⟨a, s₁, ha, hrun⟩ := bind_eq_ok.1 hrun
  obtain ⟨hs₁, hext₁, hagain₁⟩ := h hs ha
  obtain ⟨hs', hext, hagain⟩ := hf a hs₁ hrun
  refine ⟨hs', hext₁.trans hext, fun last hlast hlater t ht => ?_⟩
  obtain ⟨t₁, hrun₁, ht₁⟩ := hagain₁ last hlast (hext.trans hlater) t ht
  obtain ⟨t', hrun', ht'⟩ := hagain last hlast hlater t₁ ht₁
  exact ⟨t', bind_eq_ok.2 ⟨a, t₁, hrun₁, hrun'⟩, ht'⟩

theorem repeats_lift (r : Except Failure α) : Repeats table base (lift r) := by
  intro s a s' hs hrun
  obtain ⟨hr, rfl⟩ := lift_eq_ok.1 hrun
  exact ⟨hs, .refl s, fun _ _ _ t ht => ⟨t, lift_eq_ok.2 ⟨hr, rfl⟩, ht⟩⟩

/-- What depends on the types alone, which stay as they are. -/
theorem repeats_types {f : List NamedType → Run α} (hf : ∀ types, Repeats table base (f types)) :
    Repeats table base (get >>= fun s => f s.types) := by
  have hget : ∀ s, (get >>= fun s => f s.types : Run α) s = f s.types s := fun s => rfl
  intro s a s' hs hrun
  rw [hget] at hrun
  obtain ⟨hs', hext, hagain⟩ := hf s.types hs hrun
  refine ⟨hs', hext, fun last hlast hlater t ht => ?_⟩
  have htypes : t.types = s.types := by rw [ht.types, hlast.types, hs.types]
  rw [hget, htypes]
  exact hagain last hlast hlater t ht

theorem repeats_typeOf (hc : Complete table base.types) (t : Tree) :
    Repeats table base (typeOf table t) := by
  intro s e s' hs hrun
  obtain ⟨hs', hext, hknown⟩ := learns_typeOf hc t hs hrun
  refine ⟨hs', hext, fun last hlast hlater u hu => ?_⟩
  exact replays_typeOf hc hlast t hu (hknown last hlater)

/-- Planning repeats itself once every schema has its type. -/
theorem sequential_repeats (hc : Complete table base.types) :
    Sequential table fun {α} (m : Run α) => Repeats table base m where
  lift := repeats_lift
  bind := .bind
  types := repeats_types
  typeOf := repeats_typeOf hc

end ApiContract.Compile
