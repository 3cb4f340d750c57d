import ApiContract.Proofs.Compilation
import ApiContract.Proofs.Compile.Order
import ApiContract.Proofs.Plan.Parameter

/-!
# Plans after the types

Once the types of a whole table are there, planning adds none (`Compile.Yields`), and a plan mentions only
those (`Compile.yields_plan`). So the types of a compilation are in order and all of its plans are sound
(`Compilation.Modelled.sound`).
-/

namespace ApiContract

variable {types : List NamedType}

/-- A body that is read as a value of a type has one, and it is known. -/
structure BodyPlan.Sound (types : List NamedType) (b : BodyPlan) : Prop where
  typed : b.format = .jsonTyped → b.type.isSome = true
  known : ∀ e, b.type = some e → e.Known types

/-- A parameter's type is known, and its argument can stand in a signature. -/
structure ParameterPlan.Sound (types : List NamedType) (p : ParameterPlan) : Prop where
  known : p.type.Known types
  named : Text.IsName p.argument

/-- All that a plan mentions is known. Arguments differ from each other and from those that every handler
has. -/
structure OperationPlan.Sound (types : List NamedType) (p : OperationPlan) : Prop where
  handler : Text.IsName p.handler
  parameters : ∀ q ∈ p.parameters, q.Sound types
  arguments : (p.parameters.map (·.argument)).Nodup
  free : ∀ q ∈ p.parameters, q.argument ∉ ParameterPlan.handlerArguments
  requestBody : ∀ b, p.requestBody = some b → b.body.Sound types
  responses : ∀ r ∈ p.responses, ∀ b, r.body = some b → b.Sound types

namespace Compile

/-- The types of the whole table are these. -/
structure Ready (table : Entries) (types : List NamedType) (s : State) : Prop where
  good : Good table s
  same : s.types = types
  complete : Complete table types

/-- A run that adds no types and gives what has a property. -/
def Yields {α : Type} (table : Entries) (types : List NamedType) (m : Run α) (P : α → Prop) : Prop :=
  ∀ ⦃s a s'⦄, Ready table types s → m s = (.ok a, s') → Ready table types s' ∧ P a

section

variable {α β : Type} {table : Entries} {m : Run α} {P : α → Prop} {Q : β → Prop}

theorem Yields.bind {f : α → Run β} (h : Yields table types m P)
    (hf : ∀ a, P a → Yields table types (f a) Q) : Yields table types (m >>= f) Q := by
  intro s b s' hs hrun
  obtain ⟨a, s₁, ha, hrun⟩ := bind_eq_ok.1 hrun
  obtain ⟨hs₁, hP⟩ := h hs ha
  exact hf a hP hs₁ hrun

theorem Yields.mono {P' : α → Prop} (h : Yields table types m P) (hP : ∀ a, P a → P' a) :
    Yields table types m P' :=
  fun _ _ _ hs hrun => (h hs hrun).imp_right (hP _)

theorem yields_pure {a : α} (h : P a) : Yields table types (pure a) P := by
  intro s b s' hs hrun
  obtain ⟨rfl, rfl⟩ := pure_eq_ok.1 hrun
  exact ⟨hs, h⟩

theorem yields_throw {f : Failure} : Yields table types (throw f : Run α) P := by
  intro s b s' _ hrun
  cases hrun

theorem yields_lift {r : Except Failure α} (h : ∀ a, r = .ok a → P a) :
    Yields table types (lift r) P := by
  intro s b s' hs hrun
  obtain ⟨hr, rfl⟩ := lift_eq_ok.1 hrun
  exact ⟨hs, h b hr⟩

/-- What a lifted result is does not matter. -/
theorem yields_lift_bind {r : Except Failure α} {f : α → Run β}
    (hf : ∀ a, Yields table types (f a) Q) : Yields table types (lift r >>= f) Q :=
  (yields_lift (P := fun _ => True) fun _ _ => trivial).bind fun a _ => hf a

/-- A run that goes on unless something is wrong. -/
theorem yields_refuse {f : Failure} {c : Prop} [Decidable c] {k : α → Run β} {m : Run β}
    (hm : Yields table types m Q) : Yields table types (if c then throw f >>= k else m) Q := by
  split
  · exact (yields_throw (P := fun _ => False)).bind fun _ h => h.elim
  · exact hm

theorem yields_mapM {f : α → Run β} : ∀ {as : List α}, (∀ a ∈ as, Yields table types (f a) Q) →
    Yields table types (as.mapM f) fun bs => ∀ b ∈ bs, Q b
  | [], _ => yields_pure nofun
  | a :: as, h => by
    obtain ⟨ha, has⟩ := List.forall_mem_cons.1 h
    rw [List.mapM_cons]
    exact ha.bind fun b hb => (yields_mapM has).bind fun bs hbs =>
      yields_pure (List.forall_mem_cons.2 ⟨hb, hbs⟩)

/-- The type expression of a schema mentions types that are there. -/
theorem yields_typeOf (t : Tree) : Yields table types (typeOf table t) (TypeExpr.Known types) := by
  intro s e s' hs hrun
  obtain ⟨hgrows, hknown⟩ := typed_typeOf t hs.good hrun
  have htypes : s'.types = types := by
    rw [hgrows.complete (hs.same.symm ▸ hs.complete), hs.same]
  exact ⟨⟨hgrows.good, htypes, hs.complete⟩, htypes ▸ hknown⟩

end

variable {table : Entries} {label : String}

/-! ## Bodies -/

theorem yields_bodyPlan (mediaType : String) (schema : Option Tree) :
    Yields table types (BodyPlan.of table mediaType schema) (BodyPlan.Sound types) := by
  unfold BodyPlan.of
  split
  · cases schema with
    | none => exact yields_pure ⟨nofun, nofun⟩
    | some t =>
      refine Yields.bind (P := fun p => BodyPlan.Sound types ⟨mediaType, p.1, p.2⟩) ?_
        fun _ h => yields_pure h
      refine yields_lift_bind fun resolved => yields_lift_bind fun kind => ?_
      split
      · refine (yields_typeOf t).bind fun e he => yields_pure ⟨fun _ => rfl, ?_⟩
        rintro _ ⟨⟩
        exact he
      · dsimp only
        split
        · exact yields_throw
        · refine yields_pure ⟨fun h => ?_, nofun⟩
          dsimp only at h
          split at h <;> cases h
  · refine yields_pure ⟨fun h => ?_, nofun⟩
    dsimp only at h
    split at h <;> cases h

theorem yields_ofContent (content : Tree) (what : String) :
    Yields table types (BodyPlan.ofContent table content what)
      fun r => ∀ b, r = some b → b.Sound types := by
  refine yields_lift_bind fun found => ?_
  cases found with
  | none => exact yields_pure nofun
  | some p =>
    refine (yields_bodyPlan p.1 _).bind fun b hb => yields_pure ?_
    rintro _ ⟨⟩
    exact hb

/-! ## Parameters -/

theorem yields_parsing {t : Tree} {type : TypeExpr} {place : ParameterPlace} {name : String} :
    Yields table types (ParameterPlan.parsing table t type place name label) fun _ => True := by
  have hensure : ∀ (item : TypeExpr) (parsed : Bool), Yields table types (do
      lift (ParameterPlan.ensureScalar (← get).types item name label)
      return parsed) fun _ => True := by
    intro item parsed s a s' hs hrun
    obtain ⟨_, _, hget, hrun⟩ := bind_eq_ok.1 hrun
    cases hget
    exact yields_lift_bind (Q := fun _ => True) (fun _ => yields_pure trivial) hs hrun
  unfold ParameterPlan.parsing
  split
  · exact yields_refuse (yields_lift_bind fun _ => hensure _ _)
  · exact yields_lift_bind fun _ => hensure _ _

theorem yields_parameterPlan (parameter : Tree) :
    Yields table types (ParameterPlan.of table label parameter) fun p => p.type.Known types := by
  unfold ParameterPlan.of
  split
  · dsimp only
    split
    · refine yields_refuse (yields_refuse (yields_refuse ?_))
      refine (yields_typeOf _).bind fun type htype => yields_parsing.bind fun parsed _ => ?_
      exact yields_refuse (yields_lift_bind fun _ => yields_pure htype)
    · exact yields_throw
  · exact yields_throw

/-- The plans of the parameters of an operation. -/
theorem yields_parameterPlans (parameters : List Tree) :
    Yields table types (ParameterPlan.all table label parameters) fun ps =>
      (∀ p ∈ ps, p.type.Known types) ∧ ParameterPlan.Named ps := by
  intro s ps s' hs hrun
  have hknown : Yields table types (ParameterPlan.all table label parameters)
      fun ps => ∀ p ∈ ps, p.type.Known types := by
    refine (yields_mapM fun t _ => yields_parameterPlan t).bind fun plans hplans => yields_pure ?_
    refine List.forall_mem_map.2 fun p hp => ?_
    exact hplans p.1 (List.of_mem_zip hp).1
  obtain ⟨hs', hps⟩ := hknown hs hrun
  exact ⟨hs', hps, ParameterPlan.named_all hrun⟩

/-! ## Operations -/

theorem yields_requestBodyPlan (requestBody : Tree) :
    Yields table types (RequestBodyPlan.of table label requestBody)
      fun r => ∀ b, r = some b → b.body.Sound types := by
  unfold RequestBodyPlan.of
  split
  · refine (yields_ofContent _ _).bind fun body hbody => ?_
    cases body with
    | none => exact yields_pure nofun
    | some body =>
      refine yields_lift_bind fun _ => yields_pure ?_
      rintro _ ⟨⟩
      exact hbody _ rfl
  · exact yields_throw

theorem yields_responsePlan (name : String) (status : Option Nat) (response : Tree) :
    Yields table types (ResponsePlan.of table label name status response)
      fun r => ∀ b, r.body = some b → b.Sound types := by
  unfold ResponsePlan.of
  split
  · exact (yields_ofContent _ _).bind fun body hbody => yields_lift_bind fun _ => yields_pure hbody
  · exact yields_throw

theorem yields_ofStatuses : ∀ responses : Entries,
    Yields table types (ResponsePlan.ofStatuses table label responses)
      fun rs => ∀ r ∈ rs, ∀ b, r.body = some b → b.Sound types
  | [] => yields_pure nofun
  | (key, response) :: rest => by
    rw [ResponsePlan.ofStatuses]
    split
    · exact yields_ofStatuses rest
    · exact yields_lift_bind fun status => (yields_responsePlan _ _ response).bind fun r hr =>
        (yields_ofStatuses rest).bind fun rs hrs => yields_pure (List.forall_mem_cons.2 ⟨hr, hrs⟩)

theorem yields_responsePlans (responses : Entries) :
    Yields table types (ResponsePlan.all table label responses)
      fun rs => ∀ r ∈ rs, ∀ b, r.body = some b → b.Sound types := by
  refine (yields_ofStatuses responses).bind fun plans hplans => ?_
  have hdefault : ∀ response, Yields table types (do
      return plans ++ [← ResponsePlan.of table label "Default" none response])
        fun rs => ∀ r ∈ rs, ∀ b, r.body = some b → b.Sound types :=
    fun response => (yields_responsePlan _ _ response).bind fun r hr =>
      yields_pure (List.forall_mem_append.2 ⟨hplans, List.forall_mem_singleton.2 hr⟩)
  split
  · exact yields_pure hplans
  · exact hdefault _

theorem yields_plan (o : Operation) :
    Yields table types (OperationPlan.of table o) (OperationPlan.Sound types) := by
  unfold OperationPlan.of
  dsimp only
  split
  · exact yields_throw
  · have hrest : ∀ requestBody : Option RequestBodyPlan,
        (∀ b, requestBody = some b → b.body.Sound types) → Yields table types (do
          let parameters ← ParameterPlan.all table o.label (o.parameters.map (Tree.map none))
          let responses ← ResponsePlan.all table o.label o.responses
          return {
            id := o.id.getD ""
            requestBody, parameters, responses
            handler := Text.identifier (o.id.getD "") OperationPlan.handlerMethods
            responseType := Text.typeIdentifier (o.id.getD "") ++ "Response"
            method := o.method
            path := o.path
            summary := o.summary
            description := o.description
            tags := o.tags
            authenticated := !o.isOpen }) (OperationPlan.Sound types) := by
      intro requestBody hbody
      refine (yields_parameterPlans _).bind fun parameters hparameters => ?_
      refine (yields_responsePlans _).bind fun responses hresponses => yields_pure ?_
      obtain ⟨hknown, hnamed⟩ := hparameters
      exact ⟨Text.isName_identifier _ _, fun p hp => ⟨hknown p hp, hnamed.isName p hp⟩, hnamed.nodup,
        hnamed.free, hbody, hresponses⟩
    cases o.requestBody with
    | none => exact (yields_pure nofun).bind hrest
    | some body => exact (yields_requestBodyPlan _).bind hrest

theorem yields_planAll (assigned : List (String × List Operation)) :
    Yields table types (Compilation.planAll table assigned)
      fun plans => ∀ u ∈ plans, ∀ p ∈ u.2, p.Sound types :=
  yields_mapM fun _ _ => (yields_mapM fun o _ => yields_plan o).bind fun _ hps => yields_pure hps

end Compile

/-- The types of a compilation are in order, and the plans of every unit mention only these. -/
theorem Compilation.Modelled.sound {document : Tree} {units : List Deployment}
    {assigned : List (String × List Operation)} {plans : List (String × List OperationPlan)}
    {table : Entries} {operations : List Operation} {s s' : Compile.State}
    (h : Modelled document units types assigned plans table operations s s') :
    NamedType.Ordered types ∧ ∀ u ∈ plans, ∀ p ∈ u.2, p.Sound types := by
  obtain ⟨hgood, rfl, hcomplete⟩ := Compile.all_run h.compiled
  exact ⟨hgood.ordered, (Compile.yields_planAll assigned ⟨hgood, rfl, hcomplete⟩ h.planned).2⟩

end ApiContract
