import ApiContract.Proofs.Compilation
import ApiContract.Proofs.Plan.Repeat
import ApiContract.Proofs.Compile.Order

/-!
# Compiling for a scaffold

A scaffold compiles the description again for its unit alone, which then picks its operations by the
identifiers that were planned. Identifiers are unique, so it is assigned the same operations
(`assign_scaffoldUnit`); types do not depend on units; and planning a unit's operations gives the same
whether or not those of other units are planned before (`planAll_again`). So the scaffold has the types and
the plans of the compilation that it was made from (`recompiles`).
-/

namespace ApiContract

namespace Deployment

variable {operations : List Operation} {d : Deployment}

/-- A unit that serves alone is assigned all that it serves. -/
theorem assign_single (h : ∀ o ∈ operations, d.serves o = true → o.id ≠ none) :
    assign operations [d] = .ok [(d.name, operations.filter d.serves)] := by
  have hfold : ∀ os : List Operation, operations.foldlM (assignOne [d]) [(d.name, os)] =
      .ok [(d.name, os ++ operations.filter d.serves)] := by
    induction operations with
    | nil =>
      intro os
      rw [List.filter_nil, List.append_nil]
      rfl
    | cons o operations ih =>
      intro os
      obtain ⟨ho, hrest⟩ := List.forall_mem_cons.1 h
      rw [List.foldlM_cons, List.filter_cons]
      cases hserves : d.serves o with
      | false =>
        have hone : assignOne [d] [(d.name, os)] o = .ok [(d.name, os)] := by
          simp [assignOne, hserves]
        rw [hone]
        exact ih hrest os
      | true =>
        have hone : assignOne [d] [(d.name, os)] o = .ok [(d.name, os ++ [o])] := by
          have hid : o.id.isNone = false :=
            Bool.eq_false_iff.2 fun hnone => ho hserves (Option.isNone_iff_eq_none.1 hnone)
          simp [assignOne, hserves, hid, addTo]
        rw [hone]
        refine (ih hrest (os ++ [o])).trans ?_
        rw [List.append_assoc]
        rfl
  have hnames : ([d].map (·.name)).eraseDups.map (fun n => (n, ([] : List Operation))) = [(d.name, [])] := by
    simp [List.eraseDups_cons]
  rw [assign, hnames, hfold, List.nil_append]

end Deployment

namespace Compilation

/-- The unit that a scaffold compiles for: it serves the operations that are planned for the unit. -/
def scaffoldUnit (c : Compilation) (unit : String) : Deployment :=
  ⟨unit, none, some (Filter.picks ⟨(c.plansOf unit).map (·.id), [], []⟩)⟩

variable {c : Compilation} {units : List Deployment} {assigned : List (String × List Operation)}
  {table : Entries} {operations : List Operation} {s s' : Compile.State} {u : Deployment}

/-! ## Operations -/

theorem serves_scaffoldUnit {unit : String} {o : Operation} :
    (c.scaffoldUnit unit).serves o = true ↔ ∃ p ∈ c.plansOf unit, o.id = some p.id := by
  have hpicks : (c.scaffoldUnit unit).serves o = o.id.any ((c.plansOf unit).map (·.id)).contains := by
    show Filter.picks ⟨_, [], []⟩ o = _
    rw [Filter.picks]
    simp
  rw [hpicks]
  cases o.id with
  | none => simp
  | some id => simp [eq_comm]

theorem Made.mem_assigned (h : Made c assigned table operations s s') (hu : u ∈ c.units)
    {o : Operation} : o ∈ (assigned.lookup u.name).getD [] ↔
      o ∈ operations ∧ (c.scaffoldUnit u.name).serves o = true := by
  have hassigned := Deployment.lookup_assign h.served (List.mem_map_of_mem hu)
  have hexists := h.exists_plan u.name
  rw [hassigned, Option.getD_some] at hexists ⊢
  rw [serves_scaffoldUnit]
  constructor
  · intro ho
    refine ⟨(List.mem_filter.1 ho).1, ?_⟩
    have hplans := lookup_planAll h.planned u.name
    rw [hassigned, Option.getD_some] at hplans
    obtain ⟨p, hp, _, _, hof⟩ := mem_of_forall₂_left hplans ho
    exact ⟨p, hp, OperationPlan.id_of hof⟩
  · rintro ⟨ho, p, hp, hid⟩
    obtain ⟨o', ho', hid'⟩ := (hexists p.id).1 ⟨p, hp, rfl⟩
    rwa [Operation.eq_of_id h.unique ho (List.mem_filter.1 ho').1 hid hid']

/-- The unit in a scaffold is assigned the operations of the unit that it is for. -/
theorem Made.assign_scaffoldUnit (h : Made c assigned table operations s s') (hu : u ∈ c.units) :
    Deployment.assign operations [c.scaffoldUnit u.name] =
      .ok [(u.name, (assigned.lookup u.name).getD [])] := by
  have hassigned := Deployment.lookup_assign h.served (List.mem_map_of_mem hu)
  have hsame : operations.filter (c.scaffoldUnit u.name).serves =
      (assigned.lookup u.name).getD [] := by
    rw [hassigned, Option.getD_some]
    refine List.filter_congr fun o ho => ?_
    have hiff := h.mem_assigned hu (o := o)
    rw [hassigned, Option.getD_some, List.mem_filter] at hiff
    rw [Bool.eq_iff_iff]
    constructor
    · exact fun hserves => (hiff.2 ⟨ho, hserves⟩).2
    · exact fun hserved => (hiff.1 ⟨ho, hserved⟩).2
  rw [← hsame]
  refine Deployment.assign_single fun o _ hserves hnone => ?_
  obtain ⟨p, -, hid⟩ := serves_scaffoldUnit.1 hserves
  cases hnone.symm.trans hid

/-! ## Plans -/

/-- The plans of each unit's operations can be made again without those of other units. -/
theorem planAll_again {base : Compile.State} (hc : Compile.Complete table base.types) :
    ∀ {assigned : List (String × List Operation)} {plans : List (String × List OperationPlan)}
      {s s' : Compile.State}, Compile.Learned table base s → planAll table assigned s = (.ok plans, s') →
      Compile.Learned table base s' ∧ Compile.Extends s s' ∧ ∀ last, Compile.Learned table base last →
        Compile.Extends s' last → ∀ n t, Compile.Within base last t →
          ∃ t', ((assigned.lookup n).getD []).mapM (OperationPlan.of table) t =
            (.ok ((plans.lookup n).getD []), t')
  | [], _, s, _, hs, h => by
    obtain ⟨rfl, rfl⟩ := Compile.pure_eq_ok.1 h
    exact ⟨hs, .refl s, fun _ _ _ _ t _ => ⟨t, rfl⟩⟩
  | (unit, os) :: assigned, _, s, s', hs, h => by
    rw [planAll, List.mapM_cons] at h
    obtain ⟨_, s₁, hunit, h⟩ := Compile.bind_eq_ok.1 h
    obtain ⟨ps, _, hps, hunit⟩ := Compile.bind_eq_ok.1 hunit
    obtain ⟨rfl, rfl⟩ := Compile.pure_eq_ok.1 hunit
    obtain ⟨rest, _, hrest, h⟩ := Compile.bind_eq_ok.1 h
    obtain ⟨rfl, rfl⟩ := Compile.pure_eq_ok.1 h
    obtain ⟨hs₁, hext₁, hagain₁⟩ := (Compile.sequential_repeats hc).plans os hs hps
    obtain ⟨hs', hext, hagain⟩ := planAll_again hc hs₁ hrest
    refine ⟨hs', hext₁.trans hext, fun last hlast hlater n t ht => ?_⟩
    rw [lookup_cons_ite, lookup_cons_ite]
    split
    · obtain ⟨t', hrun, -⟩ := hagain₁ last hlast (hext.trans hlater) t ht
      exact ⟨t', hrun⟩
    · exact hagain last hlast hlater n t ht

/-- The plans of one unit can be made right after the types. -/
theorem Modelled.plans_again {document : Tree} {types : List NamedType}
    {plans : List (String × List OperationPlan)}
    (h : Modelled document units types assigned plans table operations s s') (n : String) :
    ∃ t, ((assigned.lookup n).getD []).mapM (OperationPlan.of table) s =
      (.ok ((plans.lookup n).getD []), t) := by
  obtain ⟨-, rfl, hc⟩ := Compile.all_run h.compiled
  obtain ⟨hlast, hext, hagain⟩ := planAll_again hc (.refl table s) h.planned
  exact hagain s' hlast (.refl s') n s ⟨hext.types.symm, List.prefix_rfl,
    fun _ _ hk => lookup_extended hext.inlines hk, fun _ _ hk => lookup_extended hext.owners hk⟩

theorem Modelled.model_eq {document : Tree} {types : List NamedType}
    {plans : List (String × List OperationPlan)}
    (h : Modelled document units types assigned plans table operations s s') :
    model document units .start = (.ok (types, assigned, plans), s') := by
  refine Compile.bind_eq_ok.2 ⟨table, _, Compile.lift_eq_ok.2 ⟨h.schemas, rfl⟩, ?_⟩
  refine Compile.bind_eq_ok.2 ⟨types, s, h.compiled, ?_⟩
  refine Compile.bind_eq_ok.2 ⟨operations, s, Compile.lift_eq_ok.2 ⟨h.collected, rfl⟩, ?_⟩
  refine Compile.bind_eq_ok.2 ⟨(), s, Compile.lift_eq_ok.2 ⟨h.unique, rfl⟩, ?_⟩
  refine Compile.bind_eq_ok.2 ⟨assigned, s, Compile.lift_eq_ok.2 ⟨h.served, rfl⟩, ?_⟩
  exact Compile.bind_eq_ok.2 ⟨plans, s', h.planned, rfl⟩

/-- How the description is compiled for a scaffold. -/
theorem Made.modelled_scaffoldUnit (h : Made c assigned table operations s s') (hu : u ∈ c.units) :
    ∃ t, Modelled c.document [c.scaffoldUnit u.name] c.types
      [(u.name, (assigned.lookup u.name).getD [])] [(u.name, c.plansOf u.name)] table operations s t := by
  obtain ⟨t, hplans⟩ := Modelled.plans_again h u.name
  refine ⟨t, h.schemas, h.compiled, h.collected, h.unique, h.assign_scaffoldUnit hu, ?_⟩
  rw [planAll, List.mapM_cons]
  exact Compile.bind_eq_ok.2 ⟨_, t, Compile.bind_eq_ok.2 ⟨_, t, hplans, rfl⟩, rfl⟩

/-! ## The scaffold's compilation -/

section

variable {document : Tree} {withGateway : Bool} {notices : List Notice}

/-- A compilation has the description with its schemas named, and their names. -/
theorem named_of_ofInlined (h : ofInlined document units withGateway = (.ok c, notices)) :
    (∃ r, (Naming.nameSchemas document).result = .ok r) ∧
      c.document = (Naming.nameSchemas document).document ∧
      c.synthesized = (Naming.nameSchemas document).created := by
  unfold ofInlined at h
  generalize Naming.nameSchemas document = named at h ⊢
  dsimp only at h
  split at h
  · cases h
  rename_i r hr
  refine ⟨⟨r, hr⟩, ?_⟩
  generalize (model named.document units).run.run .start = outcome at h
  obtain ⟨_ | ⟨types, assigned, plans⟩, s'⟩ := outcome
  · cases h
  · dsimp only at h
    split at h
    · cases h
      exact ⟨rfl, rfl⟩
    · split at h
      · cases h
      · rename_i ts _
        obtain ⟨hg, -⟩ := Prod.mk.inj h
        cases hd : (Gateway.describe named.document ts).1 with
        | error f => rw [hd] at hg; cases hg
        | ok g => rw [hd] at hg; cases hg; exact ⟨rfl, rfl⟩

variable {others : List Deployment} {types : List NamedType}
  {plans : List (String × List OperationPlan)} {t : Compile.State}

/-- What a description that compiles makes of other units depends on their model alone. -/
theorem ofInlined_again (h : ofInlined document units withGateway = (.ok c, notices))
    (hmodel : model c.document others .start = (.ok (types, assigned, plans), t)) :
    ∃ notices', ofInlined document others false =
      (.ok ⟨c.document, none, types, c.synthesized, others, plans⟩, notices') := by
  obtain ⟨⟨r, hr⟩, hdocument, hsynthesized⟩ := named_of_ofInlined h
  unfold ofInlined
  have hrun : (model (Naming.nameSchemas document).document others).run.run .start =
      (.ok (types, assigned, plans), t) := hdocument ▸ hmodel
  simp only [hr, hrun, hdocument, hsynthesized]
  exact ⟨_, rfl⟩

theorem ofSource_again {disk : Disk} {input : String} {source : Source}
    (h : ofSource disk input source units withGateway = (.ok c, notices))
    (hmodel : model c.document others .start = (.ok (types, assigned, plans), t)) :
    ∃ notices', ofSource disk input source others false =
      (.ok ⟨c.document, none, types, c.synthesized, others, plans⟩, notices') := by
  unfold ofSource ofDocument at h ⊢
  cases hread : source.read disk input with
  | error f => simp only [hread] at h; cases h
  | ok document =>
    simp only [hread] at h ⊢
    cases hversion : Version.check (document.entries?.getD []) with
    | error f => simp only [hversion] at h; cases h
    | ok _ =>
      simp only [hversion] at h ⊢
      cases hinline : Inline.inlineReferences disk.library (source.place disk.home) document with
      | error f => simp only [hinline] at h; cases h
      | ok inlined =>
        simp only [hinline] at h ⊢
        exact ofInlined_again h hmodel

end

/-- A scaffold has the types of the compilation that it was made from, and the plans of its unit. -/
theorem recompiles {disk : Disk} {input : String} {source : Source} {withGateway : Bool}
    {notices : List Notice} (h : ofSource disk input source units withGateway = (.ok c, notices))
    (hu : u ∈ units) : ∃ c' notices',
      ofSource disk input source [c.scaffoldUnit u.name] false = (.ok c', notices') ∧
        c'.types = c.types ∧ c'.plansOf u.name = c.plansOf u.name := by
  obtain ⟨rfl, assigned, table, operations, s, s', hmade, -⟩ := made_of_ofSource h
  obtain ⟨t, hmodelled⟩ := hmade.modelled_scaffoldUnit hu
  obtain ⟨notices', hagain⟩ := ofSource_again h hmodelled.model_eq
  refine ⟨_, notices', hagain, rfl, ?_⟩
  simp only [plansOf, List.lookup_cons_self, Option.getD_some]

/-! ## Two units -/

/-- A description with an operation that responds with a list of names, and with a type. -/
def sampleListing : Tree :=
  .object [
    ("openapi", .text "3.0.0"),
    ("paths", .object [("/a", .object [("get", .object [("operationId", .text "listFoo"),
      ("responses", .object [("200", .object [("description", .text "ok"),
        ("content", .object [("application/json", .object [("schema", .object [
          ("type", .text "array"), ("items", .object [("type", .text "string")])])])])])])])])]),
    ("components", .object [("schemas", .object [("Pet", .object [
      ("properties", .object [("id", .object [("type", .text "string")])])])])])]

/-- A unit that serves one path, and one that serves nothing. -/
def sampleUnits : List Deployment :=
  [⟨"foo", none, some fun o => o.path == "/a"⟩, ⟨"idle", none, some fun _ => false⟩]

/-- What comes of a description that is given on the standard input. -/
def sampleCompilation (units : List Deployment) : Except Failure Compilation × List Notice :=
  ofSource ⟨⟨true, []⟩, [], []⟩ ((Json.print? .compact sampleListing).getD "") .input units false

theorem recompiles_sampleUnits : ∃ c notices c' notices', sampleCompilation sampleUnits = (.ok c, notices) ∧
    (c.plansOf "foo").map (·.id) = ["listFoo"] ∧
    sampleCompilation [c.scaffoldUnit "foo"] = (.ok c', notices') ∧ c'.types = c.types ∧
    c'.plansOf "foo" = c.plansOf "foo" := by
  have hread : (Source.read ⟨⟨true, []⟩, [], []⟩ ((Json.print? .compact sampleListing).getD "")
      .input).toOption = some sampleListing := by decide +kernel
  have hrun : (sampleCompilation sampleUnits).1.toOption.map (fun c =>
      (c.plansOf "foo").map (·.id)) = some ["listFoo"] := by
    rw [sampleCompilation, ofSource_of_read (eq_ok_of_toOption hread)]
    decide +kernel
  obtain ⟨c, hc, hplans⟩ := Option.map_eq_some_iff.1 hrun
  have hok := eq_ok_of_toOption_fst hc
  obtain ⟨c', notices', hagain, htypes, hsame⟩ := recompiles hok List.mem_cons_self
  exact ⟨c, _, c', notices', hok, hplans, hagain, htypes, hsame⟩

end Compilation

end ApiContract
