import ApiContract.Compilation
import ApiContract.Proofs.Compile.Outcome
import ApiContract.Proofs.Deployment

/-!
# The parts of a compilation

`Compilation.Made` says how everything in a compilation has come about: the types from the table of
schemas, the operations from the description, the plans from the operations that the units have been
assigned. Every compilation that ends well has been made so (`Compilation.made_of_ofSource`), and a unit
has plans of the operations that it has been assigned (`Compilation.Made.exists_plan`).
-/

namespace ApiContract

namespace OperationPlan

/-- What the plan of an operation has of it, apart from what is planned for its requests and responses. -/
structure Parts (o : Operation) (p : OperationPlan) : Prop where
  id : o.id = some p.id
  id_ne : p.id ≠ ""
  handler : p.handler = Text.identifier p.id handlerMethods
  responseType : p.responseType = Text.typeIdentifier p.id ++ "Response"

theorem parts_of {table : Entries} {o : Operation} {p : OperationPlan} {s s' : Compile.State}
    (h : of table o s = (.ok p, s')) : Parts o p := by
  unfold of at h
  dsimp only at h
  split at h
  · cases h
  · rename_i hid
    have hp : p.id = o.id.getD "" ∧ p.handler = Text.identifier (o.id.getD "") handlerMethods ∧
        p.responseType = Text.typeIdentifier (o.id.getD "") ++ "Response" := by
      generalize o.requestBody = body at h
      cases body <;>
      · obtain ⟨_, _, _, h⟩ := Compile.bind_eq_ok.1 h
        obtain ⟨_, _, _, h⟩ := Compile.bind_eq_ok.1 h
        obtain ⟨_, _, _, h⟩ := Compile.bind_eq_ok.1 h
        obtain ⟨rfl, -⟩ := Compile.pure_eq_ok.1 h
        exact ⟨rfl, rfl, rfl⟩
    obtain ⟨hpid, hhandler, htype⟩ := hp
    refine ⟨?_, fun hempty => hid ?_, hpid ▸ hhandler, hpid ▸ htype⟩
    · cases ho : o.id with
      | none => simp [ho] at hid
      | some id => rw [hpid, ho, Option.getD_some]
    · rw [← hpid, hempty]
      rfl

theorem id_of {table : Entries} {o : Operation} {p : OperationPlan} {s s' : Compile.State}
    (h : of table o s = (.ok p, s')) : o.id = some p.id :=
  (parts_of h).id

end OperationPlan

namespace Compilation

/-- How types and plans have been made of a description. The types are compiled from the state
`.start`, the plans from the state `s` after them. -/
structure Modelled (document : Tree) (units : List Deployment) (types : List NamedType)
    (assigned : List (String × List Operation)) (plans : List (String × List OperationPlan))
    (table : Entries) (operations : List Operation) (s s' : Compile.State) : Prop where
  schemas : schemaTable document = .ok table
  compiled : Compile.all table .start = (.ok types, s)
  collected : Operation.collect document = .ok operations
  unique : Operation.ensureUniqueIds operations = .ok ()
  served : Deployment.assign operations units = .ok assigned
  planned : planAll table assigned s = (.ok plans, s')

/-- How a compilation has come about. -/
abbrev Made (c : Compilation) (assigned : List (String × List Operation)) (table : Entries)
    (operations : List Operation) (s s' : Compile.State) : Prop :=
  Modelled c.document c.units c.types assigned c.plans table operations s s'

/-- How the gateway's description has come about. -/
def Described (c : Compilation) (assigned : List (String × List Operation)) : Prop :=
  ∃ ts, targets c.units assigned = .ok ts ∧
    ∃ g, (Gateway.describe c.document ts).1 = .ok g ∧ c.gateway = some g

variable {c : Compilation} {document : Tree} {units : List Deployment} {withGateway : Bool}
  {notices : List Notice}

theorem modelled_of_model {types : List NamedType} {assigned : List (String × List Operation)}
    {plans : List (String × List OperationPlan)} {s' : Compile.State}
    (h : model document units .start = (.ok (types, assigned, plans), s')) :
    ∃ table operations s, Modelled document units types assigned plans table operations s s' := by
  obtain ⟨table, _, h₁, h⟩ := Compile.bind_eq_ok.1 h
  obtain ⟨hschemas, rfl⟩ := Compile.lift_eq_ok.1 h₁
  obtain ⟨types', s, hcompiled, h⟩ := Compile.bind_eq_ok.1 h
  obtain ⟨operations, _, h₁, h⟩ := Compile.bind_eq_ok.1 h
  obtain ⟨hcollected, rfl⟩ := Compile.lift_eq_ok.1 h₁
  obtain ⟨_, _, h₁, h⟩ := Compile.bind_eq_ok.1 h
  obtain ⟨hunique, rfl⟩ := Compile.lift_eq_ok.1 h₁
  obtain ⟨assigned', _, h₁, h⟩ := Compile.bind_eq_ok.1 h
  obtain ⟨hserved, rfl⟩ := Compile.lift_eq_ok.1 h₁
  obtain ⟨plans', s₁, hplanned, h⟩ := Compile.bind_eq_ok.1 h
  obtain ⟨hparts, rfl⟩ := Compile.pure_eq_ok.1 h
  cases hparts
  exact ⟨table, operations, s, hschemas, hcompiled, hcollected, hunique, hserved, hplanned⟩

theorem made_of_ofInlined (h : ofInlined document units withGateway = (.ok c, notices)) :
    c.units = units ∧ ∃ assigned table operations s s', Made c assigned table operations s s' ∧
      (withGateway = true → Described c assigned) := by
  unfold ofInlined at h
  generalize Naming.nameSchemas document = named at h
  dsimp only at h
  split at h
  · cases h
  generalize hm : (model named.document units).run.run .start = outcome at h
  obtain ⟨r, s'⟩ := outcome
  cases r with
  | error f => cases h
  | ok parts =>
    obtain ⟨types, assigned, plans⟩ := parts
    obtain ⟨table, operations, s, hmodelled⟩ := modelled_of_model hm
    dsimp only at h
    cases withGateway with
    | false =>
      cases h
      exact ⟨rfl, assigned, table, operations, s, s', hmodelled, fun h => nomatch h⟩
    | true =>
      rw [if_neg (by decide)] at h
      split at h
      · cases h
      · rename_i ts hts
        obtain ⟨hg, -⟩ := Prod.mk.inj h
        generalize hd : (Gateway.describe named.document ts).1 = r at hg
        cases r with
        | error f => cases hg
        | ok g =>
          cases hg
          exact ⟨rfl, assigned, table, operations, s, s', hmodelled, fun _ => ⟨ts, hts, g, hd, rfl⟩⟩

/-- How everything in a compilation that ends well has come about. -/
theorem made_of_ofSource {disk : Disk} {input : String} {source : Source}
    (h : ofSource disk input source units withGateway = (.ok c, notices)) :
    c.units = units ∧ ∃ assigned table operations s s', Made c assigned table operations s s' ∧
      (withGateway = true → Described c assigned) := by
  unfold ofSource at h
  split at h
  · cases h
  unfold ofDocument at h
  split at h
  · cases h
  split at h
  · cases h
  exact made_of_ofInlined h

/-- A description that can be read is compiled as a document in its place. -/
theorem ofSource_of_read {disk : Disk} {input : String} {source : Source}
    (h : source.read disk input = .ok document) : ofSource disk input source units withGateway =
      ofDocument disk.library (source.place disk.home) document units withGateway := by
  rw [ofSource, h]

theorem lookup_planAll {table : Entries} {assigned : List (String × List Operation)}
    {plans : List (String × List OperationPlan)} {s s' : Compile.State}
    (h : planAll table assigned s = (.ok plans, s')) (n : String) :
    List.Forall₂ (fun o p => ∃ s s', OperationPlan.of table o s = (.ok p, s'))
      ((assigned.lookup n).getD []) ((plans.lookup n).getD []) := by
  have hall := Compile.mapM_eq_ok h
  clear h
  induction hall with
  | nil => exact .nil
  | cons hunit _ ih =>
    obtain ⟨_, _, hunit⟩ := hunit
    obtain ⟨ps, _, hps, hunit⟩ := Compile.bind_eq_ok.1 hunit
    obtain ⟨rfl, -⟩ := Compile.pure_eq_ok.1 hunit
    rw [lookup_cons_ite, lookup_cons_ite]
    split
    · exact Compile.mapM_eq_ok hps
    · exact ih

/-- A unit has a plan of an identifier if it has been assigned the operation. -/
theorem Made.exists_plan {assigned : List (String × List Operation)} {table : Entries}
    {operations : List Operation} {s s' : Compile.State} (h : Made c assigned table operations s s')
    (unit id : String) : (∃ p ∈ c.plansOf unit, p.id = id) ↔
      ∃ o ∈ (assigned.lookup unit).getD [], o.id = some id := by
  have hplans := lookup_planAll h.planned unit
  constructor
  · rintro ⟨p, hp, rfl⟩
    obtain ⟨o, ho, _, _, hof⟩ := mem_of_forall₂_right hplans hp
    exact ⟨o, ho, OperationPlan.id_of hof⟩
  · rintro ⟨o, ho, hid⟩
    obtain ⟨p, hp, _, _, hof⟩ := mem_of_forall₂_left hplans ho
    exact ⟨p, hp, Option.some.inj ((OperationPlan.id_of hof).symm.trans hid)⟩

end Compilation

end ApiContract
