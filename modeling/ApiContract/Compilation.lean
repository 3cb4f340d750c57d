import ApiContract.Disk
import ApiContract.Document.Inline
import ApiContract.Document.Source
import ApiContract.Gateway
import ApiContract.Interface
import ApiContract.Naming
import ApiContract.Operation.Collect

/-!
# Compilation

From a description and the units that serve it to everything that is made of them. The description is
inlined and its schemas are named; then come the types, the operations of each unit with their plans,
and the gateway's description where it is asked for. The first failure ends the compilation, and what
was reported before it is kept.
-/

namespace ApiContract

/-- What a description compiles to. -/
structure Compilation where
  /-- The description, inlined and with every schema named. -/
  document : Tree
  gateway : Option Tree
  types : List NamedType
  /-- The names that anonymous schemas were given. -/
  synthesized : List String
  units : List Deployment
  /-- The plans of each unit's operations. -/
  plans : List (String × List OperationPlan)

namespace Compilation

/-- Adds a unit; names are unique. -/
def addUnit (units : List Deployment) (unit : Deployment) : Except Failure (List Deployment) :=
  if units.any fun u => u.name = unit.name then .error (.duplicateUnit unit.name)
  else .ok (units ++ [unit])

/-- The table of schemas of a description. -/
def schemaTable (document : Tree) : Except Failure Entries :=
  let components := document.getD "components"
  if !components.truthy then .ok []
  else match components with
    | .map _ es =>
      match Entries.orNull es "schemas" with
      | .map _ schemas => .ok schemas
      | t => if t.truthy then .error .malformed else .ok []
    | _ => .error .malformed

/-- The function of every operation of a unit. Units with operations must have one. -/
def targets (units : List Deployment) (assigned : List (String × List Operation)) :
    Except Failure (List (String × Target)) := do
  let parts ← units.mapM fun u => do
    let operations := (assigned.lookup u.name).getD []
    match u.target with
    | some target => return operations.filterMap fun o => o.id.map fun id => (id, target)
    | none => if operations.isEmpty then return [] else throw (.unitWithoutTarget u.name)
  return parts.flatten

/-- The plans of each unit's operations, in order. -/
def planAll (table : Entries) (assigned : List (String × List Operation)) :
    Compile.Run (List (String × List OperationPlan)) :=
  assigned.mapM fun (unit, operations) => do
    return (unit, ← operations.mapM (OperationPlan.of table))

/-- The types, the operations of each unit, and their plans. -/
def model (document : Tree) (units : List Deployment) :
    Compile.Run (List NamedType × List (String × List Operation) ×
      List (String × List OperationPlan)) := do
  let table ← Compile.lift (schemaTable document)
  let types ← Compile.all table
  let operations ← Compile.lift (Operation.collect document)
  Compile.lift (Operation.ensureUniqueIds operations)
  let assigned ← Compile.lift (Deployment.assign operations units)
  let plans ← planAll table assigned
  return (types, assigned, plans)

/-- Compiles a description that has been inlined. -/
def ofInlined (document : Tree) (units : List Deployment) (withGateway : Bool) :
    Except Failure Compilation × List Notice :=
  let named := Naming.nameSchemas document
  match named.result with
  | .error f => (.error f, named.notices)
  | .ok _ =>
    let (r, state) := (model named.document units).run.run .start
    let notices := named.notices ++ state.notices
    match r with
    | .error f => (.error f, notices)
    | .ok (types, assigned, plans) =>
      let done (gateway : Option Tree) : Compilation :=
        ⟨named.document, gateway, types, named.created, units, plans⟩
      if !withGateway then (.ok (done none), notices)
      else match targets units assigned with
        | .error f => (.error f, notices)
        | .ok targets =>
          let (r, more) := Gateway.describe named.document targets
          (r.map fun t => done (some t), notices ++ more)

/-- Compiles the description at a place, given the documents that it may refer to. -/
def ofDocument (library : Library) (root : Place) (document : Tree) (units : List Deployment)
    (withGateway : Bool) : Except Failure Compilation × List Notice :=
  match Version.check (document.entries?.getD []) with
  | .error f => (.error f, [])
  | .ok _ =>
    match Inline.inlineReferences library root document with
    | .error f => (.error f, [])
    | .ok inlined => ofInlined inlined units withGateway

/-- Compiles the description of a source. -/
def ofSource (disk : Disk) (input : String) (source : Source) (units : List Deployment)
    (withGateway : Bool) : Except Failure Compilation × List Notice :=
  match source.read disk input with
  | .error f => (.error f, [])
  | .ok document => ofDocument disk.library (source.place disk.home) document units withGateway

/-- The plans of a unit's operations. -/
def plansOf (c : Compilation) (unit : String) : List OperationPlan :=
  (c.plans.lookup unit).getD []

/-- The interface of one unit, with the models of all types. -/
def interface (c : Compilation) (unit : String) : Except Failure Interface := do
  Interface.of unit (← Models.ofTypes c.types) (c.plansOf unit)

end Compilation

end ApiContract
