import ApiContract.Operation.Basic
import ApiContract.Reference
import ApiContract.TypeModel.Compile

/-!
# Collecting operations

Finds every operation of a self-contained description, with parameters, body and responses given by
reference put in place, one step. Operations are sorted by identifier, those without one last, then by
path and method.
-/

namespace ApiContract.Operation

/-- The parameters under a key, each given by reference put in place. -/
def parametersAt (document : Tree) (owner : Entries) : Except Failure (List Tree) :=
  match owner.get? "parameters" with
  | none => .ok []
  | some t => do (← Compile.iterate t).mapM (Reference.dereference document)

/-- The name and location that tell parameters apart. What cannot be compared is not foreseen. -/
def parameterKey (t : Tree) : Except Failure (Scalar × Scalar) := do
  let some parameter := t.entries? | throw .malformed
  let part (key : String) : Except Failure Scalar :=
    match (parameter.get? key).getD (.text "") with
    | .scalar s => .ok s.canonical
    | _ => .error .malformed
  return (← part "name", ← part "in")

/-- Path parameters are required whatever they say. -/
def requirePath (parameter : Entries) : Entries :=
  if parameter.orNull "in" == .text "path" then parameter.set "required" (.bool true) else parameter

/-- The parameters of a path item that the operation does not replace, then the operation's own. -/
def mergeParameters (shared own : List Tree) : Except Failure (List Tree) := do
  let ownKeys ← own.mapM parameterKey
  let kept ← shared.filterM fun t => do return !ownKeys.contains (← parameterKey t)
  return (kept ++ own).map fun t => match t with
    | .map _ es => .map none (requirePath es)
    | t => t

/-- Responses by the text of their status, each given by reference put in place. -/
def responsesOf (document : Tree) : Entries → Entries → Except Failure Entries
  | done, [] => .ok done
  | done, (status, response) :: rest => do
    let response ← Reference.dereference document response
    responsesOf document (done.set status.display response) rest

/-- The tags of an operation, if they can be gone through one by one. -/
def tagsOf (operation : Entries) : Except Failure Tree :=
  match operation.get? "tags" with
  | none => .ok (.array [])
  | some t => return .array (← Compile.iterate t)

/-- One operation of a path item. -/
def ofEntries (document : Tree) (path : Scalar) (method : Method) (shared : List Tree)
    (operation : Entries) : Except Failure Operation := do
  let own ← parametersAt document operation
  let parameters ← mergeParameters shared own
  let requestBody ← Reference.dereference document (operation.orNull "requestBody")
  let responses ← responsesOf document [] (← Compile.entriesOf operation "responses")
  let tags ← tagsOf operation
  Draft.check {
    id := operation.orNull "operationId"
    method := method
    path := .scalar path
    summary := operation.orNull "summary"
    description := operation.orNull "description"
    tags := tags
    deprecated := (operation.orNull "deprecated").truthy
    parameters := parameters
    requestBody := requestBody
    responses := .map none responses
    security := (operation.get? "security").getD (document.getD "security") }

/-- The operations of a path item, in the order of methods. -/
def ofPathItem (document : Tree) (path : Scalar) (item : Tree) : Except Failure (List Operation) := do
  let item ← Reference.dereference document item
  match item.entries? with
  | none => return []
  | some entries =>
    let shared ← parametersAt document entries
    Method.all.filterMapM fun method =>
      match (entries.get? method.key).bind Tree.entries? with
      | none => return none
      | some operation => some <$> ofEntries document path method shared operation

/-- Whether one operation comes before another or beside it. -/
def precedes (a b : Operation) : Bool :=
  let key (o : Operation) := (o.id.isNone, o.id.getD "", o.path, o.method.rank)
  let (noneA, idA, pathA, rankA) := key a
  let (noneB, idB, pathB, rankB) := key b
  if noneA != noneB then noneB
  else if idA ≠ idB then idA < idB
  else if pathA ≠ pathB then pathA < pathB
  else rankA ≤ rankB

/-- Every operation of a description, sorted. -/
def collect (document : Tree) : Except Failure (List Operation) := do
  let some entries := document.entries? | throw .malformed
  let paths ← Compile.entriesOf entries "paths"
  let operations ← paths.mapM fun (path, item) => ofPathItem document path item
  return operations.flatten.mergeSort precedes

/-- The identifiers that more than one operation has, sorted. -/
def duplicateIds (operations : List Operation) : List String :=
  let ids := operations.filterMap (·.id)
  ((ids.filter fun id => 1 < ids.count id).eraseDups).mergeSort fun a b => a ≤ b

/-- Refuses operations that share an identifier. -/
def ensureUniqueIds (operations : List Operation) : Except Failure Unit :=
  let duplicates := duplicateIds operations
  if duplicates.isEmpty then .ok ()
  else .error (.duplicateOperationIds duplicates
    ((operations.filter fun o => o.id.any duplicates.contains).map label))

end ApiContract.Operation
