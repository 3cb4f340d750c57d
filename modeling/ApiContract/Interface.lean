import ApiContract.Models
import ApiContract.Plan.Basic
import ApiContract.Text.NameChar

/-!
# Interfaces

What a unit needs to serve its operations: their plans and the models of their types. Handlers of a unit's
operations have different names, and each has a signature: arguments with different names, whose types
are known.
-/

namespace ApiContract

namespace OperationPlan

/-- The arguments of an operation's handler, the handler itself first. -/
def handlerSignature (p : OperationPlan) : List String :=
  "self" :: p.parameters.map (·.argument) ++
    (if p.requestBody.isSome then ["request_body"] else []) ++
    ["headers", "request_context", "context"] ++ (if p.authenticated then ["auth_ok"] else [])

/-- The description of an operation's handler. -/
def handlerDoc (p : OperationPlan) : String :=
  let text (t : Option String) := (t.filter fun s => !s.isEmpty)
  "\n".intercalate ([(text p.summary).getD p.label, ""] ++
    ((text p.description).map fun d => [Text.trim d, ""]).getD [] ++
    ["Endpoint: `" ++ p.method.name ++ " " ++ p.path ++ "`", "Operation ID: `" ++ p.id ++ "`"])

end OperationPlan

/-- The operations of a unit and the models that all units share. -/
structure Interface where
  unit : String
  models : Models
  operations : List OperationPlan
deriving DecidableEq

namespace Interface

/-- Names that no handler may have. -/
def reservedNames : List String :=
  ["__module__", "__qualname__", "__doc__", "__compiled_api__"]

/-- Refuses an argument of an unknown type. That its name is none is not foreseen. -/
def ensureArgument (models : Models) (p : ParameterPlan) : Except Failure Unit := do
  models.ensureKnown p.type
  if !Text.isIdentifier p.argument || Text.keywords.contains p.argument then throw .malformed

/-- Refuses a body of an unknown type. That a body of a type has none is not foreseen. -/
def ensureBody (models : Models) (b : BodyPlan) : Except Failure Unit :=
  match b.format, b.type with
  | .jsonTyped, some type => models.ensureKnown type
  | .jsonTyped, none => .error .malformed
  | _, _ => .ok ()

/-- Refuses an operation whose handler can have no signature. That two arguments share a name is not
foreseen. -/
def ensureSignature (models : Models) (p : OperationPlan) : Except Failure Unit := do
  p.parameters.forM (ensureArgument models)
  if let some b := p.requestBody then ensureBody models b.body
  if !p.handlerSignature.Nodup then throw .malformed

/-- Refuses handlers that share a name, and those that can have no signature. -/
def ensureHandlers (unit : String) (models : Models) :
    List String → List OperationPlan → Except Failure Unit
  | _, [] => .ok ()
  | taken, p :: rest => do
    if taken.contains p.handler then throw (.handlerNameClash unit p.handler)
    ensureSignature models p
    ensureHandlers unit models (p.handler :: taken) rest

/-- The interface of a unit's operations. -/
def of (unit : String) (models : Models) (operations : List OperationPlan) :
    Except Failure Interface := do
  ensureHandlers unit models reservedNames operations
  return ⟨unit, models, operations⟩

/-- The plan of an operation. -/
def operation? (i : Interface) (id : String) : Option OperationPlan :=
  i.operations.find? fun p => p.id = id

/-- The plan of the operation with a handler. -/
def handled? (i : Interface) (handler : String) : Option OperationPlan :=
  i.operations.find? fun p => p.handler = handler

/-- The operation whose responses have a type name; of several, the last one. -/
def response? (i : Interface) (name : String) : Option OperationPlan :=
  i.operations.reverse.find? fun p => p.responseType = name

/-- What an implementation must provide: a handler for each operation, and an answer to its failures. -/
def requirements (i : Interface) : List String :=
  ("respond_to_handler_error" :: i.operations.map (·.handler)).mergeSort fun a b => a ≤ b

/-- A short form for logs. -/
def literal (i : Interface) : String :=
  "CompiledApi(" ++ Text.quoted i.unit ++ ", operations=" ++ toString i.operations.length ++ ")"

end Interface

end ApiContract
