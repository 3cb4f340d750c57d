import ApiContract.Operation.Basic
import ApiContract.Plan.Request
import ApiContract.Plan.Response

/-!
# Plans of operations

Everything that is needed to serve an operation: its handler, its parameters and bodies, its
responses, and whether its requests are authenticated.
-/

namespace ApiContract

/-- The plan of an operation. -/
structure OperationPlan where
  id : String
  handler : String
  responseType : String
  method : Method
  path : String
  summary : Option String
  description : Option String
  tags : List String
  parameters : List ParameterPlan
  requestBody : Option RequestBodyPlan
  responses : List ResponsePlan
  authenticated : Bool
deriving DecidableEq, Repr

namespace OperationPlan

/-- The methods of every handler class. -/
def handlerMethods : List String :=
  ["dispatch", "respond_to_event_error", "respond_to_handler_error"]

/-- The operation in messages: method, path and identifier. -/
def label (p : OperationPlan) : String :=
  Operation.endpointText p.method p.path ++ " (" ++ p.id ++ ")"

/-- The plan of an operation, whose document's schemas have been compiled. -/
def of (table : Entries) (o : Operation) : Compile.Run OperationPlan := do
  let id := o.id.getD ""
  if id.isEmpty then throw (.noOperationId o.label)
  let requestBody ← match o.requestBody with
    | none => pure none
    | some body => RequestBodyPlan.of table o.label (.map none body)
  let parameters ← ParameterPlan.all table o.label (o.parameters.map (Tree.map none))
  let responses ← ResponsePlan.all table o.label o.responses
  return {
    id, requestBody, parameters, responses
    handler := Text.identifier id handlerMethods
    responseType := Text.typeIdentifier id ++ "Response"
    method := o.method
    path := o.path
    summary := o.summary
    description := o.description
    tags := o.tags
    authenticated := !o.isOpen }

end OperationPlan

end ApiContract
