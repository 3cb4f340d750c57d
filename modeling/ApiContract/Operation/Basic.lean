import ApiContract.Method
import ApiContract.Record

/-!
# Operations

An operation of a description with everything that its path item and its references contribute.
-/

namespace ApiContract

/-- An operation. Security is what the operation asks for, or the whole description where the
operation says nothing. -/
structure Operation where
  id : Option String
  method : Method
  path : String
  summary : Option String
  description : Option String
  tags : List String
  deprecated : Bool
  parameters : List Entries
  requestBody : Option Entries
  responses : Entries
  security : Option (List Entries)
deriving DecidableEq

/-- The fields of an operation before their shapes are checked. -/
structure Operation.Draft where
  id : Tree
  method : Method
  path : Tree
  summary : Tree
  description : Tree
  tags : Tree
  deprecated : Bool
  parameters : List Tree
  requestBody : Tree
  responses : Tree
  security : Tree

namespace Operation

open Record in
/-- Checks the shapes of all fields, in order. -/
def Draft.check (d : Draft) : Except Failure Operation := toFailure do
  let id := field "operation_id" (textOrNone d.id)
  let path := field "path" (text d.path)
  let summary := field "summary" (textOrNone d.summary)
  let description := field "description" (textOrNone d.description)
  let tags := field "tags" (listOf text d.tags)
  let parameters := field "parameters" (listOf map (.array d.parameters))
  let requestBody := field "request_body" (optional map d.requestBody)
  let responses := field "responses" (map d.responses)
  let security := field "security" (optional (listOf map) d.security)
  let (((id, path), summary, description), (tags, parameters), requestBody, responses, security) ←
    both (both (both id path) (both summary description))
      (both (both tags parameters) (both requestBody (both responses security)))
  return {
    id, path, summary, description, tags, parameters, requestBody, responses, security
    method := d.method
    deprecated := d.deprecated }

/-- The method and path of an endpoint. -/
def endpointText (method : Method) (path : String) : String :=
  method.name ++ " " ++ path

/-- An operation in messages: method, path and identifier. -/
def labelOf (method : Method) (path : String) (id : String) : String :=
  endpointText method path ++ " (" ++ (if id.isEmpty then "<no operationId>" else id) ++ ")"

/-- The operation in messages. -/
def label (o : Operation) : String :=
  labelOf o.method o.path (o.id.getD "")

/-- Whether requests need no authentication: one of the alternatives asks for nothing. -/
def isOpen (o : Operation) : Bool :=
  (o.security.getD []).any List.isEmpty

end Operation

end ApiContract
