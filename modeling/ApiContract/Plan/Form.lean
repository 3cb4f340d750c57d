import ApiContract.Plan.Basic
import ApiContract.TypeModel.Form

/-!
# The form of plans

Plans in the form of trees, in which tools hand them on: `toTree` leaves out what is absent, and
`ofTree` takes it as absent.
-/

namespace ApiContract

open Record

namespace BodyFormat

/-- The code of a format. -/
def code : BodyFormat → String
  | .jsonValue => "json_value"
  | .jsonText => "json_string"
  | .jsonOctets => "json_bytes"
  | .jsonTyped => "json_typed"
  | .octets => "bytes"
  | .text => "text"

/-- The codes of all formats. -/
def codes : List String :=
  ["json_value", "json_string", "json_bytes", "json_typed", "bytes", "text"]

/-- The format of a code. -/
def ofCode (code : String) : BodyFormat :=
  match code with
  | "json_value" => .jsonValue
  | "json_string" => .jsonText
  | "json_bytes" => .jsonOctets
  | "json_typed" => .jsonTyped
  | "text" => .text
  | _ => .octets

end BodyFormat

/-- The form of the plan of a body. -/
def BodyPlan.toTree (b : BodyPlan) : Tree := Tree.fields [
  ("mime_type", some (.text b.mediaType)), ("strategy", some (.text b.format.code)),
  ("type", b.type.map TypeExpr.toTree)]

/-- The plan of a body that a tree is. -/
def BodyPlan.ofTree (t : Tree) : Check BodyPlan := do
  let es ← entriesOf "BodyPlan" t
  let (mediaType, code, type) ← both (required es "mime_type" text)
    (both (required es "strategy" (choice BodyFormat.codes))
      (withDefault es "type" none (optional TypeExpr.ofTree)))
  return ⟨mediaType, .ofCode code, type⟩

/-- The form of the plan of a parameter. -/
def ParameterPlan.toTree (p : ParameterPlan) : Tree := Tree.fields [
  ("name", some (.text p.name)), ("python_name", some (.text p.argument)),
  ("location", some (.text p.place.name)), ("required", some (.scalar (.bool p.required))),
  ("type", some p.type.toTree), ("parse", some (.scalar (.bool p.parsed))),
  ("is_array", Tree.flag p.isArray), ("description", Tree.textField p.description)]

/-- The plan of a parameter that a tree is. -/
def ParameterPlan.ofTree (t : Tree) : Check ParameterPlan := do
  let es ← entriesOf "ParameterPlan" t
  let ((name, argument), (place, required), (type, parsed), isArray, description) ←
    both (both (Record.required es "name" text) (Record.required es "python_name" text))
      (both (both (Record.required es "location" (choice (ParameterPlace.all.map (·.name))))
          (Record.required es "required" looseTruth))
        (both (both (Record.required es "type" TypeExpr.ofTree) (Record.required es "parse" looseTruth))
          (both (withDefault es "is_array" false looseTruth)
            (withDefault es "description" none textOrNone))))
  return { name, argument, required, type, parsed, isArray, description
           place := (ParameterPlace.ofName? place).getD .query }

/-- The form of the plan of a request body. -/
def RequestBodyPlan.toTree (b : RequestBodyPlan) : Tree := Tree.fields [
  ("body", some b.body.toTree), ("required", Tree.flag b.required),
  ("description", Tree.textField b.description)]

/-- The plan of a request body that a tree is. -/
def RequestBodyPlan.ofTree (t : Tree) : Check RequestBodyPlan := do
  let es ← entriesOf "RequestBodyPlan" t
  let (body, required, description) ← both (Record.required es "body" BodyPlan.ofTree)
    (both (withDefault es "required" false looseTruth) (withDefault es "description" none textOrNone))
  return { body, required, description }

/-- The fields of the form of the plan of a response. -/
def ResponsePlan.toFields (r : ResponsePlan) : List (String × Option Tree) := [
  ("name", some (.text r.name)), ("status_code", r.status.map fun n => .scalar (.int n)),
  ("body", r.body.map BodyPlan.toTree), ("description", Tree.textField r.description)]

/-- The plan of a response that a tree is. -/
def ResponsePlan.ofTree (t : Tree) : Check ResponsePlan := do
  let es ← entriesOf "ResponseVariant" t
  let ((name, status), body, description) ← both
    (both (required es "name" text) (withDefault es "status_code" none (optional looseWhole)))
    (both (withDefault es "body" none (optional BodyPlan.ofTree))
      (withDefault es "description" none textOrNone))
  return { name, body, description, status := status.map Int.toNat }

/-- The fields of the form of the plan of an operation. -/
def OperationPlan.toFields (p : OperationPlan) : List (String × Option Tree) := [
  ("operation_id", some (.text p.id)), ("handler_name", some (.text p.handler)),
  ("response_type_name", some (.text p.responseType)), ("method", some (.text p.method.key)),
  ("path", some (.text p.path)), ("summary", Tree.textField p.summary),
  ("description", Tree.textField p.description), ("tags", Tree.many (p.tags.map Tree.text)),
  ("parameters", Tree.many (p.parameters.map ParameterPlan.toTree)),
  ("request_body", p.requestBody.map RequestBodyPlan.toTree),
  ("responses", Tree.many (p.responses.map fun r => Tree.fields r.toFields)),
  ("authenticated", if p.authenticated then none else some (.scalar (.bool false)))]

/-- The plan of an operation that a tree is. -/
def OperationPlan.ofTree (t : Tree) : Check OperationPlan := do
  let es ← entriesOf "OperationPlan" t
  let ((id, handler, responseType), (method, path), (summary, description, tags), parameters,
      requestBody, responses, authenticated) ←
    both (both (required es "operation_id" text)
        (both (required es "handler_name" text) (required es "response_type_name" text)))
      (both (both (required es "method" (choice (Method.all.map (·.key)))) (required es "path" text))
        (both (both (withDefault es "summary" none textOrNone)
            (both (withDefault es "description" none textOrNone)
              (withDefault es "tags" [] (listOf text))))
          (both (withDefault es "parameters" [] (listOf ParameterPlan.ofTree))
            (both (withDefault es "request_body" none (optional RequestBodyPlan.ofTree))
              (both (withDefault es "responses" [] (listOf ResponsePlan.ofTree))
                (withDefault es "authenticated" true looseTruth))))))
  return { id, handler, responseType, path, summary, description, tags, parameters, requestBody,
           responses, authenticated
           method := (Method.ofKey? method).getD .get }

end ApiContract
