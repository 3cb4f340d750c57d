import ApiContract.Operation.Basic
import ApiContract.TypeModel.Form

/-!
# The form of operations

Operations in the form of trees, in which tools hand them on.
-/

namespace ApiContract.Operation

/-- A list of maps, present only if it has items. -/
def maps (ms : List Entries) : Option Tree :=
  Tree.many (ms.map (Tree.map none))

/-- The fields of the form of an operation. -/
def toFields (o : Operation) : List (String × Option Tree) :=
  [("operation_id", Tree.textField o.id), ("method", some (.text o.method.key)),
    ("path", some (.text o.path)), ("summary", Tree.textField o.summary),
    ("description", Tree.textField o.description), ("tags", Tree.many (o.tags.map Tree.text)),
    ("deprecated", Tree.flag o.deprecated), ("parameters", maps o.parameters),
    ("request_body", o.requestBody.map (Tree.map none)),
    ("responses", if o.responses.isEmpty then none else some (.map none o.responses)),
    ("security", o.security.map fun rs => .array (rs.map (Tree.map none)))]

/-- The operation that a tree is. -/
def ofTree (t : Tree) : Except Failure Operation :=
  Draft.check {
    id := t.getD "operation_id"
    method := (((t.get? "method").bind Tree.text?).bind Method.ofKey?).getD .get
    path := t.getD "path"
    summary := t.getD "summary"
    description := t.getD "description"
    tags := (t.get? "tags").getD (.array [])
    deprecated := (t.getD "deprecated").truthy
    parameters := ((t.getD "parameters").items?).getD []
    requestBody := t.getD "request_body"
    responses := (t.get? "responses").getD (.object [])
    security := t.getD "security" }

end ApiContract.Operation
