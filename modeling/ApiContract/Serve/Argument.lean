import ApiContract.Http.Request
import ApiContract.Plan.Request
import ApiContract.Serve.Refusal
import ApiContract.Text.Percent
import ApiContract.Value.Conform
import ApiContract.Value.Lexical

/-!
# Arguments

Takes the values of an operation's parameters from a request. Texts in paths are percent-encoded, those
in queries are decoded already, and headers are handed on as they are.
-/

namespace ApiContract.Serve

/-- The value of a parameter that a text gives. -/
def readParameter (m : Models) (plan : ParameterPlan) (refuse : String → Refusal) (text : String) :
    Except Raised Value :=
  if !plan.parsed then .ok (.text text)
  else
    let type := match plan.type with
      | .array item _ _ => if plan.isArray then item else plan.type
      | t => t
    match m.parse type text with
    | .ok v => .ok v
    | .error (.notAMember text) =>
      .error (.refusalFrom (.notAMember text) (refuse (Models.notAMemberMessage (.text text))))
    | .error .noForm => .error (.refusalFrom (.mismatch []) (refuse "malformed value"))
    | .error .unknownType => .error .unforeseen
    | .error (.unknownPart n) => .error (.failure (.unknownTypeName n))

/-- The text of a parameter in the path. -/
def pathText (plan : ParameterPlan) (text : String) : Except Raised String :=
  match Text.Percent.decode? text with
  | some s => .ok s
  | none => .error (.refusalFrom .encoding (.pathParameter plan.name "octets that are no UTF-8"))

/-- The value of a header field. -/
def headerValue (headers : Http.Headers) (name : String) : Except Raised (Option String) :=
  if headers.answers name then .ok (headers.get? name) else .error .unforeseen

/-- The value of a parameter in a request, if it is there. -/
def findArgument (m : Models) (plan : ParameterPlan) (request : Http.Request)
    (headers : Http.Headers) : Except Raised (Option Value) :=
  match plan.place with
  | .path =>
    match request.pathParameters.lookup plan.name with
    | none => .ok none
    | some text => do
      let text ← pathText plan text
      some <$> readParameter m plan (.pathParameter plan.name) text
  | .query =>
    let read := readParameter m plan (.queryParameter plan.name)
    if plan.isArray then
      match request.queryValues plan.name with
      | none => .ok none
      | some texts => (fun vs => some (.list vs)) <$> texts.mapM read
    else
      match request.queryValue plan.name with
      | none => .ok none
      | some text => some <$> read text
  | _ => do return (← headerValue headers plan.name).map .text

/-- The argument for a parameter: null if it is absent and need not be there. -/
def argument (m : Models) (plan : ParameterPlan) (request : Http.Request) (headers : Http.Headers) :
    Except Raised Value := do
  match ← findArgument m plan request headers with
  | some v => return v
  | none => if plan.required then throw (.refusal (.noParameter plan.name)) else return .null

/-- The arguments for all parameters. -/
def arguments (m : Models) (plans : List ParameterPlan) (request : Http.Request)
    (headers : Http.Headers) : Except Raised (List (String × Value)) :=
  plans.mapM fun p => do return (p.argument, ← argument m p request headers)

end ApiContract.Serve
