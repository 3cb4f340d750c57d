import ApiContract.Plan.Basic
import ApiContract.Serve.Body

/-!
# Answers

What the implementation of an operation answers: one of the operation's responses with its body, and with
its status where the response leaves that open.
-/

namespace ApiContract.Serve

/-- An answer to a request for an operation. -/
structure Answer where
  operation : String
  typeName : String
  response : ResponsePlan
  status : Int
  body : Value

/-- Why an answer cannot be made. -/
inductive AnswerFault where
  | noResponse (typeName : String) (responses : List String)
  | statusType (typeName : String)
  | statusRange (status : Int)
  | unknownResponse (name : String)
  | argumentCount
deriving DecidableEq, Repr

namespace AnswerFault

/-- The wording of a fault; a wrong name or a wrong number of arguments has none. -/
def message? : AnswerFault → Option String
  | .noResponse typeName responses =>
    some (typeName ++ " cannot be instantiated; use one of its variants (" ++
      ", ".intercalate responses ++ ")")
  | .statusType typeName => some ("status code must be an int, not " ++ typeName)
  | .statusRange status => some ("invalid HTTP status code " ++ toString status)
  | .unknownResponse _ | .argumentCount => none

end AnswerFault

namespace Answer

/-- Checks a status that is chosen for an answer. -/
def statusOf (v : Value) : Except AnswerFault Int :=
  match v with
  | .scalar (.int n) => if 100 ≤ n ∧ n ≤ 599 then .ok n else .error (.statusRange n)
  | v => .error (.statusType v.typeName)

/-- The status and the body that arguments give: first a status if the response leaves it open, then a
body if it has one. -/
def take (response : ResponsePlan) (arguments : List Value) : Except AnswerFault (Int × Value) :=
  match response.status, response.body, arguments with
  | some status, none, [] => .ok (status, .null)
  | some status, some _, [body] => .ok (status, body)
  | none, none, [status] => do return (← statusOf status, .null)
  | none, some _, [status, body] => do return (← statusOf status, body)
  | _, _, _ => .error .argumentCount

/-- The last response of a name. -/
def responseOf? (plan : OperationPlan) (name : String) : Option ResponsePlan :=
  plan.responses.reverse.find? fun r => r.name = name

/-- The names of an operation's responses. -/
def responseNames (plan : OperationPlan) : List String :=
  (plan.responses.map (·.name)).eraseDups

/-- An operation's answer by the name of a response. -/
def of (plan : OperationPlan) (name : Option String) (arguments : List Value) :
    Except AnswerFault Answer := do
  let some name := name | throw (.noResponse plan.responseType (responseNames plan))
  let some response := responseOf? plan name | throw (.unknownResponse name)
  let (status, body) ← take response arguments
  return ⟨plan.id, plan.responseType, response, status, body⟩

/-- The literal form of an answer. -/
def literal (a : Answer) : String :=
  a.typeName ++ "." ++ a.response.name ++ "(" ++ ", ".intercalate
    ((if a.response.status.isNone then [toString a.status] else []) ++
      (if a.response.body.isSome then [a.body.literal] else [])) ++ ")"

/-- Whether answers are the same response of the same operation with the same status. -/
def alike (a b : Answer) : Bool :=
  a.operation == b.operation && a.response.name == b.response.name && a.status == b.status

/-- Whether answers are equal: alike, and with the same body. -/
def same (a b : Answer) : Bool :=
  a.alike b && a.body.same b.body

/-- The response that an answer is, with further headers behind its own. No further headers are `none`,
and an inner `none` stands for ones that cannot be sent. -/
def toResponse (m : Models) (a : Answer) (headers : Option (Option Http.Headers)) :
    Except Raised Http.Response := do
  let (own, body) ← match a.response.body with
    | none => pure (Http.Headers.empty, Http.Payload.none)
    | some plan => do
      let body ← writeBody m plan a.body
      pure (Http.Headers.ofList [("content-type", plan.mediaType)], body)
  let some further := headers.getD (some .empty) | throw .unforeseen
  if !own.items.all (fun i => Http.isAscii i.2) then throw .unforeseen
  return ⟨a.status, own.append further, body⟩

end Answer

end ApiContract.Serve
