import ApiContract.Interface
import ApiContract.Serve.Argument
import ApiContract.Serve.Hooks

/-!
# Dispatching requests

Every request is answered. It is routed by the name of its operation; then its arguments and body are
taken, it is authenticated where the operation asks for that, and the handler runs within the wrapping
hook. What the request itself gets wrong is a refusal, which a hook responds to; whatever else is raised
on the way becomes a refusal of its own, and if the hook fails there too, the response has no body.
-/

namespace ApiContract.Serve

/-- Serving: it may be interrupted, and it records the calls of hooks. -/
abbrev Serving := ExceptT Raised (StateM History)

namespace Serving

/-- Calls a hook and records the call. -/
def call {α : Type} (c : Call) (hook : History → Except Raised α) : Serving α := do
  let history ← get
  set (history ++ [c])
  ofExcept (hook history)
where
  /-- A result as a step of serving. -/
  ofExcept : Except Raised α → Serving α
  | .ok a => pure a
  | .error r => throw r

/-- The result of a step, which does not interrupt any more. -/
def outcome {α : Type} (s : Serving α) : Serving (Except Raised α) :=
  ExceptT.mk (Except.ok <$> s.run)

/-- A step, or else a response to the refusal that interrupts it. -/
def orRefuse (hooks : Hooks) (s : Serving Reply) : Serving Reply := do
  match ← outcome s with
  | .ok r => return r
  | .error (.refused r) => call (.refusal r) fun h => hooks.respondToRefusal h r
  | .error e => throw e

end Serving

open Serving

/-- What comes with a request to be served. -/
inductive Incoming where
  /-- The event of the gateway. -/
  | event (t : Tree)
  /-- A request that has been read before. -/
  | request (r : Http.Request)

/-- The response that a handler's product is. -/
def productResponse (api : Interface) (plan : OperationPlan) (h : Handled) :
    Except Raised Http.Response :=
  let refused := .error (.refusal (.unwritable ("handler `" ++ plan.handler ++ "` returned " ++
    h.product.typeName ++ ", expected a variant of " ++ plan.responseType)))
  match h.product with
  | .answer a => if a.operation = plan.id then a.toResponse api.models h.headers else refused
  | .value _ => refused

/-- Runs the handler of an operation. A failure that it reports has a hook of its own. -/
def handle (api : Interface) (hooks : Hooks) (plan : OperationPlan)
    (arguments : List (String × Value)) (passed : Passed) : Serving Reply := do
  match ← outcome (call (.handle plan.handler arguments passed)
      fun h => hooks.handle h plan.handler arguments passed) with
  | .error (.handlerError text) =>
    call (.handlerError text) fun h => hooks.respondToHandlerError h text
  | .error e => throw e
  | .ok handled =>
    orRefuse hooks (Reply.response <$> call.ofExcept (productResponse api plan handled))

/-- Runs a wrapping hook around a handler. -/
def wrap (handler : Passed → Serving Reply) : Wrapping → Serving Reply
  | .done outcome => call.ofExcept outcome
  | .proceed passed next => do
    let result ← outcome (handler passed)
    let history ← get
    wrap handler (next history result)

/-- The headers, arguments and body of a request. -/
def takeArguments (api : Interface) (plan : OperationPlan) (request : Http.Request) :
    Except Raised (Http.Headers × List (String × Value)) := do
  let headers ← request.headerFields.mapError fun name =>
    .refusalFrom .encoding (.headerText name)
  let given ← arguments api.models plan.parameters request headers
  match plan.requestBody with
  | none => return (headers, given)
  | some body =>
    return (headers, given ++ [("request_body", ← readRequestBody api.models body request headers)])

/-- Runs the wrapping hook around the handler of a request that has been authenticated if need be. -/
def serveAs (api : Interface) (hooks : Hooks) (plan : OperationPlan)
    (arguments : List (String × Value)) (passed : Passed) : Serving Reply := do
  let history ← get
  set (history ++ [Call.wrap plan.id passed])
  wrap (handle api hooks plan arguments) (hooks.wrap history plan.id passed)

/-- Authenticates a request and runs its handler. -/
def authenticated (api : Interface) (hooks : Hooks) (plan : OperationPlan)
    (arguments : List (String × Value)) (passed : Passed) : Serving Reply := do
  match ← outcome (call (.authenticate plan.id passed)
      fun h => hooks.authenticate h plan.id passed) with
  | .ok identity => serveAs api hooks plan arguments { passed with identity := some identity }
  | .error (.rejection _ reply) => return reply
  | .error e => throw e

/-- Serves a request for an operation. -/
def serve (api : Interface) (hooks : Hooks) (plan : OperationPlan) (request : Http.Request)
    (context : Value) : Serving Reply := do
  match takeArguments api plan request with
  | .error (.refused r) => call (.refusal r) fun h => hooks.respondToRefusal h r
  | .error e => throw e
  | .ok (headers, arguments) =>
    let passed : Passed := ⟨headers, request.context, context, none⟩
    if plan.authenticated then authenticated api hooks plan arguments passed
    else serveAs api hooks plan arguments passed

/-- Serves a request for the operation that it names. -/
def route (api : Interface) (hooks : Hooks) (request : Http.Request) (context : Value) :
    Serving Reply :=
  let refuse (id : String) :=
    let r : Refused := ⟨.unknownOperation id, none⟩
    call (.refusal r) fun h => hooks.respondToRefusal h r
  match request.context.operationName.filter (!·.isEmpty) with
  | none => refuse "<no operationName in request context>"
  | some id =>
    match api.operation? id with
    | none => refuse id
    | some plan => serve api hooks plan request context

/-- The request that comes in. -/
def Incoming.request? : Incoming → Except Raised Http.Request
  | .request r => .ok r
  | .event t => (Http.Request.ofTree t).mapError fun _ => .unforeseen

/-- The envelope of a reply. -/
def Reply.envelope : Reply → Except Raised Http.Envelope
  | .response r => .ok r.envelope
  | .unsendable => .error .unforeseen

/-- The response to something that was raised. -/
def respondToFault (hooks : Hooks) (raised : Raised) : StateM History Http.Envelope := do
  let r := raised.fault
  let reply : Serving Http.Envelope := do
    call.ofExcept (← call (.refusal r) fun h => hooks.respondToRefusal h r).envelope
  match ← reply.run with
  | .ok e => return e
  | .error _ => return r.refusal.response.envelope

/-- Answers a request, if nothing is raised on the way. -/
def attempt (api : Interface) (hooks : Hooks) (incoming : Incoming) (context : Value) :
    Serving Http.Envelope := do
  let request ← call.ofExcept incoming.request?
  call.ofExcept (← route api hooks request context).envelope

/-- Answers a request. -/
def dispatch (api : Interface) (hooks : Hooks) (incoming : Incoming) (context : Value) :
    StateM History Http.Envelope := do
  match ← (attempt api hooks incoming context).run with
  | .ok e => return e
  | .error raised => respondToFault hooks raised

end ApiContract.Serve
