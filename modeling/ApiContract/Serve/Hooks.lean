import ApiContract.Serve.Answer

/-!
# Hooks

What a service supplies: the handlers of its operations, answers to their failures and to refusals, and
middleware that authenticates requests and wraps handlers. Hooks may answer differently each time, so
every hook is handed the history of all calls before.

A wrapping hook decides whether and how often the handler runs. It is a program: it is done with a
result, or it proceeds to the handler and goes on with what comes back.
-/

namespace ApiContract.Serve

/-- What is passed along with a request: its headers, what the gateway and the host know about it, and
who it is from, if it has been authenticated. -/
structure Passed where
  headers : Http.Headers
  requestContext : Http.Context
  context : Value
  identity : Option Value

/-- One call of a hook. -/
inductive Call where
  | authenticate (operation : String) (passed : Passed)
  | wrap (operation : String) (passed : Passed)
  | handle (handler : String) (arguments : List (String × Value)) (passed : Passed)
  | handlerError (text : String)
  | refusal (refused : Refused)

/-- All calls so far, the earliest first. -/
abbrev History := List Call

/-- The result of a hook that responds. -/
abbrev Outcome := Except Raised Reply

/-- What a handler gives. -/
inductive Product where
  | answer (a : Answer)
  /-- Something that is no answer. -/
  | value (v : Value)

/-- The name of a product's type. -/
def Product.typeName : Product → String
  | .answer a => a.response.name
  | .value v => v.typeName

/-- What a handler gives, and further headers if there are any; an inner `none` stands for ones that
cannot be sent. -/
structure Handled where
  product : Product
  headers : Option (Option Http.Headers)

/-- A wrapping hook at work. -/
inductive Wrapping where
  | done (outcome : Outcome)
  | proceed (passed : Passed) (next : History → Outcome → Wrapping)

/-- The hooks of a service. -/
structure Hooks where
  authenticate : History → String → Passed → Except Raised Value
  wrap : History → String → Passed → Wrapping
  handle : History → String → List (String × Value) → Passed → Except Raised Handled
  respondToHandlerError : History → String → Outcome
  respondToRefusal : History → Refused → Outcome

namespace Hooks

/-- Accepts every request as from nobody. -/
def acceptAll (_ : History) (_ : String) (_ : Passed) : Except Raised Value :=
  .ok .null

/-- Runs the handler and nothing else. -/
def passThrough (_ : History) (_ : String) (passed : Passed) : Wrapping :=
  .proceed passed fun _ outcome => .done outcome

/-- Responds to a refusal as it says. -/
def respondPlainly (_ : History) (r : Refused) : Outcome :=
  .ok (.response r.refusal.response)

end Hooks

end ApiContract.Serve
