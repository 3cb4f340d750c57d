import ApiContract.Proofs.Serve.Run

/-!
# Every request is answered

What is raised while a request is served is either mapped where it occurs or escapes. A refusal of the
request's arguments or of a handler's product, a failure that a handler reports and a rejection by
authentication are mapped: `Escapes` lists everything else, and `attempt_escapes` says that nothing that
escapes is missing from it. `dispatch_answers` says what the answer is then: what the hook for refusals
makes of a fault, or a response of status 500 with nothing in it.
-/

namespace ApiContract.Serve

open Serving

/-- Raised by a run of an operation's handler and mapped by nothing in it: neither a failure that the
handler reports nor a refusal of its product. -/
inductive Unmapped (api : Interface) (hooks : Hooks) (plan : OperationPlan)
    (arguments : List (String × Value)) : Raised → Prop
  | handler {h : History} {passed : Passed} {e : Raised} :
    hooks.handle h plan.handler arguments passed = .error e → (∀ text, e ≠ .handlerError text) →
    Unmapped api hooks plan arguments e
  | product {handled : Handled} {e : Raised} :
    productResponse api plan handled = .error e → (∀ r, e ≠ .refused r) →
    Unmapped api hooks plan arguments e
  | failureHook {h : History} {text : String} {e : Raised} :
    hooks.respondToHandlerError h text = .error e → Unmapped api hooks plan arguments e
  | refusalHook {h : History} {r : Refused} {e : Raised} :
    hooks.respondToRefusal h r = .error e → Unmapped api hooks plan arguments e

/-- A wrapping hook can end with an outcome when whatever the handler raises to it has a property. -/
inductive EndsWith (P : Raised → Prop) : Wrapping → Outcome → Prop
  | done (o : Outcome) : EndsWith P (.done o) o
  | proceed {passed : Passed} {next : History → Outcome → Wrapping} {h : History} {inner o : Outcome} :
    (∀ e, inner = .error e → P e) → EndsWith P (next h inner) o →
    EndsWith P (.proceed passed next) o

/-- Raised while a request is answered, and mapped by nothing on the way. -/
inductive Escapes (api : Interface) (hooks : Hooks) (incoming : Incoming) : Raised → Prop
  /-- The event is no request. -/
  | event {e : Raised} : incoming.request? = .error e → Escapes api hooks incoming e
  /-- The hook for refusals raises something itself. -/
  | refusalHook {h : History} {r : Refused} {e : Raised} :
    hooks.respondToRefusal h r = .error e → Escapes api hooks incoming e
  /-- Taking the arguments raises something other than a refusal. -/
  | arguments {request : Http.Request} {plan : OperationPlan} {e : Raised} :
    incoming.request? = .ok request → plan ∈ api.operations →
    takeArguments api plan request = .error e → (∀ r, e ≠ .refused r) → Escapes api hooks incoming e
  /-- Authentication raises something other than a rejection. -/
  | authentication {h : History} {plan : OperationPlan} {passed : Passed} {e : Raised} :
    plan ∈ api.operations → hooks.authenticate h plan.id passed = .error e →
    (∀ text reply, e ≠ .rejection text reply) → Escapes api hooks incoming e
  /-- The wrapping hook raises something, or passes on what the handler has raised to it. -/
  | wrapping {h : History} {plan : OperationPlan} {arguments : List (String × Value)}
      {passed : Passed} {e : Raised} :
    plan ∈ api.operations →
    EndsWith (Unmapped api hooks plan arguments) (hooks.wrap h plan.id passed) (.error e) →
    Escapes api hooks incoming e
  /-- A hook gives something that the gateway cannot take. -/
  | envelope {context : Value} {h h' : History} {request : Http.Request} :
    incoming.request? = .ok request → (route api hooks request context).run h = (.ok .unsendable, h') →
    Escapes api hooks incoming .unforeseen

variable {api : Interface} {hooks : Hooks} {plan : OperationPlan}
  {arguments : List (String × Value)} {passed : Passed} {request : Http.Request} {context : Value}
  {incoming : Incoming} {h h' : History} {calls : List Call} {o : Outcome}

theorem Handling.unmapped (hh : Handling api hooks plan arguments passed h calls o) {e : Raised}
    (he : o = .error e) : Unmapped api hooks plan arguments e := by
  cases hh with
  | failed text => exact .failureHook he
  | raised e' hraised hne => cases he; exact .handler hraised hne
  | answered => cases he
  | refused => exact .refusalHook he
  | broken handled e' _ hp hne => cases he; exact .product hp hne

theorem Wrapped.endsWith {w : Wrapping} (hw : Wrapped api hooks plan arguments w h calls o) :
    EndsWith (Unmapped api hooks plan arguments) w o := by
  induction hw with
  | done o => exact .done o
  | proceed hh _ ih => exact .proceed (fun _ => hh.unmapped) ih

theorem Served.escapes {e : Raised} (hs : Served api hooks plan request context h calls (.error e))
    (hr : incoming.request? = .ok request) (hplan : plan ∈ api.operations) :
    Escapes api hooks incoming e := by
  generalize ho : (Except.error e : Outcome) = o at hs
  cases hs with
  | refused => exact .refusalHook ho.symm
  | broken e' htake hne => cases ho; exact .arguments hr hplan htake hne
  | unnamed _ _ _ hw | named _ _ _ _ hw => subst ho; exact .wrapping hplan hw.endsWith
  | rejected => cases ho
  | failed _ _ _ hauth hne => cases ho; exact .authentication hplan hauth hne

theorem route_escapes {e : Raised} (hrun : (route api hooks request context).run h = (.error e, h'))
    (hr : incoming.request? = .ok request) : Escapes api hooks incoming e := by
  unfold route at hrun
  split at hrun
  · rw [call_run] at hrun
    exact .refusalHook (Prod.mk.inj hrun).1
  · rename_i id _
    cases hop : api.operation? id with
    | none =>
      simp only [hop, call_run] at hrun
      exact .refusalHook (Prod.mk.inj hrun).1
    | some plan =>
      simp only [hop] at hrun
      obtain ⟨calls, o, hserve, hs⟩ := serve_run api hooks plan request context h
      cases (Prod.mk.inj (hserve.symm.trans hrun)).1
      exact hs.escapes hr (List.mem_of_find?_eq_some hop)

/-- What interrupts an answer has not been mapped anywhere. -/
theorem attempt_escapes {e : Raised}
    (hrun : (attempt api hooks incoming context).run h = (.error e, h')) :
    Escapes api hooks incoming e := by
  simp only [attempt, andThen_run, ofExcept_run] at hrun
  cases hr : incoming.request? with
  | error e' =>
    simp only [hr] at hrun
    cases hrun
    exact .event hr
  | ok request =>
    simp only [hr] at hrun
    generalize hroute : (route api hooks request context).run h = x at hrun
    obtain ⟨_ | reply, h₁⟩ := x
    · cases hrun
      exact route_escapes hroute hr
    · cases reply with
      | response => cases hrun
      | unsendable => cases hrun; exact .envelope hr hroute

/-- A response of status 500, with nothing in it. -/
def emptyAnswer : Http.Envelope :=
  { status := 500, headers := [], body := none, isBase64 := false }

/-- What a fault is answered with. -/
def faultAnswer (hooks : Hooks) (h : History) (r : Refused) : Http.Envelope :=
  match hooks.respondToRefusal h r with
  | .ok (.response response) => response.envelope
  | .ok .unsendable | .error _ => emptyAnswer

theorem respondToFault_run (hooks : Hooks) (raised : Raised) (h : History) :
    (respondToFault hooks raised).run h =
      (faultAnswer hooks h raised.fault, h ++ [.refusal raised.fault]) := by
  have hreply : (call (.refusal raised.fault) (fun h => hooks.respondToRefusal h raised.fault) >>=
      fun reply => call.ofExcept reply.envelope).run h =
        (hooks.respondToRefusal h raised.fault >>= Reply.envelope, h ++ [.refusal raised.fault]) := by
    rw [andThen_run, call_run]
    cases hooks.respondToRefusal h raised.fault with
    | error => rfl
    | ok reply => exact ofExcept_run ..
  simp only [respondToFault, StateT.run_bind]
  rw [StateT.run, hreply, faultAnswer]
  cases hooks.respondToRefusal h raised.fault with
  | error => rfl
  | ok reply => cases reply <;> rfl

/-- Faults say nothing to the client. -/
theorem faultAnswer_respondPlainly (h : History) (raised : Raised)
    (hplain : hooks.respondToRefusal = Hooks.respondPlainly) :
    faultAnswer hooks h raised.fault = emptyAnswer := by
  simp only [faultAnswer, hplain, Hooks.respondPlainly]
  rfl

theorem dispatch_run (api : Interface) (hooks : Hooks) (incoming : Incoming) (context : Value)
    (h : History) :
    (dispatch api hooks incoming context).run h =
      match (attempt api hooks incoming context).run h with
      | (.ok e, h') => (e, h')
      | (.error raised, h') =>
        (faultAnswer hooks h' raised.fault, h' ++ [.refusal raised.fault]) := by
  simp only [dispatch, StateT.run_bind]
  generalize hrun : (attempt api hooks incoming context).run h = x
  rw [StateT.run, hrun]
  obtain ⟨o, h'⟩ := x
  cases o with
  | ok e => rfl
  | error raised => exact respondToFault_run hooks raised h'

end ApiContract.Serve
