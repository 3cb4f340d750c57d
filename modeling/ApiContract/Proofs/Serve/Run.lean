import ApiContract.Serve.Dispatch

/-!
# Runs of serving

Serving a request is a run from the history of calls so far to an outcome and a longer history. Three
relations say which calls are made and what comes of them: `Handling` of one run of an operation's
handler, `Wrapped` of a wrapping hook at work (one that is done makes no more calls, and one that proceeds
makes those of the handler first), and `Served` of a request for an operation. `handle_run`, `wrap_run`
and `serve_run` say that these are all the runs there are.
-/

namespace ApiContract.Serve

open Serving

variable {α β : Type} {h h' : History}

namespace Serving

/-- Raising interrupts; everything else goes on from where the first step ends. -/
theorem andThen_run (s : Serving α) (f : α → Serving β) (h : History) :
    (s >>= f).run h = match s.run h with
      | (.ok a, h') => (f a).run h'
      | (.error e, h') => (.error e, h') := by
  show (ExceptT.bindCont f (s.run h).1) (s.run h).2 = _
  obtain ⟨o, h'⟩ : Except Raised α × History := s.run h
  cases o <;> rfl

@[simp] theorem ofExcept_run (o : Except Raised α) (h : History) :
    (call.ofExcept o).run h = (o, h) := by
  cases o <;> rfl

@[simp] theorem call_run (c : Call) (hook : History → Except Raised α) (h : History) :
    (call c hook).run h = (hook h, h ++ [c]) :=
  ofExcept_run (hook h) (h ++ [c])

@[simp] theorem outcome_run (s : Serving α) (h : History) :
    (outcome s).run h = (.ok (s.run h).1, (s.run h).2) :=
  rfl

theorem orRefuse_run (hooks : Hooks) (s : Serving Reply) (h : History) :
    (orRefuse hooks s).run h = match s.run h with
      | (.ok r, h') => (.ok r, h')
      | (.error (.refused r), h') => (hooks.respondToRefusal h' r, h' ++ [.refusal r])
      | (.error e, h') => (.error e, h') := by
  rw [orRefuse, andThen_run, outcome_run]
  obtain ⟨o, h'⟩ : Except Raised Reply × History := s.run h
  cases o with
  | error e => cases e <;> first | rfl | exact call_run ..
  | ok r => rfl

end Serving

/-! ## The handler -/

section

variable (api : Interface) (hooks : Hooks) (plan : OperationPlan) (arguments : List (String × Value))

/-- What a run of an operation's handler does after a history: its calls, and what comes of it. -/
inductive Handling (passed : Passed) (h : History) : List Call → Outcome → Prop
  /-- The handler reports a failure, and a hook responds to that. -/
  | failed (text : String) :
    hooks.handle h plan.handler arguments passed = .error (.handlerError text) →
    Handling passed h [.handle plan.handler arguments passed, .handlerError text]
      (hooks.respondToHandlerError (h ++ [.handle plan.handler arguments passed]) text)
  /-- The handler raises something else. -/
  | raised (e : Raised) :
    hooks.handle h plan.handler arguments passed = .error e → (∀ text, e ≠ .handlerError text) →
    Handling passed h [.handle plan.handler arguments passed] (.error e)
  /-- The handler's product is an answer. -/
  | answered (handled : Handled) (r : Http.Response) :
    hooks.handle h plan.handler arguments passed = .ok handled →
    productResponse api plan handled = .ok r →
    Handling passed h [.handle plan.handler arguments passed] (.ok (.response r))
  /-- The product cannot be written, and a hook responds to that. -/
  | refused (handled : Handled) (r : Refused) :
    hooks.handle h plan.handler arguments passed = .ok handled →
    productResponse api plan handled = .error (.refused r) →
    Handling passed h [.handle plan.handler arguments passed, .refusal r]
      (hooks.respondToRefusal (h ++ [.handle plan.handler arguments passed]) r)
  /-- Writing the product raises something else. -/
  | broken (handled : Handled) (e : Raised) :
    hooks.handle h plan.handler arguments passed = .ok handled →
    productResponse api plan handled = .error e → (∀ r, e ≠ .refused r) →
    Handling passed h [.handle plan.handler arguments passed] (.error e)

theorem handle_run (passed : Passed) (h : History) :
    ∃ calls o, (handle api hooks plan arguments passed).run h = (o, h ++ calls) ∧
      Handling api hooks plan arguments passed h calls o := by
  simp only [handle, andThen_run, outcome_run, call_run]
  cases hh : hooks.handle h plan.handler arguments passed with
  | error e =>
    cases e with
    | handlerError text => exact ⟨_, _, by simp, .failed text hh⟩
    | _ => exact ⟨_, _, rfl, .raised _ hh fun _ he => by cases he⟩
  | ok handled =>
    have hmap : (Reply.response <$> call.ofExcept (productResponse api plan handled)).run
        (h ++ [.handle plan.handler arguments passed]) =
          ((productResponse api plan handled).map Reply.response,
            h ++ [.handle plan.handler arguments passed]) := by
      cases productResponse api plan handled <;> rfl
    simp only [orRefuse_run, hmap]
    cases hp : productResponse api plan handled with
    | ok r => exact ⟨_, _, rfl, .answered handled r hh hp⟩
    | error e =>
      cases e with
      | refused r => exact ⟨_, _, by simp [Except.map], .refused handled r hh hp⟩
      | _ => exact ⟨_, _, rfl, .broken handled _ hh hp fun _ he => by cases he⟩

/-! ## Wrapping hooks -/

/-- What a wrapping hook at work does after a history. Calls are made only where it proceeds to the
handler, and what comes of the handler is all that the hook learns. -/
inductive Wrapped : Wrapping → History → List Call → Outcome → Prop
  | done (o : Outcome) (h : History) : Wrapped (.done o) h [] o
  | proceed {passed : Passed} {next : History → Outcome → Wrapping} {h : History}
      {calls rest : List Call} {inner o : Outcome} :
    Handling api hooks plan arguments passed h calls inner →
    Wrapped (next (h ++ calls) inner) (h ++ calls) rest o →
    Wrapped (.proceed passed next) h (calls ++ rest) o

theorem wrap_run (w : Wrapping) (h : History) :
    ∃ calls o, (wrap (handle api hooks plan arguments) w).run h = (o, h ++ calls) ∧
      Wrapped api hooks plan arguments w h calls o := by
  induction w generalizing h with
  | done o => exact ⟨[], o, by simp [wrap], .done o h⟩
  | proceed passed next ih =>
    obtain ⟨calls, inner, hrun, hinner⟩ := handle_run api hooks plan arguments passed h
    obtain ⟨rest, o, hrest, hnext⟩ := ih (h ++ calls) inner (h ++ calls)
    refine ⟨calls ++ rest, o, ?_, .proceed hinner hnext⟩
    rw [wrap, andThen_run, outcome_run, hrun]
    show (wrap (handle api hooks plan arguments) (next (h ++ calls) inner)).run (h ++ calls) = _
    rw [hrest, List.append_assoc]

theorem serveAs_run (passed : Passed) (h : History) :
    ∃ calls o, (serveAs api hooks plan arguments passed).run h =
        (o, h ++ .wrap plan.id passed :: calls) ∧
      Wrapped api hooks plan arguments (hooks.wrap h plan.id passed) (h ++ [.wrap plan.id passed])
        calls o := by
  obtain ⟨calls, o, hrun, hw⟩ := wrap_run api hooks plan arguments (hooks.wrap h plan.id passed)
    (h ++ [.wrap plan.id passed])
  refine ⟨calls, o, ?_, hw⟩
  show (wrap (handle api hooks plan arguments) (hooks.wrap h plan.id passed)).run
    (h ++ [.wrap plan.id passed]) = _
  rw [hrun, List.append_assoc, List.singleton_append]

end

/-! ## Requests -/

section

variable (api : Interface) (hooks : Hooks) (plan : OperationPlan) (request : Http.Request)
  (context : Value)

/-- What serving a request for an operation does after a history. -/
inductive Served (h : History) : List Call → Outcome → Prop
  /-- The request is refused for its arguments. -/
  | refused (r : Refused) : takeArguments api plan request = .error (.refused r) →
    Served h [.refusal r] (hooks.respondToRefusal h r)
  /-- Something else is raised while its arguments are taken. -/
  | broken (e : Raised) : takeArguments api plan request = .error e → (∀ r, e ≠ .refused r) →
    Served h [] (.error e)
  /-- Nobody is authenticated, and the wrapping hook is at work. -/
  | unnamed {headers : Http.Headers} {arguments : List (String × Value)} {passed : Passed}
      {calls : List Call} {o : Outcome} :
    takeArguments api plan request = .ok (headers, arguments) → plan.authenticated = false →
    passed = ⟨headers, request.context, context, none⟩ →
    Wrapped api hooks plan arguments (hooks.wrap h plan.id passed) (h ++ [.wrap plan.id passed])
      calls o →
    Served h (.wrap plan.id passed :: calls) o
  /-- Authentication rejects the request with a response. -/
  | rejected {headers : Http.Headers} {arguments : List (String × Value)} {passed : Passed}
      {text : String} {reply : Reply} :
    takeArguments api plan request = .ok (headers, arguments) → plan.authenticated = true →
    passed = ⟨headers, request.context, context, none⟩ →
    hooks.authenticate h plan.id passed = .error (.rejection text reply) →
    Served h [.authenticate plan.id passed] (.ok reply)
  /-- Authentication raises something else. -/
  | failed {headers : Http.Headers} {arguments : List (String × Value)} {passed : Passed}
      {e : Raised} :
    takeArguments api plan request = .ok (headers, arguments) → plan.authenticated = true →
    passed = ⟨headers, request.context, context, none⟩ →
    hooks.authenticate h plan.id passed = .error e → (∀ text reply, e ≠ .rejection text reply) →
    Served h [.authenticate plan.id passed] (.error e)
  /-- Somebody is authenticated, and then the wrapping hook is at work. -/
  | named {headers : Http.Headers} {arguments : List (String × Value)} {passed : Passed}
      {identity : Value} {calls : List Call} {o : Outcome} :
    takeArguments api plan request = .ok (headers, arguments) → plan.authenticated = true →
    passed = ⟨headers, request.context, context, none⟩ →
    hooks.authenticate h plan.id passed = .ok identity →
    Wrapped api hooks plan arguments
      (hooks.wrap (h ++ [.authenticate plan.id passed]) plan.id
        { passed with identity := some identity })
      (h ++ [.authenticate plan.id passed] ++
        [.wrap plan.id { passed with identity := some identity }]) calls o →
    Served h (.authenticate plan.id passed ::
      .wrap plan.id { passed with identity := some identity } :: calls) o

theorem serve_run (h : History) :
    ∃ calls o, (serve api hooks plan request context).run h = (o, h ++ calls) ∧
      Served api hooks plan request context h calls o := by
  unfold serve
  cases htake : takeArguments api plan request with
  | error e =>
    cases e with
    | refused r => exact ⟨_, _, call_run .., .refused r htake⟩
    | _ => exact ⟨[], _, by rw [List.append_nil]; rfl, .broken _ htake fun _ he => by cases he⟩
  | ok taken =>
    obtain ⟨headers, arguments⟩ := taken
    cases hplan : plan.authenticated with
    | false =>
      obtain ⟨calls, o, hrun, hw⟩ := serveAs_run api hooks plan arguments
        ⟨headers, request.context, context, none⟩ h
      exact ⟨_, o, hrun, .unnamed htake hplan rfl hw⟩
    | true =>
      simp only [if_true, authenticated, andThen_run, outcome_run, call_run]
      generalize hpassed : Passed.mk headers request.context context none = passed
      cases hauth : hooks.authenticate h plan.id passed with
      | ok identity =>
        subst hpassed
        obtain ⟨calls, o, hrun, hw⟩ := serveAs_run api hooks plan arguments
          ⟨headers, request.context, context, some identity⟩ (h ++ [.authenticate plan.id _])
        refine ⟨_, o, ?_, .named htake hplan rfl hauth hw⟩
        simpa using hrun
      | error e =>
        cases e with
        | rejection text reply =>
          exact ⟨_, _, rfl, .rejected htake hplan hpassed.symm hauth⟩
        | _ =>
          exact ⟨_, _, rfl, .failed htake hplan hpassed.symm hauth fun _ _ he => by cases he⟩

end

end ApiContract.Serve
