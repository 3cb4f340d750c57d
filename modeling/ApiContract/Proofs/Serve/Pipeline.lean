import ApiContract.Proofs.Except
import ApiContract.Proofs.Serve.Run

/-!
# The order of calls

Before any hook of a service is called, its request's arguments are taken: every parameter, and for a
planned body the media type and what octets there are. An operation that asks for it is authenticated
next, once, and only then a wrapping hook is at work, which alone can run the handler. `Orderly` says all
of this of the calls made while a request is served, and `serve_orderly` that they are made so whatever
the hooks do.
-/

namespace ApiContract.Serve

open Serving

/-! ## Taking arguments -/

/-- Headers and arguments are what a request holds for a plan: a value for every parameter and, if a body
is planned, one of the planned media type that is absent only if it may be. -/
structure Taken (api : Interface) (plan : OperationPlan) (request : Http.Request)
    (headers : Http.Headers) (arguments : List (String × Value)) : Prop where
  headers_eq : request.headerFields = .ok headers
  parameter : ∀ p ∈ plan.parameters, ∃ v,
    argument api.models p request headers = .ok v ∧ (p.argument, v) ∈ arguments
  mediaType : ∀ b, plan.requestBody = some b → ∃ given,
    headers.get? "content-type" = some given ∧
      MediaType.essence given = MediaType.essence b.body.mediaType
  body : ∀ b, plan.requestBody = some b → ∃ v, ("request_body", v) ∈ arguments ∧
    ((∃ octets, bodyOctets request = .ok (some octets) ∧ readBody api.models b.body octets = .ok v) ∨
      (bodyOctets request = .ok none ∧ b.required = false ∧ v = .null))

theorem ensureMediaType_eq_ok {plan : BodyPlan} {headers : Http.Headers}
    (h : ensureMediaType plan headers = .ok ()) : ∃ given, headers.get? "content-type" = some given ∧
      MediaType.essence given = MediaType.essence plan.mediaType := by
  unfold ensureMediaType at h
  cases hg : headers.get? "content-type" with
  | none => rw [hg] at h; cases h
  | some given =>
    rw [hg] at h
    by_cases he : MediaType.essence given = MediaType.essence plan.mediaType
    · exact ⟨given, rfl, he⟩
    · simp only [ne_eq, he, not_false_eq_true, if_true] at h
      cases h

theorem readRequestBody_eq_ok {m : Models} {plan : RequestBodyPlan} {request : Http.Request}
    {headers : Http.Headers} {v : Value} (h : readRequestBody m plan request headers = .ok v) :
    ensureMediaType plan.body headers = .ok () ∧
      ((∃ octets, bodyOctets request = .ok (some octets) ∧ readBody m plan.body octets = .ok v) ∨
        (bodyOctets request = .ok none ∧ plan.required = false ∧ v = .null)) := by
  obtain ⟨_, hm, h⟩ := bind_eq_ok.1 h
  obtain ⟨octets, ho, h⟩ := bind_eq_ok.1 h
  refine ⟨hm, ?_⟩
  cases octets with
  | some octets => exact .inl ⟨octets, ho, h⟩
  | none =>
    cases hr : plan.required with
    | true => simp only [hr] at h; cases h
    | false => simp only [hr] at h; cases h; exact .inr ⟨ho, rfl, rfl⟩

theorem exists_of_arguments {m : Models} {plans : List ParameterPlan} {request : Http.Request}
    {headers : Http.Headers} {given : List (String × Value)}
    (h : arguments m plans request headers = .ok given) {p : ParameterPlan} (hp : p ∈ plans) :
    ∃ v, argument m p request headers = .ok v ∧ (p.argument, v) ∈ given := by
  obtain ⟨x, hx, hmem⟩ := exists_of_mapM h hp
  obtain ⟨v, hv, he⟩ := bind_eq_ok.1 hx
  cases he
  exact ⟨v, hv, hmem⟩

theorem taken_of_takeArguments {api : Interface} {plan : OperationPlan} {request : Http.Request}
    {headers : Http.Headers} {arguments : List (String × Value)}
    (h : takeArguments api plan request = .ok (headers, arguments)) :
    Taken api plan request headers arguments := by
  obtain ⟨hs, hh, h⟩ := bind_eq_ok.1 h
  obtain ⟨given, hg, h⟩ := bind_eq_ok.1 h
  have hheaders : request.headerFields = .ok hs := by
    cases hf : request.headerFields with
    | ok x => rw [hf] at hh; cases hh; rfl
    | error e => rw [hf] at hh; cases hh
  cases hb : plan.requestBody with
  | none =>
    rw [hb] at h
    cases h
    exact ⟨hheaders, fun p hp => exists_of_arguments hg hp, by simp [hb], by simp [hb]⟩
  | some b =>
    rw [hb] at h
    obtain ⟨v, hv, h⟩ := bind_eq_ok.1 h
    cases h
    obtain ⟨hm, hbody⟩ := readRequestBody_eq_ok hv
    have hlast : ("request_body", v) ∈ given ++ [("request_body", v)] := by simp
    refine ⟨hheaders, fun p hp => ?_, fun b' hb' => ?_, fun b' hb' => ?_⟩
    · obtain ⟨v, hv, hmem⟩ := exists_of_arguments hg hp
      exact ⟨v, hv, List.mem_append_left _ hmem⟩
    · cases hb.symm.trans hb'
      exact ensureMediaType_eq_ok hm
    · cases hb.symm.trans hb'
      exact ⟨v, hlast, hbody⟩

/-! ## Kinds of calls -/

namespace Call

/-- A call that authenticates. -/
def isAuthenticate : Call → Bool
  | authenticate .. => true
  | _ => false

/-- A call of a wrapping hook. -/
def isWrap : Call → Bool
  | wrap .. => true
  | _ => false

/-- A call of a handler. -/
def isHandle : Call → Bool
  | handle .. => true
  | _ => false

/-- A call of middleware or of a handler, as opposed to one that responds to a failure. -/
def isHook (c : Call) : Bool :=
  c.isAuthenticate || c.isWrap || c.isHandle

end Call

section

variable {api : Interface} {hooks : Hooks} {plan : OperationPlan}
  {arguments : List (String × Value)} {passed : Passed} {h : History} {calls : List Call} {o : Outcome}

/-- One run of the handler calls it once, and no middleware. -/
theorem Handling.kinds (hh : Handling api hooks plan arguments passed h calls o) :
    calls.countP Call.isHandle = 1 ∧ ∀ c ∈ calls, c.isAuthenticate = false ∧ c.isWrap = false := by
  constructor
  · cases hh <;> rfl
  · cases hh <;> simp [Call.isAuthenticate, Call.isWrap]

/-- A wrapping hook at work calls no middleware. -/
theorem Wrapped.kinds {w : Wrapping} (hw : Wrapped api hooks plan arguments w h calls o) :
    ∀ c ∈ calls, c.isAuthenticate = false ∧ c.isWrap = false := by
  induction hw with
  | done => exact fun c hc => absurd hc List.not_mem_nil
  | proceed hh _ ih =>
    intro c hc
    rcases List.mem_append.1 hc with hc | hc
    · exact hh.kinds.2 c hc
    · exact ih c hc

/-- A hook that passes everything through runs the handler once. -/
theorem Wrapped.once
    (hw : Wrapped api hooks plan arguments (Hooks.passThrough h' plan.id passed) h calls o) :
    calls.countP Call.isHandle = 1 := by
  obtain _ | ⟨hh, hrest⟩ := hw
  cases hrest
  rw [List.append_nil]
  exact hh.kinds.1

end

/-! ## Requests -/

section

variable (api : Interface) (hooks : Hooks) (plan : OperationPlan) (request : Http.Request)
  (context : Value)

/-- The order of the calls that are made while a request is served after a history. -/
structure Orderly (h : History) (calls : List Call) (o : Outcome) : Prop where
  /-- Neither middleware nor a handler is called before the arguments are taken. -/
  taken : (∃ c ∈ calls, c.isHook = true) → ∃ headers arguments,
    takeArguments api plan request = .ok (headers, arguments) ∧
      Taken api plan request headers arguments
  /-- A request that is refused for its arguments leads to one call, which responds to that. -/
  refused : ∀ r, takeArguments api plan request = .error (.refused r) →
    calls = [.refusal r] ∧ o = hooks.respondToRefusal h r
  /-- An authenticated operation authenticates first and once, and anything else follows only if that
  has given somebody. -/
  authenticated : plan.authenticated = true → (∃ c ∈ calls, c.isHook = true) → ∃ passed later,
    calls = .authenticate plan.id passed :: later ∧ (∀ c ∈ later, c.isAuthenticate = false) ∧
      (later ≠ [] → ∃ identity, hooks.authenticate h plan.id passed = .ok identity)
  /-- A rejected request gets the response of the rejection, and nothing more is called. -/
  rejected : ∀ passed later text reply, calls = .authenticate plan.id passed :: later →
    hooks.authenticate h plan.id passed = .error (.rejection text reply) →
      later = [] ∧ o = .ok reply
  /-- Any other operation does not authenticate. -/
  unauthenticated : plan.authenticated = false → ∀ c ∈ calls, c.isAuthenticate = false
  /-- A handler runs only where the wrapping hook proceeds to it; the hook is told who the request is
  from exactly if the operation is authenticated. -/
  wrapped : (∃ c ∈ calls, c.isHandle = true) → ∃ before passed inner headers arguments,
    takeArguments api plan request = .ok (headers, arguments) ∧
      calls = before ++ .wrap plan.id passed :: inner ∧
      (∀ c ∈ before, c.isHandle = false ∧ c.isWrap = false) ∧
      passed.identity.isSome = plan.authenticated ∧
      Wrapped api hooks plan arguments (hooks.wrap (h ++ before) plan.id passed)
        (h ++ before ++ [.wrap plan.id passed]) inner o
  /-- If the wrapping hook passes everything through, the handler runs once for every request that is
  not stopped before. -/
  once : hooks.wrap = Hooks.passThrough → ∀ headers arguments,
    takeArguments api plan request = .ok (headers, arguments) →
    (plan.authenticated = true → ∃ identity,
      hooks.authenticate h plan.id ⟨headers, request.context, context, none⟩ = .ok identity) →
    calls.countP Call.isHandle = 1

variable {api hooks plan request context} {h : History} {calls : List Call} {o : Outcome}

theorem Served.taken (hs : Served api hooks plan request context h calls o)
    (hc : ∃ c ∈ calls, c.isHook = true) : ∃ headers arguments,
      takeArguments api plan request = .ok (headers, arguments) ∧
        Taken api plan request headers arguments := by
  have hok : ∃ x, takeArguments api plan request = .ok x := by
    cases hs with
    | refused r => simp [Call.isHook, Call.isAuthenticate, Call.isWrap, Call.isHandle] at hc
    | broken => simp at hc
    | unnamed htake | rejected htake | failed htake | named htake => exact ⟨_, htake⟩
  obtain ⟨⟨headers, arguments⟩, htake⟩ := hok
  exact ⟨headers, arguments, htake, taken_of_takeArguments htake⟩

theorem Served.refused_eq (hs : Served api hooks plan request context h calls o) {r : Refused}
    (hr : takeArguments api plan request = .error (.refused r)) :
    calls = [.refusal r] ∧ o = hooks.respondToRefusal h r := by
  cases hs with
  | refused r' htake => cases hr.symm.trans htake; exact ⟨rfl, rfl⟩
  | broken e htake hne => cases hr.symm.trans htake; exact absurd rfl (hne r)
  | unnamed htake | rejected htake | failed htake | named htake => cases hr.symm.trans htake

theorem Served.authenticated (hs : Served api hooks plan request context h calls o)
    (hplan : plan.authenticated = true) (hc : ∃ c ∈ calls, c.isHook = true) : ∃ passed later,
      calls = .authenticate plan.id passed :: later ∧ (∀ c ∈ later, c.isAuthenticate = false) ∧
        (later ≠ [] → ∃ identity, hooks.authenticate h plan.id passed = .ok identity) := by
  cases hs with
  | refused r => simp [Call.isHook, Call.isAuthenticate, Call.isWrap, Call.isHandle] at hc
  | broken => simp at hc
  | unnamed _ hplan' => cases hplan.symm.trans hplan'
  | rejected | failed => exact ⟨_, [], rfl, by simp, fun hne => absurd rfl hne⟩
  | named _ _ _ hauth hw =>
    refine ⟨_, _, rfl, fun c hc => ?_, fun _ => ⟨_, hauth⟩⟩
    rcases List.mem_cons.1 hc with rfl | hc
    · rfl
    · exact (hw.kinds c hc).1

theorem Served.rejected_eq (hs : Served api hooks plan request context h calls o) {passed : Passed}
    {later : List Call} {text : String} {reply : Reply}
    (hc : calls = .authenticate plan.id passed :: later)
    (hauth : hooks.authenticate h plan.id passed = .error (.rejection text reply)) :
    later = [] ∧ o = .ok reply := by
  cases hs with
  | refused | broken | unnamed => cases hc
  | rejected _ _ _ hauth' => cases hc; cases hauth.symm.trans hauth'; exact ⟨rfl, rfl⟩
  | failed _ _ _ hauth' hne =>
    cases hc
    cases hauth.symm.trans hauth'
    exact absurd rfl (hne text reply)
  | named _ _ _ hauth' => cases hc; cases hauth.symm.trans hauth'

theorem Served.unauthenticated (hs : Served api hooks plan request context h calls o)
    (hplan : plan.authenticated = false) : ∀ c ∈ calls, c.isAuthenticate = false := by
  cases hs with
  | refused | broken => simp [Call.isAuthenticate]
  | unnamed _ _ _ hw =>
    intro c hc
    rcases List.mem_cons.1 hc with rfl | hc
    · rfl
    · exact (hw.kinds c hc).1
  | rejected _ hplan' | failed _ hplan' | named _ hplan' => cases hplan.symm.trans hplan'

theorem Served.wrapped (hs : Served api hooks plan request context h calls o)
    (hc : ∃ c ∈ calls, c.isHandle = true) : ∃ before passed inner headers arguments,
      takeArguments api plan request = .ok (headers, arguments) ∧
        calls = before ++ .wrap plan.id passed :: inner ∧
        (∀ c ∈ before, c.isHandle = false ∧ c.isWrap = false) ∧
        passed.identity.isSome = plan.authenticated ∧
        Wrapped api hooks plan arguments (hooks.wrap (h ++ before) plan.id passed)
          (h ++ before ++ [.wrap plan.id passed]) inner o := by
  cases hs with
  | refused | broken | rejected | failed => simp [Call.isHandle] at hc
  | unnamed htake hplan hpassed hw =>
    refine ⟨[], _, _, _, _, htake, rfl, by simp, ?_, by rwa [List.append_nil]⟩
    rw [hplan, hpassed]
    rfl
  | named htake hplan hpassed hauth hw =>
    exact ⟨[_], _, _, _, _, htake, rfl, by simp [Call.isHandle, Call.isWrap], by rw [hplan]; rfl, hw⟩

theorem Served.once (hs : Served api hooks plan request context h calls o)
    (hpass : hooks.wrap = Hooks.passThrough) {headers : Http.Headers}
    {arguments : List (String × Value)}
    (htake : takeArguments api plan request = .ok (headers, arguments))
    (hauth : plan.authenticated = true → ∃ identity,
      hooks.authenticate h plan.id ⟨headers, request.context, context, none⟩ = .ok identity) :
    calls.countP Call.isHandle = 1 := by
  cases hs with
  | refused _ htake' | broken _ htake' => cases htake.symm.trans htake'
  | unnamed htake' hplan hpassed hw =>
    rw [hpass] at hw
    exact hw.once
  | rejected htake' hplan hpassed hauth' | failed htake' hplan hpassed hauth' =>
    cases htake.symm.trans htake'
    obtain ⟨identity, hok⟩ := hauth hplan
    rw [← hpassed] at hok
    cases hok.symm.trans hauth'
  | named htake' hplan hpassed hauth' hw =>
    rw [hpass] at hw
    exact hw.once

theorem Served.orderly (hs : Served api hooks plan request context h calls o) :
    Orderly api hooks plan request context h calls o where
  taken := hs.taken
  refused _ := hs.refused_eq
  authenticated := hs.authenticated
  rejected _ _ _ _ := hs.rejected_eq
  unauthenticated := hs.unauthenticated
  wrapped := hs.wrapped
  once hpass _ _ := hs.once hpass

/-- Whatever the hooks do, a request is served in order. -/
theorem serve_orderly (api : Interface) (hooks : Hooks) (plan : OperationPlan)
    (request : Http.Request) (context : Value) (h : History) :
    ∃ calls o, (serve api hooks plan request context).run h = (o, h ++ calls) ∧
      Orderly api hooks plan request context h calls o := by
  obtain ⟨calls, o, hrun, hs⟩ := serve_run api hooks plan request context h
  exact ⟨calls, o, hrun, hs.orderly⟩

end

end ApiContract.Serve
