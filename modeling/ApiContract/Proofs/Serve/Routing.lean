import ApiContract.Proofs.Interface
import ApiContract.Proofs.Serve.Answered
import ApiContract.Proofs.Serve.Pipeline

/-!
# Routing

An interface has its handlers' names for its operations: no two are the same and none is a method that
every handler class has (`Interface.Exact`). So the name in a request leads to the one plan of that
identifier (`Interface.Exact.operation?_eq`) or to none. `Routed` says what is called then: whatever the
hooks do, calls are those of one operation's pipeline (`Served.concerns`), or else a response to an
unknown operation. After either, at most a fault is responded to (`dispatch_run_route`).
-/

namespace ApiContract

namespace OperationPlan

/-- A plan that has been made of an operation. -/
def Planned (p : OperationPlan) : Prop :=
  ∃ table o s s', of table o s = (.ok p, s')

variable {p : OperationPlan}

theorem Planned.id_ne (h : p.Planned) : p.id ≠ "" := by
  obtain ⟨_, _, _, _, hof⟩ := h
  exact (parts_of hof).id_ne

theorem Planned.handler_eq (h : p.Planned) : p.handler = Text.identifier p.id handlerMethods := by
  obtain ⟨_, _, _, _, hof⟩ := h
  exact (parts_of hof).handler

theorem Planned.handler_notMem (h : p.Planned) : p.handler ∉ handlerMethods := by
  rw [h.handler_eq]
  apply Text.identifier_notMem
  decide

end OperationPlan

namespace Interface

/-- The names of an interface's handlers tell its operations apart. -/
structure Exact (api : Interface) : Prop where
  handlers : (api.operations.map (·.handler)).Nodup
  free : ∀ p ∈ api.operations, p.handler ∉ OperationPlan.handlerMethods
  id_ne : ∀ p ∈ api.operations, p.id ≠ ""
  /-- Handlers are named after the identifiers. -/
  named : ∀ p ∈ api.operations, ∀ q ∈ api.operations, p.id = q.id → p.handler = q.handler

theorem exact_of {unit : String} {models : Models} {operations : List OperationPlan} {api : Interface}
    (h : of unit models operations = .ok api) (hplanned : ∀ p ∈ operations, p.Planned) : api.Exact := by
  obtain ⟨_, hok, h⟩ := bind_eq_ok.1 h
  cases h
  obtain ⟨-, hnodup, -⟩ := ensureHandlers_iff.1 hok
  refine ⟨hnodup, fun p hp => (hplanned p hp).handler_notMem, fun p hp => (hplanned p hp).id_ne, ?_⟩
  intro p hp q hq hid
  rw [(hplanned p hp).handler_eq, (hplanned q hq).handler_eq, hid]

variable {api : Interface} {p q : OperationPlan}

/-- Operations of one identifier are the same. -/
theorem Exact.eq_of_id (h : api.Exact) (hp : p ∈ api.operations) (hq : q ∈ api.operations)
    (hid : p.id = q.id) : p = q :=
  List.inj_on_of_nodup_map h.handlers hp hq (h.named p hp q hq hid)

theorem Exact.operation?_eq (h : api.Exact) (hp : p ∈ api.operations) :
    api.operation? p.id = some p := by
  have hsome : (api.operation? p.id).isSome = true :=
    List.find?_isSome.2 ⟨p, hp, decide_eq_true rfl⟩
  obtain ⟨q, hq⟩ := Option.isSome_iff_exists.1 hsome
  have hid : q.id = p.id := of_decide_eq_true (List.find?_some hq :)
  rw [hq, h.eq_of_id (List.mem_of_find?_eq_some hq) hp hid]

end Interface

namespace Serve

open Serving

variable {api : Interface} {hooks : Hooks} {plan : OperationPlan} {request : Http.Request}
  {context : Value} {incoming : Incoming} {arguments : List (String × Value)} {passed : Passed}
  {h : History} {calls : List Call} {o : Outcome}

/-! ## Calls for an operation -/

/-- A call concerns an operation: middleware is told its identifier, and a handler is the operation's. -/
def Call.Concerns (plan : OperationPlan) : Call → Prop
  | .authenticate id _ | .wrap id _ => id = plan.id
  | .handle handler _ _ => handler = plan.handler
  | .handlerError _ | .refusal _ => True

theorem Handling.concerns (hh : Handling api hooks plan arguments passed h calls o) :
    ∀ c ∈ calls, c.Concerns plan := by
  cases hh <;> simp [Call.Concerns]

theorem Wrapped.concerns {w : Wrapping} (hw : Wrapped api hooks plan arguments w h calls o) :
    ∀ c ∈ calls, c.Concerns plan := by
  induction hw with
  | done => simp
  | proceed hh _ ih => exact List.forall_mem_append.2 ⟨hh.concerns, ih⟩

/-- Serving an operation calls nothing of another one. -/
theorem Served.concerns (hs : Served api hooks plan request context h calls o) :
    ∀ c ∈ calls, c.Concerns plan := by
  cases hs with
  | refused | broken | rejected | failed => simp [Call.Concerns]
  | unnamed _ _ _ hw => exact List.forall_mem_cons.2 ⟨rfl, hw.concerns⟩
  | named _ _ _ _ hw =>
    exact List.forall_mem_cons.2 ⟨rfl, List.forall_mem_cons.2 ⟨rfl, hw.concerns⟩⟩

/-! ## Routes -/

/-- How messages show the name in a request that leads to no operation. -/
def shownName (request : Http.Request) : String :=
  (request.context.operationName.filter (!·.isEmpty)).getD "<no operationName in request context>"

theorem filter_isEmpty {id : String} (hid : id ≠ "") :
    (some id).filter (!·.isEmpty) = some id := by
  simp [Option.filter, hid]

theorem route_of_id (hexact : api.Exact) (hplan : plan ∈ api.operations)
    (hname : request.context.operationName = some plan.id) :
    route api hooks request context = serve api hooks plan request context := by
  simp only [route, hname, filter_isEmpty (hexact.id_ne plan hplan), hexact.operation?_eq hplan]

theorem route_unknown (hname : request.context.operationName = none ∨
      request.context.operationName = some "" ∨
      ∀ p ∈ api.operations, request.context.operationName ≠ some p.id) :
    route api hooks request context = call (.refusal ⟨.unknownOperation (shownName request), none⟩)
      fun h => hooks.respondToRefusal h ⟨.unknownOperation (shownName request), none⟩ := by
  unfold route shownName
  cases hfilter : request.context.operationName.filter (!·.isEmpty) with
  | none => rfl
  | some id =>
    obtain ⟨hid, hne⟩ := Option.filter_eq_some_iff.1 hfilter
    rcases hname with hnone | hempty | hunknown
    · cases hid.symm.trans hnone
    · cases hid.symm.trans hempty
      cases hne
    · have hfind : api.operation? id = none := by
        refine List.find?_eq_none.2 fun p hp hpid => hunknown p hp ?_
        rw [hid, of_decide_eq_true hpid]
      simp only [hfind, Option.getD_some]

/-- What is called while a request is answered. -/
structure Routed (api : Interface) (hooks : Hooks) (request : Http.Request) (context : Value)
    (h : History) (calls : List Call) : Prop where
  /-- The identifier of an operation leads to this one: it is served, and nothing of another is called. -/
  known : ∀ p ∈ api.operations, request.context.operationName = some p.id →
    (∀ c ∈ calls, c.Concerns p) ∧ ∃ served rest o, calls = served ++ rest ∧
      Served api hooks p request context h served o ∧ ∀ c ∈ rest, c.isHook = false
  /-- Anything else leads to no operation: a hook responds to that first, and neither middleware nor a
  handler is called. -/
  unknown : (request.context.operationName = none ∨ request.context.operationName = some "" ∨
      ∀ p ∈ api.operations, request.context.operationName ≠ some p.id) →
    (∃ rest, calls = .refusal ⟨.unknownOperation (shownName request), none⟩ :: rest) ∧
      ∀ c ∈ calls, c.isHook = false

/-- A request is answered by its route, and after that at most a fault is responded to. -/
theorem dispatch_run_route (hr : incoming.request? = .ok request) (api : Interface) (hooks : Hooks)
    (context : Value) (h : History) :
    ∃ faults : List Refused, ((dispatch api hooks incoming context).run h).2 =
      ((route api hooks request context).run h).2 ++ faults.map Call.refusal := by
  have hattempt : ((attempt api hooks incoming context).run h).2 =
      ((route api hooks request context).run h).2 := by
    simp only [attempt, andThen_run, ofExcept_run, hr]
    generalize (route api hooks request context).run h = x
    obtain ⟨_ | reply, h'⟩ := x <;> rfl
  rw [dispatch_run, ← hattempt]
  generalize (attempt api hooks incoming context).run h = x
  obtain ⟨o, h'⟩ := x
  cases o with
  | ok => exact ⟨[], by simp⟩
  | error raised => exact ⟨[raised.fault], rfl⟩

theorem refusals_isHook (faults : List Refused) : ∀ c ∈ faults.map Call.refusal, c.isHook = false :=
  List.forall_mem_map.2 fun _ _ => rfl

/-- The operation in a request, and no other, is what its answer can call a handler of. -/
theorem dispatch_routes {unit : String} {models : Models} {operations : List OperationPlan}
    (hplanned : ∀ p ∈ operations, p.Planned) (hapi : Interface.of unit models operations = .ok api)
    (hr : incoming.request? = .ok request) (hooks : Hooks) (context : Value) (h : History) :
    (api.operations.map (·.handler)).Nodup ∧
      (∀ p ∈ api.operations, p.handler ∉ OperationPlan.handlerMethods) ∧
      ∃ calls, ((dispatch api hooks incoming context).run h).2 = h ++ calls ∧
        Routed api hooks request context h calls := by
  have hexact := Interface.exact_of hapi hplanned
  obtain ⟨faults, hrun⟩ := dispatch_run_route hr api hooks context h
  refine ⟨hexact.handlers, hexact.free, ?_⟩
  by_cases hknown : ∃ p ∈ api.operations, request.context.operationName = some p.id
  · obtain ⟨p, hp, hname⟩ := hknown
    obtain ⟨calls, o, hserve, hs⟩ := serve_run api hooks p request context h
    rw [route_of_id hexact hp hname, hserve, List.append_assoc] at hrun
    refine ⟨_, hrun, fun q hq hqname => ?_, fun hunknown => ?_⟩
    · have hid : q.id = p.id := Option.some.inj (hqname.symm.trans hname)
      cases hexact.eq_of_id hq hp hid
      refine ⟨List.forall_mem_append.2 ⟨hs.concerns, List.forall_mem_map.2 fun _ _ => trivial⟩, ?_⟩
      exact ⟨calls, _, o, rfl, hs, refusals_isHook faults⟩
    · rw [hname] at hunknown
      rcases hunknown with hnone | hempty | hnot
      · cases hnone
      · exact absurd (Option.some.inj hempty) (hexact.id_ne p hp)
      · exact absurd rfl (hnot p hp)
  · rw [route_unknown (.inr (.inr fun p hp hname => hknown ⟨p, hp, hname⟩)), call_run,
      List.append_assoc] at hrun
    refine ⟨_, hrun, fun q hq hqname => absurd ⟨q, hq, hqname⟩ hknown, fun _ => ⟨⟨_, rfl⟩, ?_⟩⟩
    exact List.forall_mem_append.2 ⟨by simp [Call.isHook, Call.isAuthenticate, Call.isWrap,
      Call.isHandle], refusals_isHook faults⟩

/-! ## A request for an operation -/

/-- An operation with a parameter, a body and authentication. -/
def sampleOperation : Operation :=
  { id := some "addNote", method := .post, path := "/notes", summary := none, description := none,
    tags := [], deprecated := false, security := none, responses := []
    parameters := [[(.text "name", .text "headers"), (.text "in", .text "query"),
      (.text "schema", .object [("type", .text "string")])]]
    requestBody := some [(.text "content", .object [("text/plain", .object [])])] }

/-- Its plan. The parameter has the name of an argument that every handler has. -/
def samplePlan : OperationPlan :=
  { id := "addNote", handler := "add_note", responseType := "AddNoteResponse", method := .post,
    path := "/notes", summary := none, description := none, tags := [], responses := []
    parameters := [⟨"headers", "headers_", .query, false, .string, false, false, none⟩]
    requestBody := some ⟨⟨"text/plain", .text, none⟩, false, none⟩
    authenticated := true }

theorem planned_samplePlan : samplePlan.Planned := by
  have hplan : (OperationPlan.of [] sampleOperation .start).1.toOption = some samplePlan := by
    decide +kernel
  exact ⟨[], sampleOperation, .start, _, eq_ok_of_toOption_fst hplan⟩

/-- The interface of that operation. -/
def sampleInterface : Interface :=
  ⟨"notes", ⟨[]⟩, [samplePlan]⟩

/-- A handler that reports a failure, and middleware that lets everything pass. -/
def sampleHooks : Hooks where
  authenticate := Hooks.acceptAll
  wrap := Hooks.passThrough
  handle _ _ _ _ := .error (.handlerError "no notes")
  respondToHandlerError _ _ := .ok .unsendable
  respondToRefusal := Hooks.respondPlainly

/-- A request for the operation. -/
def sampleRequest : Http.Request :=
  { (default : Http.Request) with
    headers := [("content-type", "text/plain")]
    body := some "milk"
    context := { (default : Http.Context) with operationName := some "addNote" } }

theorem dispatch_routes_sampleRequest :
    ∃ calls, ((dispatch sampleInterface sampleHooks (.request sampleRequest) .null).run []).2 = calls ∧
      (∀ c ∈ calls, c.Concerns samplePlan) ∧ calls.countP Call.isHandle = 1 := by
  have hapi : Interface.of "notes" ⟨[]⟩ [samplePlan] = .ok sampleInterface :=
    eq_ok_of_toOption (by decide +kernel)
  have hplanned : ∀ p ∈ [samplePlan], p.Planned := by simp [planned_samplePlan]
  have hrequest : (Incoming.request sampleRequest).request? = .ok sampleRequest := rfl
  obtain ⟨-, -, calls, hrun, hrouted⟩ := dispatch_routes hplanned hapi hrequest sampleHooks .null []
  have hcount : ((dispatch sampleInterface sampleHooks (.request sampleRequest) .null).run []).2.countP
      Call.isHandle = 1 := by
    decide +kernel
  refine ⟨calls, hrun, (hrouted.known samplePlan List.mem_cons_self rfl).1, ?_⟩
  rw [hrun] at hcount
  exact hcount

end Serve

end ApiContract
