import ApiContract.Proofs.Serve.Routing
import ApiContract.Proofs.Text.Words

/-!
# Types of responses by name

A handler answers with a type of responses that it finds by name. Handlers' names put an underscore between
words and are kept apart; names of types run words together, and nothing keeps those apart. So an operation
has the responses under its type's name to itself if and only if no other identifier shows the same
words (`Interface.response?_of`). Identifiers that are legible do, as their words tell them apart.

What is found under a name is always an operation of the interface, the last one with it; if that is
another operation, its answers are refused.
-/

namespace ApiContract

open Serve

namespace OperationPlan

variable {p q : OperationPlan}

theorem Planned.responseType_eq (h : p.Planned) :
    p.responseType = Text.typeIdentifier p.id ++ "Response" := by
  obtain ⟨_, _, _, _, hof⟩ := h
  exact (parts_of hof).responseType

/-- Operations have one type of responses if it shows the same words of their identifiers. -/
theorem Planned.responseType_eq_iff (hp : p.Planned) (hq : q.Planned) :
    p.responseType = q.responseType ↔ Text.shownWords p.id = Text.shownWords q.id := by
  rw [hp.responseType_eq, hq.responseType_eq, ← Text.typeIdentifier_eq_iff]
  refine ⟨fun h => ?_, fun h => by rw [h]⟩
  rw [← String.toList_inj, String.toList_append, String.toList_append] at h
  exact String.toList_inj.1 (List.append_cancel_right h)

/-- The refusal of what a handler gives in place of an answer of its operation. -/
def misfit (p : OperationPlan) (product : Product) : Refusal :=
  .unwritable ("handler `" ++ p.handler ++ "` returned " ++ product.typeName ++
    ", expected a variant of " ++ p.responseType)

end OperationPlan

namespace Serve

variable {p q : OperationPlan} {a : Answer}

/-- An answer is one of the operation whose type of responses it has been made with. -/
theorem Answer.operation_of {name : Option String} {arguments : List Value}
    (h : Answer.of p name arguments = .ok a) : a.operation = p.id := by
  unfold Answer.of at h
  split at h
  · split at h
    · obtain ⟨⟨status, body⟩, -, h⟩ := bind_eq_ok.1 h
      cases h
      rfl
    · cases h
  · cases h

theorem productResponse_misfit {api : Interface} (h : a.operation ≠ p.id)
    (headers : Option (Option Http.Headers)) :
    productResponse api p ⟨.answer a, headers⟩ = .error (.refusal (p.misfit (.answer a))) :=
  if_neg h

/-- A handler may answer as the operation itself only. -/
theorem productResponse_answer {api : Interface} (hexact : api.Exact) (hp : p ∈ api.operations)
    (hq : q ∈ api.operations) (ha : a.operation = q.id) (headers : Option (Option Http.Headers)) :
    productResponse api p ⟨.answer a, headers⟩ = if q = p then a.toResponse api.models headers
      else .error (.refusal (p.misfit (.answer a))) := by
  by_cases hqp : q = p
  · rw [if_pos hqp]
    exact if_pos (ha.trans (congrArg _ hqp))
  · rw [if_neg hqp]
    exact productResponse_misfit (fun hid => hqp (hexact.eq_of_id hq hp (ha.symm.trans hid))) headers

end Serve

namespace Interface

variable {unit : String} {models : Models} {operations : List OperationPlan} {api : Interface}

/-- What is found under a name is an operation with it. -/
theorem response?_eq_some {name : String} {q : OperationPlan} (h : api.response? name = some q) :
    q ∈ api.operations ∧ q.responseType = name :=
  ⟨List.mem_reverse.1 (List.mem_of_find?_eq_some h), by simpa using List.find?_some h⟩

theorem exists_response? {p : OperationPlan} (hp : p ∈ api.operations) :
    ∃ q, api.response? p.responseType = some q :=
  Option.isSome_iff_exists.1 (List.find?_isSome.2 ⟨p, List.mem_reverse.2 hp, decide_eq_true rfl⟩)

/-- Every operation is found under the name of its type of responses. -/
def Separate (api : Interface) : Prop :=
  ∀ p ∈ api.operations, api.response? p.responseType = some p

theorem separate_of_nodup (h : (api.operations.map (·.responseType)).Nodup) : api.Separate := by
  intro p hp
  have hreverse : (api.operations.reverse.map (·.responseType)).Nodup := by
    rwa [List.map_reverse, List.nodup_reverse]
  exact (find?_key_eq_some hreverse).2 ⟨List.mem_reverse.2 hp, rfl⟩

theorem Separate.eq_of_responseType (h : api.Separate) {p q : OperationPlan} (hp : p ∈ api.operations)
    (hq : q ∈ api.operations) (htype : p.responseType = q.responseType) : p = q := by
  have hfound := h p hp
  rw [htype, h q hq] at hfound
  exact (Option.some.inj hfound).symm

/-- An operation has the responses under its type's name to itself if and only if its identifier shows other
words than those of all other operations. -/
theorem response?_of (hplanned : ∀ p ∈ operations, p.Planned)
    (h : of unit models operations = .ok api) :
    (∀ p ∈ api.operations, ∃ q ∈ api.operations, api.response? p.responseType = some q ∧
      Text.shownWords q.id = Text.shownWords p.id ∧
        ∀ name arguments a headers, Answer.of q name arguments = .ok a →
          productResponse api p ⟨.answer a, headers⟩ = if q = p then a.toResponse api.models headers
            else .error (.refusal (p.misfit (.answer a)))) ∧
    (api.Separate ↔
      api.operations.Pairwise fun p q => Text.shownWords p.id ≠ Text.shownWords q.id) ∧
    ((∀ p ∈ api.operations, Text.Legible p.id) → api.Separate) := by
  have hexact := exact_of h hplanned
  have hplanned : ∀ p ∈ api.operations, p.Planned := by
    obtain ⟨_, -, h⟩ := bind_eq_ok.1 h
    cases h
    exact hplanned
  have htype : ∀ p ∈ api.operations, ∀ q ∈ api.operations, _ := fun p hp q hq =>
    (hplanned p hp).responseType_eq_iff (hplanned q hq)
  have hnodup : api.operations.Nodup := hexact.handlers.of_map
  have hseparate : api.Separate ↔
      api.operations.Pairwise fun p q => Text.shownWords p.id ≠ Text.shownWords q.id := by
    constructor
    · intro hseparate
      refine hnodup.pairwise_of_forall_ne fun p hp q hq hne hwords => hne ?_
      exact hseparate.eq_of_responseType hp hq ((htype p hp q hq).2 hwords)
    · intro hwords
      refine separate_of_nodup (List.pairwise_map.2 ?_)
      exact hwords.imp_of_mem fun hp hq hne heq => hne ((htype _ hp _ hq).1 heq)
  refine ⟨fun p hp => ?_, hseparate, fun hlegible => hseparate.2 ?_⟩
  · obtain ⟨q, hq⟩ := exists_response? hp
    obtain ⟨hmem, hname⟩ := response?_eq_some hq
    refine ⟨q, hmem, hq, (htype q hmem p hp).1 hname, fun name arguments a headers ha => ?_⟩
    exact productResponse_answer hexact hp hmem (Answer.operation_of ha) headers
  · refine hnodup.pairwise_of_forall_ne fun p hp q hq hne hwords => hne ?_
    refine List.inj_on_of_nodup_map hexact.handlers hp hq ?_
    rw [(hplanned p hp).handler_eq, (hplanned q hq).handler_eq]
    exact Text.identifier_eq_of_typeIdentifier (hlegible p hp) (hlegible q hq)
      (Text.typeIdentifier_eq_iff.2 hwords) _

/-! ## Two operations -/

/-- An operation with one response. -/
def operationNamed (id : String) : Operation :=
  { sampleOperation with
    id := some id, parameters := [], requestBody := none, responses := [(.text "200", .object [])] }

/-- Its plan. -/
def planNamed (id : String) : OperationPlan :=
  { samplePlan with
    id, parameters := [], requestBody := none, responses := [⟨"Ok", some 200, none, none⟩]
    handler := Text.identifier id OperationPlan.handlerMethods
    responseType := Text.typeIdentifier id ++ "Response" }

theorem planned_planNamed {id : String}
    (h : (OperationPlan.of [] (operationNamed id) .start).1.toOption = some (planNamed id)) :
    (planNamed id).Planned :=
  ⟨[], operationNamed id, .start, _, eq_ok_of_toOption_fst h⟩

/-- The interface of two operations. -/
def interfaceOf (id id' : String) : Interface :=
  ⟨"notes", ⟨[]⟩, [planNamed id, planNamed id']⟩

theorem separate_addNote_listNotes : (interfaceOf "addNote" "listNotes").Separate := by
  have hadd : (planNamed "addNote").Planned := planned_planNamed (by decide +kernel)
  have hlist : (planNamed "listNotes").Planned := planned_planNamed (by decide +kernel)
  have hplanned : ∀ p ∈ [planNamed "addNote", planNamed "listNotes"], p.Planned :=
    List.forall_mem_cons.2 ⟨hadd, List.forall_mem_cons.2 ⟨hlist, List.forall_mem_nil _⟩⟩
  have hapi : of "notes" ⟨[]⟩ [planNamed "addNote", planNamed "listNotes"] =
      .ok (interfaceOf "addNote" "listNotes") := eq_ok_of_toOption (by decide +kernel)
  refine (response?_of hplanned hapi).2.2 ?_
  show ∀ p ∈ [planNamed "addNote", planNamed "listNotes"], Text.Legible p.id
  simp only [List.forall_mem_cons, Text.Legible, planNamed]
  decide +kernel

/-- The operations have handlers of their own and share the type of their responses; an answer of that
type is refused for one of them. -/
theorem not_separate_a12 : (∀ p ∈ (interfaceOf "a12" "a1_2").operations, p.Planned) ∧
    of "notes" ⟨[]⟩ (interfaceOf "a12" "a1_2").operations = .ok (interfaceOf "a12" "a1_2") ∧
    (planNamed "a12").handler ≠ (planNamed "a1_2").handler ∧
    (interfaceOf "a12" "a1_2").response? (planNamed "a12").responseType = some (planNamed "a1_2") ∧
    planNamed "a12" ≠ planNamed "a1_2" ∧
    ∃ a, Answer.of (planNamed "a1_2") (some "Ok") [] = .ok a ∧
      productResponse (interfaceOf "a12" "a1_2") (planNamed "a12") ⟨.answer a, none⟩ =
        .error (.refusal ((planNamed "a12").misfit (.answer a))) := by
  refine ⟨?_, eq_ok_of_toOption (by decide +kernel), by decide +kernel, by decide +kernel,
    by decide +kernel, ⟨"a1_2", "A12Response", ⟨"Ok", some 200, none, none⟩, 200, .null⟩, ?_, ?_⟩
  · have h : (planNamed "a12").Planned := planned_planNamed (by decide +kernel)
    have h' : (planNamed "a1_2").Planned := planned_planNamed (by decide +kernel)
    exact List.forall_mem_cons.2 ⟨h, List.forall_mem_cons.2 ⟨h', List.forall_mem_nil _⟩⟩
  · have htype : (planNamed "a1_2").responseType = "A12Response" := by decide +kernel
    rw [← htype]
    rfl
  · exact productResponse_misfit (by decide) _

end Interface

end ApiContract
