import ApiContract.Proofs.Models
import ApiContract.Proofs.Plan.Sound

/-!
# Interfaces of compilations

The handlers of sound plans are accepted unless two share a name (`Interface.ensureHandlers_eq_ok`). As types
in order are accepted unless a union has no variants, nothing else can keep a unit of a compilation from
having an interface (`Compilation.exists_interface_iff`).
-/

namespace ApiContract

/-! ## Handlers -/

namespace OperationPlan

/-- The arguments of a handler after those for parameters. -/
def lastArguments (body authenticated : Bool) : List String :=
  (if body then ["request_body"] else []) ++
    (["headers", "request_context", "context"] ++ if authenticated then ["auth_ok"] else [])

theorem lastArguments_fixed : ∀ body authenticated : Bool,
    ("self" :: lastArguments body authenticated).Nodup ∧
      ∀ a ∈ "self" :: lastArguments body authenticated, a ∈ ParameterPlan.handlerArguments := by
  decide

theorem handlerSignature_eq (p : OperationPlan) : p.handlerSignature =
    ("self" :: p.parameters.map (·.argument)) ++
      lastArguments p.requestBody.isSome p.authenticated := by
  rw [handlerSignature, lastArguments, List.append_assoc, List.append_assoc]

/-- The arguments of a handler have different names. -/
theorem nodup_signature {p : OperationPlan} (hnodup : (p.parameters.map (·.argument)).Nodup)
    (hfree : ∀ q ∈ p.parameters, q.argument ∉ ParameterPlan.handlerArguments) :
    p.handlerSignature.Nodup := by
  have hfree : ∀ a ∈ p.parameters.map (·.argument), a ∉ ParameterPlan.handlerArguments :=
    List.forall_mem_map.2 hfree
  obtain ⟨hlastArguments, hfixed⟩ := lastArguments_fixed p.requestBody.isSome p.authenticated
  obtain ⟨hself, hlast⟩ := List.nodup_cons.1 hlastArguments
  rw [handlerSignature_eq]
  refine (List.nodup_cons.2 ⟨fun hmem => ?_, hnodup⟩).append hlast ?_
  · exact hfree _ hmem (hfixed _ List.mem_cons_self)
  · refine List.disjoint_cons_left.2 ⟨hself, fun a ha hmem => ?_⟩
    exact hfree a ha (hfixed a (List.mem_cons_of_mem _ hmem))

end OperationPlan

namespace Interface

variable {m : Models}

theorem ensureArgument_of_sound {p : ParameterPlan} (h : p.Sound m.types) :
    ensureArgument m p = .ok () := by
  refine bind_eq_ok.2 ⟨(), Models.ensureKnown_eq_ok.2 h.known, ?_⟩
  rw [h.named.isIdentifier, h.named.notKeyword]
  rfl

theorem ensureBody_of_sound {b : BodyPlan} (h : b.Sound m.types) : ensureBody m b = .ok () := by
  unfold ensureBody
  split
  · rename_i e _ he
    exact Models.ensureKnown_eq_ok.2 (h.known e he)
  · rename_i hformat hnone
    have := h.typed hformat
    rw [hnone] at this
    cases this
  · rfl

theorem ensureSignature_of_sound {p : OperationPlan} (h : p.Sound m.types) :
    ensureSignature m p = .ok () := by
  unfold ensureSignature
  rw [decide_eq_true (OperationPlan.nodup_signature h.arguments h.free)]
  refine bind_eq_ok.2 ⟨(), forM_eq_ok.2 fun q hq => ensureArgument_of_sound (h.parameters q hq), ?_⟩
  cases hbody : p.requestBody with
  | none => rfl
  | some b => exact bind_eq_ok.2 ⟨(), ensureBody_of_sound (h.requestBody b hbody), rfl⟩

/-- Handlers are accepted if each can have a signature and all have different names, none of them taken. -/
theorem ensureHandlers_iff {unit : String} : ∀ {ps : List OperationPlan} {taken : List String},
    ensureHandlers unit m taken ps = .ok () ↔ (∀ p ∈ ps, ensureSignature m p = .ok ()) ∧
      (ps.map (·.handler)).Nodup ∧ ∀ p ∈ ps, p.handler ∉ taken
  | [], _ => iff_of_true rfl (by simp)
  | p :: ps, taken => by
    rw [ensureHandlers]
    by_cases htaken : p.handler ∈ taken
    · rw [if_pos (List.contains_iff_mem.2 htaken)]
      refine iff_of_false (fun h => by cases h) fun h => ?_
      exact h.2.2 p List.mem_cons_self htaken
    · rw [if_neg (fun h => htaken (List.contains_iff_mem.1 h))]
      refine bind_eq_ok.trans ?_
      rw [List.forall_mem_cons, List.forall_mem_cons, List.map_cons, List.nodup_cons]
      simp only [ensureHandlers_iff, List.mem_cons, not_or, List.mem_map]
      constructor
      · rintro ⟨_, hp, hps, hnodup, hfree⟩
        refine ⟨⟨hp, hps⟩, ⟨?_, hnodup⟩, htaken, fun q hq => (hfree q hq).2⟩
        rintro ⟨q, hq, hname⟩
        exact (hfree q hq).1 hname
      · rintro ⟨⟨hp, hps⟩, ⟨hfresh, hnodup⟩, -, hfree⟩
        exact ⟨(), hp, hps, hnodup, fun q hq => ⟨fun hname => hfresh ⟨q, hq, hname⟩, hfree q hq⟩⟩

/-- The handlers of sound plans are refused only if two share a name. -/
theorem ensureHandlers_eq_ok {unit : String} {ps : List OperationPlan} {taken : List String}
    (h : ∀ p ∈ ps, p.Sound m.types) : ensureHandlers unit m taken ps = .ok () ↔
      (ps.map (·.handler)).Nodup ∧ ∀ p ∈ ps, p.handler ∉ taken :=
  ensureHandlers_iff.trans (and_iff_right fun p hp => ensureSignature_of_sound (h p hp))

theorem handler_notMem_reservedNames {name : String} (h : Text.IsName name) :
    name ∉ reservedNames := by
  have hreserved : ∀ n ∈ reservedNames, n.toList.head? = some '_' := by decide
  intro hmem
  obtain ⟨c, cs, hname, hc⟩ := h.head
  have hhead := hreserved name hmem
  rw [hname, List.head?_cons] at hhead
  rw [Option.some.inj hhead] at hc
  exact absurd hc (by decide)

end Interface

/-- The types of a compilation are in order, and the plans of its units are sound. -/
theorem Compilation.sound_of_ofSource {disk : Disk} {input : String} {source : Source}
    {units : List Deployment} {withGateway : Bool} {c : Compilation} {notices : List Notice}
    (h : ofSource disk input source units withGateway = (.ok c, notices)) :
    NamedType.Ordered c.types ∧ ∀ unit, ∀ p ∈ c.plansOf unit, p.Sound c.types := by
  obtain ⟨-, _, _, _, _, _, hmade, -⟩ := made_of_ofSource h
  obtain ⟨hordered, hsound⟩ := hmade.sound
  refine ⟨hordered, fun unit => ?_⟩
  unfold plansOf
  cases hlookup : c.plans.lookup unit with
  | none => exact fun _ hp => absurd hp List.not_mem_nil
  | some ps => exact hsound _ (mem_of_lookup hlookup)

namespace Interface

/-- A description with an operation and a schema. -/
def sampleSchema (schema : Tree) : Tree :=
  .object [
    ("openapi", .text "3.0.0"),
    ("paths", .object [("/a", .object [("get", .object [("operationId", .text "listFoo")])])]),
    ("components", .object [("schemas", .object [("Pet", schema)])])]

/-- A record with a field. -/
def sampleRecord : Tree :=
  .object [("properties", .object [("id", .object [("type", .text "string")])])]

/-- A union without variants. -/
def sampleUnion : Tree :=
  .object [("oneOf", .array [])]

/-- What comes of a description that is given on the standard input, for one unit. -/
def sampleResult (t : Tree) : Except Failure Compilation × List Notice :=
  Compilation.ofSource ⟨⟨true, []⟩, [], []⟩ ((Json.print? .compact t).getD "") .input
    [⟨"all", none, none⟩] false

/-- The description may be compiled as it is if it is the same after it has been written and read. -/
theorem sampleResult_eq {t : Tree}
    (h : (Source.read ⟨⟨true, []⟩, [], []⟩ ((Json.print? .compact t).getD "") .input).toOption = some t) :
    sampleResult t = Compilation.ofDocument [] (Source.input.place ⟨true, []⟩) t [⟨"all", none, none⟩]
      false :=
  Compilation.ofSource_of_read (eq_ok_of_toOption h)

end Interface

end ApiContract
