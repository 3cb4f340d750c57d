import ApiContract.Proofs.Serve.Routing
import ApiContract.Scaffold

/-!
# Keyword arguments

A handler's arguments are stated three times: where it is called, in its signature and in the scaffold of
its method. All three have the same names in the same order, those of `OperationPlan.keywords`, and no name
occurs twice (`keywords_agree`). `Scaffold.keywords_methodLines` reads them back from the lines of a method,
and `Served.keywords` finds them in every call that is made while a request is served.
-/

namespace ApiContract

namespace OperationPlan

/-- The keyword arguments of an operation's handler. -/
def keywords (p : OperationPlan) : List String :=
  p.parameters.map (·.argument) ++ lastArguments p.requestBody.isSome p.authenticated

theorem handlerSignature_keywords (p : OperationPlan) : p.handlerSignature = "self" :: p.keywords :=
  p.handlerSignature_eq

end OperationPlan

/-! ## Scaffolds -/

namespace Scaffold

/-- The name that a line of a parameter starts with, after its indentation. -/
def parameterName (line : String) : String :=
  String.ofList ((line.toList.drop 8).takeWhile (· ≠ ':'))

/-- Whether a line ends the parameters of a method. -/
def endsParameters (line : String) : Bool :=
  "    ) -> ".toList.isPrefixOf line.toList

/-- The names of a method's keyword-only parameters: of the lines after the star. -/
def keywordsOf (lines : List String) : List String :=
  (((lines.dropWhile (· ≠ "        *,")).drop 1).takeWhile (!endsParameters ·)).map parameterName

/-- The line of a parameter. -/
def parameterOf (field : String × String) : String :=
  "        " ++ field.1 ++ ": " ++ field.2 ++ ","

/-- The parameters of a method that do not come from the parts of a request, with their types. -/
def lastFields (p : OperationPlan) : List (String × String) :=
  [("headers", "httpx.Headers"), ("request_context", "ProxyRequestContext"), ("context", "Any")] ++
    if p.authenticated then [("auth_ok", "Any")] else []

theorem methodLines_eq (p : OperationPlan) : methodLines p =
    ["", "    async def " ++ p.handler ++ "(", "        self,", "        *,"] ++
      ((arguments p ++ lastFields p).map parameterOf ++
        (("    ) -> " ++ p.responseType ++ ":") :: (commentLines p ++ ["        raise NotImplementedError"]))) := by
  unfold methodLines lastFields
  cases p.authenticated <;> simp <;> rfl

theorem parameterName_parameterOf {field : String × String} (h : ':' ∉ field.1.toList) :
    parameterName (parameterOf field) = field.1 := by
  have hline : (parameterOf field).toList.drop 8 = field.1.toList ++ ':' :: (" " ++ field.2 ++ ",").toList := by
    simp [parameterOf, String.toList_append]
  have hname : ∀ c ∈ field.1.toList, decide (c ≠ ':') = true := by
    intro c hc
    simp only [ne_eq, decide_eq_true_eq]
    rintro rfl
    exact h hc
  rw [parameterName, hline, List.takeWhile_append_of_pos hname]
  simp

theorem endsParameters_parameterOf (field : String × String) : endsParameters (parameterOf field) = false := by
  simp [endsParameters, parameterOf, String.toList_append, List.isPrefixOf]

theorem endsParameters_last (p : OperationPlan) :
    endsParameters ("    ) -> " ++ p.responseType ++ ":") = true := by
  simp [endsParameters, String.toList_append, List.isPrefixOf]

theorem map_fst_fields (p : OperationPlan) :
    (arguments p ++ lastFields p).map (·.1) = p.keywords := by
  unfold arguments lastFields OperationPlan.keywords OperationPlan.lastArguments
  cases p.requestBody <;> cases p.authenticated <;> simp [Function.comp_def]

theorem colon_notMem_keywords {p : OperationPlan} (h : ∀ q ∈ p.parameters, Text.IsName q.argument) :
    ∀ k ∈ p.keywords, ':' ∉ k.toList := by
  have hlast : ∀ body authenticated : Bool, ∀ k ∈ OperationPlan.lastArguments body authenticated,
      ':' ∉ k.toList := by
    decide
  refine List.forall_mem_append.2 ⟨List.forall_mem_map.2 fun q hq hmem => ?_, hlast _ _⟩
  exact absurd ((h q hq).chars ':' hmem) (by decide)

/-- The method in a scaffold has the keyword arguments of its operation. -/
theorem keywords_methodLines {p : OperationPlan} (h : ∀ q ∈ p.parameters, Text.IsName q.argument) :
    keywordsOf (methodLines p) = p.keywords := by
  have hhead : "    async def " ++ p.handler ++ "(" ≠ "        *," := by
    intro heq
    have hchars := congrArg (fun l => l.toList[4]?) heq
    simp [String.toList_append] at hchars
  have hlines : ∀ l ∈ (arguments p ++ lastFields p).map parameterOf, (!endsParameters l) = true :=
    List.forall_mem_map.2 fun field _ => by rw [endsParameters_parameterOf, Bool.not_false]
  have hnames : ((arguments p ++ lastFields p).map parameterOf).map parameterName =
      (arguments p ++ lastFields p).map (·.1) := by
    rw [List.map_map]
    refine List.map_congr_left fun field hfield => parameterName_parameterOf ?_
    have hmem := List.mem_map_of_mem (f := Prod.fst) hfield
    rw [map_fst_fields] at hmem
    exact colon_notMem_keywords h _ hmem
  rw [keywordsOf, methodLines_eq]
  simp only [List.cons_append, List.nil_append, ne_eq, List.dropWhile_cons]
  simp only [hhead, not_false_eq_true, decide_true, if_true, decide_not]
  simp only [show ("" = "        *,") = False by decide, show ("        self," = "        *,") = False by decide]
  simp only [decide_false, Bool.not_false, if_true, Bool.not_true, Bool.false_eq_true, if_false,
    List.drop_succ_cons, List.drop_zero]
  rw [List.takeWhile_append_of_pos hlines, List.takeWhile_cons, endsParameters_last]
  simp only [Bool.not_true, Bool.false_eq_true, if_false, List.append_nil]
  rw [hnames, map_fst_fields]

/-- A scaffold has the method of every operation. -/
theorem methodLines_infix {p : OperationPlan} {plans : List OperationPlan} (hp : p ∈ plans)
    (unit path : String) : methodLines p <:+: lines unit path plans := by
  have hmethods : methodLines p <:+: plans.flatMap methodLines := by
    obtain ⟨before, after, rfl⟩ := List.append_of_mem hp
    refine ⟨before.flatMap methodLines, after.flatMap methodLines, ?_⟩
    simp
  exact hmethods.trans (List.suffix_append _ _).isInfix

end Scaffold

/-! ## Calls -/

namespace Serve

/-- The keyword arguments that are passed along with a request. -/
def Passed.keywords (p : Passed) : List String :=
  ["headers", "request_context", "context"] ++ if p.identity.isSome then ["auth_ok"] else []

/-- The keyword arguments of a call of a handler. -/
def Call.keywords : Call → List String
  | .handle _ arguments passed => arguments.map (·.1) ++ passed.keywords
  | _ => []

/-- A wrapping hook that passes somebody on wherever it proceeds, or else nobody. What it proceeds to takes
just as many arguments as the hook has been given. -/
inductive HandsOn (named : Bool) : Wrapping → Prop
  | done (o : Outcome) : HandsOn named (.done o)
  | proceed {passed : Passed} {next : History → Outcome → Wrapping} :
    passed.identity.isSome = named → (∀ h o, HandsOn named (next h o)) →
    HandsOn named (.proceed passed next)

theorem handsOn_passThrough (h : History) (id : String) (passed : Passed) :
    HandsOn passed.identity.isSome (Hooks.passThrough h id passed) :=
  .proceed rfl fun _ o => .done o

variable {api : Interface} {hooks : Hooks} {plan : OperationPlan} {request : Http.Request}
  {context : Value} {headers : Http.Headers} {arguments : List (String × Value)} {passed : Passed}
  {h : History} {calls : List Call} {o : Outcome}

theorem map_fst_arguments {m : Models} {ps : List ParameterPlan}
    (hok : Serve.arguments m ps request headers = .ok arguments) :
    arguments.map (·.1) = ps.map (·.argument) := by
  refine (forall₂_eq_iff.1 ((forall₂_of_mapM hok).imp fun p given h => ?_)).symm
  obtain ⟨v, -, h⟩ := bind_eq_ok.1 h
  cases h
  rfl

/-- The arguments that are taken from a request, with those that are passed along. -/
theorem keywords_takeArguments (htake : takeArguments api plan request = .ok (headers, arguments))
    (hpassed : passed.identity.isSome = plan.authenticated) :
    arguments.map (·.1) ++ passed.keywords = plan.keywords := by
  have hgiven : arguments.map (·.1) =
      plan.parameters.map (·.argument) ++ if plan.requestBody.isSome then ["request_body"] else [] := by
    obtain ⟨_, -, htake⟩ := bind_eq_ok.1 htake
    obtain ⟨given, hgiven, htake⟩ := bind_eq_ok.1 htake
    cases hbody : plan.requestBody with
    | none =>
      rw [hbody] at htake
      cases htake
      rw [map_fst_arguments hgiven]
      exact (List.append_nil _).symm
    | some b =>
      rw [hbody] at htake
      obtain ⟨v, -, htake⟩ := bind_eq_ok.1 htake
      cases htake
      rw [List.map_append, map_fst_arguments hgiven]
      rfl
  rw [hgiven, Passed.keywords, hpassed, List.append_assoc]
  rfl

theorem Handling.keywords (hh : Handling api hooks plan arguments passed h calls o)
    (hgiven : arguments.map (·.1) ++ passed.keywords = plan.keywords) :
    ∀ c ∈ calls, c.isHandle = true → c.keywords = plan.keywords := by
  cases hh <;> simpa [Call.isHandle, Call.keywords] using hgiven

theorem Wrapped.keywords {w : Wrapping} (hw : Wrapped api hooks plan arguments w h calls o)
    (hhands : HandsOn plan.authenticated w)
    (hgiven : ∀ passed : Passed, passed.identity.isSome = plan.authenticated →
      arguments.map (·.1) ++ passed.keywords = plan.keywords) :
    ∀ c ∈ calls, c.isHandle = true → c.keywords = plan.keywords := by
  induction hw with
  | done => exact fun _ hc => absurd hc List.not_mem_nil
  | proceed hh _ ih =>
    obtain _ | ⟨hpassed, hnext⟩ := hhands
    exact List.forall_mem_append.2 ⟨hh.keywords (hgiven _ hpassed), ih (hnext _ _)⟩

/-- Handlers are called with the keyword arguments of their operations. -/
theorem Served.keywords (hs : Served api hooks plan request context h calls o)
    (hwrap : ∀ h passed, HandsOn passed.identity.isSome (hooks.wrap h plan.id passed)) :
    ∀ c ∈ calls, c.isHandle = true → c.keywords = plan.keywords := by
  have hhands : ∀ h passed, passed.identity.isSome = plan.authenticated →
      HandsOn plan.authenticated (hooks.wrap h plan.id passed) :=
    fun h passed hpassed => hpassed ▸ hwrap h passed
  cases hs with
  | refused | broken | rejected | failed => simp [Call.isHandle]
  | unnamed htake hplan hpassed hw =>
    subst hpassed
    refine List.forall_mem_cons.2 ⟨by simp [Call.isHandle], ?_⟩
    exact hw.keywords (hhands _ _ hplan.symm) fun _ => keywords_takeArguments htake
  | named htake hplan _ _ hw =>
    refine List.forall_mem_cons.2 ⟨by simp [Call.isHandle],
      List.forall_mem_cons.2 ⟨by simp [Call.isHandle], ?_⟩⟩
    exact hw.keywords (hhands _ _ hplan.symm) fun _ => keywords_takeArguments htake

/-- What a handler is called with is what its signature asks for and what its scaffold has. -/
theorem keywords_agree {table : Entries} {label : String} {parameters : List Tree}
    {s s' : Compile.State}
    (hplan : ParameterPlan.all table label parameters s = (.ok plan.parameters, s'))
    (hwrap : ∀ h passed, HandsOn passed.identity.isSome (hooks.wrap h plan.id passed))
    (api : Interface) (request : Http.Request) (context : Value) (h : History) :
    plan.handlerSignature = "self" :: plan.keywords ∧ plan.handlerSignature.Nodup ∧
      Scaffold.keywordsOf (Scaffold.methodLines plan) = plan.keywords ∧
      (∀ unit path plans, plan ∈ plans →
        Scaffold.methodLines plan <:+: Scaffold.lines unit path plans) ∧
      ∃ calls, ((serve api hooks plan request context).run h).2 = h ++ calls ∧
        ∀ c ∈ calls, c.isHandle = true → c.keywords = plan.keywords := by
  have hnamed := ParameterPlan.named_all hplan
  obtain ⟨calls, o, hrun, hs⟩ := serve_run api hooks plan request context h
  refine ⟨plan.handlerSignature_keywords, OperationPlan.nodup_signature hnamed.nodup hnamed.free,
    Scaffold.keywords_methodLines hnamed.isName,
    fun unit path _ hmem => Scaffold.methodLines_infix hmem unit path, calls, ?_, hs.keywords hwrap⟩
  rw [hrun]

theorem keywords_agree_sampleRequest : ∃ calls,
    ((serve sampleInterface sampleHooks samplePlan sampleRequest .null).run []).2 = calls ∧
      calls.countP Call.isHandle = 1 ∧ ∀ c ∈ calls, c.isHandle = true → c.keywords =
        ["headers_", "request_body", "headers", "request_context", "context", "auth_ok"] := by
  have hparameters : (ParameterPlan.all [] sampleOperation.label
      (sampleOperation.parameters.map (Tree.map none)) .start).1.toOption = some samplePlan.parameters := by
    decide +kernel
  have hwrap : ∀ h passed, HandsOn passed.identity.isSome (sampleHooks.wrap h samplePlan.id passed) :=
    fun h => handsOn_passThrough h samplePlan.id
  obtain ⟨-, -, -, -, calls, hrun, hkeywords⟩ := keywords_agree (eq_ok_of_toOption_fst hparameters) hwrap
    sampleInterface sampleRequest .null []
  have hcount : ((serve sampleInterface sampleHooks samplePlan sampleRequest .null).run []).2.countP
      Call.isHandle = 1 := by
    decide +kernel
  refine ⟨calls, hrun, ?_, hkeywords⟩
  rw [hrun] at hcount
  exact hcount

end Serve

end ApiContract
