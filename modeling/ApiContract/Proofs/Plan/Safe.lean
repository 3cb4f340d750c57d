import ApiContract.Proofs.Compile.Table
import ApiContract.Proofs.Plan.Collect

/-!
# Planning a named description

* `plan_nameSchemas`: planning the operations of a description that has been named never meets a schema
  that stands inline and should have got a name, if naming goes through all that the operations are made
  of.
-/

namespace ApiContract.Compile

open Tree Naming

variable {I : List NamedType → Prop} {table : Entries} {α β : Type}

theorem Keeps.mapM {f : α → Run β} : ∀ {l : List α}, (∀ a ∈ l, Keeps I (f a)) → Keeps I (l.mapM f)
  | [], _ => keeps_pure _
  | a :: l, h => by
    rw [List.mapM_cons]
    exact (h a List.mem_cons_self).bind fun _ =>
      (Keeps.mapM fun a ha => h a (List.mem_cons_of_mem _ ha)).bind fun _ => keeps_pure _

theorem keeps_throw_bind {f : Failure} {k : α → Run β} (hf : f.isInlineSchema = false) :
    Keeps I (throw f >>= k) := fun s _ => by
  rw [Ends, bind_eq]
  exact hf

/-- A run that goes on unless something is wrong. -/
theorem keeps_refuse {f : Failure} {c : Prop} [Decidable c] {k : α → Run β} {m : Run β}
    (hf : f.isInlineSchema = false) (hm : Keeps I m) : Keeps I (if c then throw f >>= k else m) := by
  split
  · exact keeps_throw_bind hf
  · exact hm

/-- What stands inline where a type is asked for has a type expression. -/
theorem Tidy.typeOf (ht : Tidy table) {t : Tree} (h : Prepared .inline t) : Safe (typeOf table t) :=
  keeps_typeWith (fun r => ht.typeOfReference (fun _ _ _ h => h) _ r) t h

/-! ## Bodies -/

theorem safe_jsonFormat (ht : Tidy table) {t : Tree} (h : Prepared .inline t) :
    Safe (BodyPlan.jsonFormat table t) := by
  refine Keeps.lift_bind (local_resolve table t).fits fun resolved _ => ?_
  refine Keeps.lift_bind (local_kindOf resolved).fits fun kind _ => ?_
  split
  · exact (ht.typeOf h).bind fun _ => keeps_pure _
  · dsimp only
    split
    · exact keeps_throw rfl
    · exact keeps_pure _

theorem safe_bodyPlan (ht : Tidy table) {mediaType : String} {schema : Option Tree}
    (h : ∀ t, schema = some t → Prepared .inline t) : Safe (BodyPlan.of table mediaType schema) := by
  unfold BodyPlan.of
  split
  · cases schema with
    | none => exact keeps_pure _
    | some t => exact (safe_jsonFormat ht (h t rfl)).bind fun _ => keeps_pure _
  · exact keeps_pure _

/-- A single media type is the only entry of a map. -/
theorem fits_singleMediaType (content : Tree) (what : String) :
    Fits (BodyPlan.singleMediaType content what) fun found => ∀ p, found = some p →
      ∃ a k, content = .map a [(k, p.2)] := by
  unfold BodyPlan.singleMediaType
  split
  · intro p hp
    cases hp
  · split
    · rename_i hes
      cases content with
      | map a es =>
        cases hes
        rintro p ⟨⟩
        exact ⟨a, _, rfl⟩
      | _ => cases hes
    · dsimp only
      split
      · rfl
      · refine (local_iterate content).fits.bind fun parts _ => ?_
        split
        · rfl
        · refine (fits_mapM (R := fun _ => True) fun t _ => ?_).bind fun _ _ => rfl
          split <;> trivial

/-- The schema of a media type that naming has gone through. -/
theorem prepared_schema {t : Tree} (h : Prepared (.object .mediaType) t) :
    Prepared .inline (t.getD "schema") := by
  rw [Tree.getD]
  cases hx : t.get? "schema" with
  | none => exact .skip rfl
  | some x =>
    cases t with
    | map a es => exact h.entry rfl (Entries.mem_of_at? hx)
    | _ => cases hx

theorem safe_ofContent (ht : Tidy table) {content : Tree} {what : String}
    (h : Prepared (.object (.mapOf .mediaType)) content) :
    Safe (BodyPlan.ofContent table content what) := by
  refine Keeps.lift_bind (fits_singleMediaType content what) fun found hfound => ?_
  cases found with
  | none => exact keeps_pure _
  | some p =>
    obtain ⟨mediaType, entry⟩ := p
    obtain ⟨a, k, rfl⟩ := hfound _ rfl
    have hentry : Prepared (.object .mediaType) entry := h.entry rfl List.mem_cons_self
    -- What the plan does with the media type is of no account.
    have hplan := fun schema => @safe_bodyPlan table ht mediaType schema
    dsimp only
    generalize BodyPlan.of table mediaType = plan at hplan ⊢
    refine (hplan _ fun t hschema => ?_).bind fun _ => keeps_pure _
    split at hschema
    · cases hschema
    · exact Option.some.inj hschema ▸ prepared_schema hentry

/-! ## Parameters -/

theorem fits_isPlainString (t : Tree) : Fits (Schema.isPlainString t) fun _ => True := by
  unfold Schema.isPlainString
  split
  · split
    · trivial
    · refine (local_kind _).fits.bind fun _ _ => ?_
      split
      · trivial
      · split <;> trivial
  · trivial

theorem fits_needsParsing (t : Tree) : Fits (ParameterPlan.needsParsing t) fun _ => True :=
  (fits_isPlainString t).map fun _ _ => trivial

theorem fits_ensureScalar (types : List NamedType) (type : TypeExpr) (name label : String) :
    Fits (ParameterPlan.ensureScalar types type name label) fun _ => True := by
  unfold ParameterPlan.ensureScalar
  split
  · rfl
  · rfl
  · rfl
  · rfl
  · trivial
  · dsimp only
    split
    · split <;> trivial
    · rfl

theorem fits_itemSchema (t : Tree) : Fits (ParameterPlan.itemSchema table t) fun _ => True := by
  refine (local_resolve table t).fits.bind fun resolved _ => ?_
  split <;> trivial

theorem safe_parsing {t : Tree} {type : TypeExpr} {place : ParameterPlace} {name label : String} :
    Safe (ParameterPlan.parsing table t type place name label) := by
  have hensure : ∀ (item : TypeExpr) (parsed : Bool), Safe (do
      lift (ParameterPlan.ensureScalar (← get).types item name label)
      return parsed) := by
    exact fun item parsed => Keeps.get_bind fun _ =>
      (keeps_lift (fits_ensureScalar _ _ _ _)).bind fun _ => keeps_pure _
  unfold ParameterPlan.parsing
  split
  · dsimp only
    split
    · exact keeps_throw rfl
    · refine Keeps.lift_bind (Fits.bind (fits_itemSchema t) fun _ _ => fits_needsParsing _) ?_
      exact fun parsed _ => hensure _ parsed
  · exact Keeps.lift_bind (fits_needsParsing t) fun parsed _ => hensure _ parsed

theorem safe_parameterPlan (ht : Tidy table) {label : String} {a : Anchor} {es : Entries}
    (h : ∀ x, es.get? "schema" = some x → Prepared .inline x) :
    Safe (ParameterPlan.of table label (.map a es)) := by
  have hschema : Prepared .inline (es.orNull "schema") := by
    rw [Entries.orNull]
    cases hx : es.get? "schema" with
    | none => exact .skip rfl
    | some x => exact h x hx
  unfold ParameterPlan.of
  dsimp only [Tree.entries?]
  split
  · refine keeps_refuse rfl (keeps_refuse rfl (keeps_refuse rfl ?_))
    refine (ht.typeOf hschema).bind fun type => safe_parsing.bind fun parsed => ?_
    exact keeps_refuse rfl (Keeps.lift_bind (local_textField _ _).fits fun _ _ => keeps_pure _)
  · exact keeps_throw rfl

theorem safe_parameterPlans (ht : Tidy table) {label : String} {ps : List Entries}
    (h : ∀ es ∈ ps, ∀ x, es.get? "schema" = some x → Prepared .inline x) :
    Safe (ParameterPlan.all table label (ps.map (Tree.map none))) := by
  refine (Keeps.mapM fun p hp => ?_).bind fun _ => keeps_pure _
  obtain ⟨es, hes, rfl⟩ := List.mem_map.1 hp
  exact safe_parameterPlan ht (h es hes)

/-! ## Operations -/

/-- The content of a body or response. -/
theorem prepared_content {es : Entries}
    (h : ∀ x, es.get? "content" = some x → Prepared (.object (.mapOf .mediaType)) x) :
    Prepared (.object (.mapOf .mediaType)) (es.orNull "content") := by
  rw [Entries.orNull]
  cases hx : es.get? "content" with
  | none => exact .skip rfl
  | some x => exact h x hx

theorem safe_requestBodyPlan (ht : Tidy table) {label : String} {es : Entries}
    (h : ∀ x, es.get? "content" = some x → Prepared (.object (.mapOf .mediaType)) x) :
    Safe (RequestBodyPlan.of table label (.map none es)) := by
  refine (safe_ofContent ht (prepared_content h)).bind fun body => ?_
  cases body with
  | none => exact keeps_pure _
  | some body => exact Keeps.lift_bind (local_textField _ _).fits fun _ _ => keeps_pure _

theorem safe_responsePlan (ht : Tidy table) {label name : String} {status : Option Nat} {t : Tree}
    (h : ∀ x, t.get? "content" = some x → Prepared (.object (.mapOf .mediaType)) x) :
    Safe (ResponsePlan.of table label name status t) := by
  cases t with
  | map a es =>
    exact (safe_ofContent ht (prepared_content h)).bind fun _ =>
      Keeps.lift_bind (local_textField _ _).fits fun _ _ => keeps_pure _
  | _ => exact keeps_throw rfl

theorem fits_statusOf (key label : String) : Fits (ResponsePlan.statusOf key label) fun _ => True := by
  unfold ResponsePlan.statusOf
  split
  · rfl
  · split
    · rfl
    · split
      · rfl
      · split
        · rfl
        · split <;> trivial

theorem safe_ofStatuses (ht : Tidy table) {label : String} : ∀ {rs : Entries},
    (∀ e ∈ rs, ∀ x, e.2.get? "content" = some x → Prepared (.object (.mapOf .mediaType)) x) →
      Safe (ResponsePlan.ofStatuses table label rs)
  | [], _ => keeps_pure _
  | (key, response) :: rs, h => by
    obtain ⟨hresponse, hrs⟩ := List.forall_mem_cons.1 h
    rw [ResponsePlan.ofStatuses]
    split
    · exact safe_ofStatuses ht hrs
    · refine Keeps.lift_bind (fits_statusOf _ _) fun status _ => ?_
      exact (safe_responsePlan ht hresponse).bind fun _ =>
        (safe_ofStatuses ht hrs).bind fun _ => keeps_pure _

theorem safe_responsePlans (ht : Tidy table) {label : String} {rs : Entries}
    (h : ∀ e ∈ rs, ∀ x, e.2.get? "content" = some x → Prepared (.object (.mapOf .mediaType)) x) :
    Safe (ResponsePlan.all table label rs) := by
  refine (safe_ofStatuses ht h).bind fun plans => ?_
  rw [Entries.orNull]
  cases hx : rs.get? "default" with
  | none => exact keeps_pure _
  | some x =>
    have hplan : Safe (do return plans ++ [← ResponsePlan.of table label "Default" none x]) :=
      (safe_responsePlan ht (h _ (Entries.mem_of_at? hx))).bind fun _ => keeps_pure _
    dsimp only [Option.getD_some]
    split
    · exact keeps_pure _
    · exact hplan

/-- Planning an operation in which nothing that needs a name stands inline. -/
theorem Tidy.plan (ht : Tidy table) {o : Operation}
    (ho : (o.id.getD "").isEmpty = false → o.Tidy) : Safe (OperationPlan.of table o) := by
  unfold OperationPlan.of
  dsimp only
  split
  · exact keeps_throw rfl
  · have htidy := ho (Bool.eq_false_iff.2 ‹_›)
    have hrest : ∀ {plan : List ParameterPlan → List ResponsePlan → OperationPlan}, Safe (do
        let parameters ← ParameterPlan.all table o.label (o.parameters.map (Tree.map none))
        let responses ← ResponsePlan.all table o.label o.responses
        return plan parameters responses) :=
      (safe_parameterPlans ht htidy.parameters).bind fun _ =>
        (safe_responsePlans ht htidy.responses).bind fun _ => keeps_pure _
    cases hbody : o.requestBody with
    | none => exact (keeps_pure _).bind fun _ => hrest
    | some body => exact (safe_requestBodyPlan ht (htidy.requestBody body hbody)).bind fun _ => hrest

/-- If naming goes through all that the operations of a named description are made of, planning one of
them never ends with a failure about an inline schema. -/
theorem plan_nameSchemas {t : Tree} {table : Entries} {os : List Operation} (hp : Plain t)
    (h : (nameSchemas t).result = .ok ())
    (ht : Compilation.schemaTable (nameSchemas t).document = .ok table)
    (hc : Operation.Covered (nameSchemas t).document)
    (hos : Operation.collect (nameSchemas t).document = .ok os) :
    ∀ o ∈ os, ∀ s f, Failure.isInlineSchema f = true → (OperationPlan.of table o s).1 ≠ .error f := by
  intro o ho s f hf heq
  have htidy : Tidy table := prepared_schemaTable hp h ht
  have hends := htidy.plan (Operation.tidy_of_collect (prepared_document hp h) hc hos o ho) s trivial
  rw [Ends, heq] at hends
  cases hf.symm.trans hends

/-! ## A description with an enumeration in a parameter -/

/-- A path item with an operation. -/
def sampleItem : Tree :=
  Tree.object [("get", Tree.object [
    ("operationId", .text "listFoo"),
    ("parameters", Tree.array [Tree.object [
      ("name", .text "color"),
      ("in", .text "query"),
      ("schema", Tree.object [("type", .text "string"), ("enum", Tree.array [.text "red"])])]]),
    ("responses", Tree.object [("200", Tree.object [("description", .text "ok")])])])]

/-- A description with a path item, and with the one above where nothing but references lead. -/
def samplePaths (item : Tree) : Tree :=
  Tree.object [
    ("openapi", .text "3.0.0"),
    ("paths", Tree.object [("/a", item)]),
    ("components", Tree.object [
      ("schemas", Tree.object []),
      ("pathItems", Tree.object [("A", sampleItem)])])]

/-- The operation of that path item whose parameter has a schema. -/
def sampleOperation (schema : Tree) : Operation where
  id := some "listFoo"
  method := .get
  path := "/a"
  summary := none
  description := none
  tags := []
  deprecated := false
  parameters := [[(.text "name", .text "color"), (.text "in", .text "query"), (.text "schema", schema)]]
  requestBody := none
  responses := [(.text "200", Tree.object [("description", .text "ok")])]
  security := none

/-- The table of schemas that naming makes where the path item stands in its place. -/
def sampleNamed : Entries :=
  [(.text "ListFooColorParam", Tree.object [("type", .text "string"), ("enum", Tree.array [.text "red"])])]

theorem plan_samplePaths :
    Operation.Covered (nameSchemas (samplePaths sampleItem)).document ∧
      ∀ o ∈ [sampleOperation (Reference.asTree "#/components/schemas/ListFooColorParam")],
        ∀ s f, Failure.isInlineSchema f = true →
          (OperationPlan.of sampleNamed o s).1 ≠ .error f := by
  have hc : Operation.Covered (nameSchemas (samplePaths sampleItem)).document :=
    ⟨by decide +kernel, by decide +kernel, by decide +kernel⟩
  refine ⟨hc, plan_nameSchemas ?_ (eq_ok_of_toOption (by decide +kernel))
    (eq_ok_of_toOption (by decide +kernel)) hc (eq_ok_of_toOption (by decide +kernel))⟩
  simp [samplePaths, sampleItem, Tree.array, Scalar.anchor]

instance {r : Except Failure α} {P : α → Prop} [∀ a, Decidable (P a)] : Decidable (Fits r P) :=
  match r with
  | .ok a => inferInstanceAs (Decidable (P a))
  | .error f => inferInstanceAs (Decidable (f.isInlineSchema = false))

/-- Where the path item is given by reference, its target is planned without having been named. -/
theorem plan_sampleReference :
    Operation.collect (nameSchemas (samplePaths (Reference.asTree "#/components/pathItems/A"))).document =
        .ok [sampleOperation
          (Tree.object [("type", .text "string"), ("enum", Tree.array [.text "red"])])] ∧
      ¬ Fits (OperationPlan.of [] (sampleOperation
        (Tree.object [("type", .text "string"), ("enum", Tree.array [.text "red"])])) .start).1
          fun _ => True :=
  ⟨eq_ok_of_toOption (by decide +kernel), by decide +kernel⟩

end ApiContract.Compile
