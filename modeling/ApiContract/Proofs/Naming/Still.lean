import ApiContract.Proofs.Edit
import ApiContract.Proofs.Naming.Relation

/-!
# Visits that leave a schema as it is

`Still role t b`: a visit of `t` in a role leaves the tree and the state as they are and ends with the answer
`b`. `Rests t`: nothing becomes of `t` where a schema may stand inline. For each way of going through the parts
of a schema, one lemma says that nothing becomes of the whole if nothing becomes of the parts
(`visitSchema_still` for a schema, `still_properties`, `still_list` and `still_numbered` for what stands under
its keywords).
-/

namespace ApiContract.Naming

open Tree

/-- A visit of a tree in a role changes nothing and ends with an answer. -/
def Still (role : Role) (t : Tree) (b : Bool) : Prop :=
  ∀ again context s, (t.para (cases again)).1 role context s = ((t, .ok b), s)

/-- Nothing becomes of a tree where a schema may stand inline. -/
def Rests (t : Tree) : Prop :=
  Stand.inline.skips t = true ∨ Still .schema t false

/-- Nothing becomes of a tree that is a part of a composition. -/
def RestsAsPart (t : Tree) : Prop :=
  Stand.own.skips t = true ∨ ∃ b, Still .schema t b

/-- What may stand where a list of parts is expected, besides lists: the characters of a text have no schemas
in them, and the keys of a map have none either. -/
def Passes (lenient : Bool) : Tree → Prop
  | .scalar (.text _) | .scalar (.bytes _) => True
  | .scalar _ => False
  | _ => lenient = true

variable {v : Tree → Visit} {t : Tree} {es : Entries} {context : String}

/-- The parts of a map without their visits. -/
theorem map_children (v : Tree → Visit) (es : Entries) :
    (es.map fun e => (e.1, e.2, v e.2)).map (fun c => (c.1, c.2.1)) = es := by
  rw [List.map_map]
  exact List.map_id es

theorem named_of_skips {visit : Visit} (h : Stand.inline.skips t = true) :
    named t visit context = pure (t, .ok ()) := by
  rw [Stand.skips] at h
  rw [named, if_pos h]

section

variable (hv : ∀ {role t b}, Still role t b → ∀ context s, v t role context s = ((t, .ok b), s))
include hv

/-! ## Parts in order -/

theorem named_rests (h : Rests t) (s : State) : named t (v t) context s = ((t, .ok ()), s) := by
  rcases h with h | h
  · rw [named_of_skips h]
    rfl
  · rw [named]
    split
    · rfl
    · exact bind_of_run (hv h context s)

theorem eachProperty_rests : ∀ {es : Entries}, (∀ e ∈ es, (∃ key, e.1 = .text key) ∧ Rests e.2) →
    ∀ s, eachProperty context (es.map fun e => (e.1, e.2, v e.2)) s = ((es, .ok ()), s)
  | [], _, _ => rfl
  | (k, t) :: es, h, s => by
    obtain ⟨⟨⟨key, rfl⟩, ht⟩, hes⟩ := List.forall_mem_cons.1 h
    rw [List.map_cons, eachProperty, bind_of_run (named_rests hv ht s)]
    exact bind_of_run (eachProperty_rests hes s)

theorem eachAlternative_rests : ∀ {ts : List Tree}, (∀ t ∈ ts, Rests t) →
    ∀ s, eachAlternative context (ts.map fun t => (t, v t)) s = ((ts, .ok ()), s)
  | [], _, _ => rfl
  | t :: ts, h, s => by
    obtain ⟨ht, hts⟩ := List.forall_mem_cons.1 h
    rw [List.map_cons, eachAlternative, bind_of_run (named_rests hv ht s)]
    exact bind_of_run (eachAlternative_rests hts s)

theorem eachNumbered_rests (hd : es.keys.Nodup) (hes : ∀ e ∈ es, Rests e.2) :
    ∀ {ns : List Nat}, (∀ n ∈ ns, ∃ e ∈ es, e.1.same (.int n) = true) →
      ∀ s, eachNumbered context (es.map fun e => (e.1, e.2, v e.2)) ns es s = ((es, .ok ()), s)
  | [], _, _ => rfl
  | n :: ns, hn, s => by
    obtain ⟨⟨e, he, hsame⟩, hns⟩ := List.forall_mem_cons.1 hn
    rw [eachNumbered, List.find?_map]
    cases hfind : es.find? ((fun c : Scalar × Tree × Visit => c.1.same (.int n)) ∘ fun e => (e.1, e.2, v e.2)) with
    | none => exact absurd hsame (List.find?_eq_none.1 hfind e he)
    | some c =>
      have hmem := List.mem_of_find?_eq_some hfind
      dsimp only [Option.map_some]
      rw [bind_of_run (named_rests hv (hes c hmem) s)]
      dsimp only
      rw [Entries.put_self (Entries.at?_of_mem hd hmem)]
      exact eachNumbered_rests hd hes hns s

theorem eachPart_rests : ∀ {ts : List Tree}, (∀ t ∈ ts, RestsAsPart t) →
    ∀ s, eachPart context (ts.map fun t => (t, v t)) s = ((ts, .ok ()), s)
  | [], _, _ => rfl
  | t :: ts, h, s => by
    obtain ⟨ht, hts⟩ := List.forall_mem_cons.1 h
    rw [List.map_cons, eachPart]
    split
    · rw [bind_of_run (show answer t false s = ((t, .ok false), s) from rfl)]
      exact bind_of_run (eachPart_rests hts s)
    · rename_i hskip
      obtain ⟨b, ht⟩ := ht.resolve_left (by simpa [Stand.skips] using hskip)
      rw [bind_of_run (hv ht context s)]
      exact bind_of_run (eachPart_rests hts s)

/-! ## Keywords -/

omit hv in
theorem childOf_eq (v : Tree → Visit) (es : Entries) (key : String) :
    childOf (es.map fun e => (e.1, e.2, v e.2)) key =
      (es.at? (.text key)).map fun t => (t, v t) :=
  Entries.lookup_children v _ es

/-- Nothing becomes of what stands under a keyword where a list of parts is expected. -/
def ListRests (role : Role) (lenient : Bool) (x : Tree) : Prop :=
  x.truthy = true →
    if x.isList || (x.isMap && !lenient) then ∃ b, Still role x b else Passes lenient x

theorem visitList_rests {role : Role} {lenient : Bool} {keyword : String}
    (h : ∀ x, es.at? (.text keyword) = some x → ListRests role lenient x) (s : State) :
    visitList (es.map fun e => (e.1, e.2, v e.2)) es keyword role context lenient s =
      ((es, .ok ()), s) := by
  rw [visitList, childOf_eq]
  cases hx : es.at? (.text keyword) with
  | none => rfl
  | some x =>
    have hrests := h x hx
    rw [ListRests] at hrests
    simp only [Option.map_some]
    split
    · rfl
    · rename_i htruthy
      replace hrests := hrests (by simpa using htruthy)
      split
      · rename_i hlist
        rw [if_pos hlist] at hrests
        obtain ⟨b, hstill⟩ := hrests
        rw [bind_of_run (hv hstill context s)]
        show ((es.set keyword x, _), s) = _
        rw [Entries.set, Entries.put_self hx]
        rfl
      · rename_i hlist
        rw [if_neg hlist] at hrests
        cases x with
        | scalar c => cases c <;> first | rfl | cases hrests
        | _ => rw [show lenient = true from hrests]; rfl

/-- The visit of an object schema after its properties. -/
def visitFurther (v : Tree → Visit) (context : String) (es es₁ : Entries) : Run (Edited Bool) :=
  match (es.at? (.text "additionalProperties")).map fun t => (t, v t) with
  | some (.map b fs, visit) => do
    let (t, r) ← named (.map b fs) visit (context ++ "Value")
    match r with
    | .error f => refuse (.map none (es₁.set "additionalProperties" t)) f
    | .ok _ =>
      answer (.map none (es₁.set "additionalProperties" t)) (es.orNull "properties").truthy
  | other =>
    answer (.map none es₁)
      ((es.orNull "properties").truthy || isClosed ((other.map (·.1)).getD .null))

/-- Nothing becomes of the properties of an object schema. -/
def PropertiesRest (x : Tree) : Prop :=
  x.truthy = true → x.isMap = true ∧ ∃ b, Still .properties x b

/-- Nothing becomes of what stands under a keyword where a schema is expected. -/
def SchemaRests (x : Tree) : Prop := x.isMap = true → Rests x

/-- Nothing becomes of the properties of an object schema, nor of the schema of its further properties. -/
structure ObjectRests (es : Entries) : Prop where
  properties : ∀ x, es.at? (.text "properties") = some x → PropertiesRest x
  additional : ∀ x, es.at? (.text "additionalProperties") = some x → SchemaRests x

theorem visitObject_rests (h : ObjectRests es) (s : State) :
    visitObject none (es.map fun e => (e.1, e.2, v e.2)) es context s =
      ((.map none es, .ok ((es.orNull "properties").truthy || isClosed (es.orNull "additionalProperties"))),
        s) := by
  have hfurther : visitFurther v context es es s = ((.map none es,
      .ok ((es.orNull "properties").truthy || isClosed (es.orNull "additionalProperties"))), s) := by
    rw [visitFurther, Entries.orNull, Entries.orNull, Entries.get?_eq_at?, Entries.get?_eq_at?]
    cases hx : es.at? (.text "additionalProperties") with
    | none => rfl
    | some x =>
      cases x with
      | map b fs =>
        simp only [Option.map_some]
        rw [bind_of_run (named_rests hv (h.additional _ hx rfl) s)]
        show ((Tree.map none (es.set "additionalProperties" _), _), s) = _
        rw [Entries.set, Entries.put_self hx, Option.getD_some, isClosed_map, Bool.or_false]
      | _ => rfl
  rw [visitObject]
  simp only [childOf_eq]
  split
  · exact hfurther
  · rename_i htruthy
    rw [Entries.orNull, Entries.get?_eq_at?] at htruthy
    cases hx : es.at? (.text "properties") with
    | none => exact absurd (by rw [hx]; rfl) htruthy
    | some x =>
      obtain ⟨hm, b, hstill⟩ := h.properties x hx (by simpa [hx] using htruthy)
      cases x with
      | map a fs =>
        simp only [Option.map_some]
        rw [bind_of_run (hv hstill context s)]
        show visitFurther v context es (es.set "properties" _) s = _
        rw [Entries.set, Entries.put_self hx]
        exact hfurther
      | _ => cases hm

/-! ## Schemas -/

/-- Nothing becomes of what stands under the keywords of a schema. -/
def PartsRest (es : Entries) : SchemaKind → Prop
  | .object => ObjectRests es
  | .array => ∀ x, es.at? (.text "items") = some x → SchemaRests x
  | .oneOf => ∀ x, es.at? (.text "oneOf") = some x → ListRests (.alternatives "OneOf") false x
  | .anyOf => ∀ x, es.at? (.text "anyOf") = some x → ListRests (.alternatives "AnyOf") false x
  | .allOf => ∀ x, es.at? (.text "allOf") = some x → ListRests .parts true x
  | _ => True

theorem composed_rests {role : Role} {lenient : Bool} {keyword : String}
    (h : ∀ x, es.at? (.text keyword) = some x → ListRests role lenient x) (s : State) :
    visitSchema.composed none (es.map fun e => (e.1, e.2, v e.2)) context es keyword role lenient s =
      ((.map none es, .ok true), s) :=
  bind_of_run (visitList_rests hv h s)

/-- Nothing becomes of a schema if nothing becomes of its parts. -/
theorem visitSchema_rests {kind : SchemaKind} (hf : Fair es kind) (h : PartsRest es kind) (s : State) :
    visitSchema none (es.map fun e => (e.1, e.2, v e.2)) context s =
      ((.map none es, .ok (needsName es)), s) := by
  rw [visitSchema, map_children, hf.noReference, hf.kind, needsName, hf.kind]
  simp only [Option.isSome_none, Bool.false_eq_true, if_false]
  cases kind with
  | object => exact visitObject_rests hv h s
  | array =>
    simp only [childOf_eq]
    cases hx : es.at? (.text "items") with
    | none => rfl
    | some x =>
      cases x with
      | map b fs =>
        simp only [Option.map_some]
        rw [bind_of_run (named_rests hv (h _ hx rfl) s)]
        show ((Tree.map none (es.set "items" _), _), s) = _
        rw [Entries.set, Entries.put_self hx]
      | _ => rfl
  | oneOf | anyOf | allOf => exact composed_rests hv h s
  | not => exact absurd rfl hf.ne_not
  | any =>
    rw [hf.trivial rfl]
    rfl
  | _ => rfl

end

/-! ## Trees -/

theorem para_map (again : Tree → Visit) (es : Entries) (role : Role) :
    ((Tree.map none es).para (cases again)).1 role context =
      (let children := es.map fun e => (e.1, e.2, (e.2.para (cases again)).1)
      match role with
      | .properties => do
        let (es, r) ← eachProperty context children
        pure (.map none es, r.map fun _ => !es.isEmpty)
      | .alternatives suffix => do
        let (es, r) ← eachNumbered (context ++ suffix) children (List.range children.length)
          (children.map fun c => (c.1, c.2.1))
        pure (.map none es, r.map fun _ => false)
      | _ => visitSchema none children context) := by
  cases role <;>
    simp only [para, paraEntries_eq, cases, cases.shared, Edit.visitShared, List.map_map,
      Function.comp_def]

theorem para_list (again : Tree → Visit) (ts : List Tree) (role : Role) :
    ((Tree.list none ts).para (cases again)).1 role context =
      (do
        let children := ts.map fun t => (t, (t.para (cases again)).1)
        let (ts, r) ← match role with
          | .alternatives suffix => eachAlternative (context ++ suffix) children
          | _ => eachPart context children
        pure (.list none ts, r.map fun _ => false)) := by
  cases role <;>
    simp only [para, paraItems_eq, cases, cases.shared, Edit.visitShared, List.map_map,
      Function.comp_def]

/-- Nothing becomes of a schema if nothing becomes of its parts. -/
theorem still_schema {kind : SchemaKind} (hf : Fair es kind) (h : PartsRest es kind) :
    Still .schema (.map none es) (needsName es) := by
  intro again context s
  rw [para_map]
  exact visitSchema_rests (v := fun t => (t.para (cases again)).1) (fun h => h again) hf h s

theorem still_reference {r : String} (h : Reference.ofEntries? es = some r) :
    Still .schema (.map none es) false := by
  intro again context s
  rw [para_map]
  show visitSchema none _ context s = _
  rw [visitSchema, map_children fun t => (t.para (cases again)).1, h]
  rfl

theorem still_properties (h : ∀ e ∈ es, (∃ key, e.1 = .text key) ∧ Rests e.2) :
    Still .properties (.map none es) (!es.isEmpty) := by
  intro again context s
  rw [para_map]
  exact bind_of_run (eachProperty_rests (v := fun t => (t.para (cases again)).1) (fun h => h again) h s)

theorem still_alternatives {ts : List Tree} (suffix : String) (h : ∀ t ∈ ts, Rests t) :
    Still (.alternatives suffix) (.list none ts) false := by
  intro again context s
  rw [para_list]
  exact bind_of_run (eachAlternative_rests (v := fun t => (t.para (cases again)).1) (fun h => h again) h s)

theorem still_numbered (suffix : String) (hd : es.keys.Nodup) (h : ∀ e ∈ es, Rests e.2)
    (hn : ∀ n ∈ List.range es.length, ∃ e ∈ es, e.1.same (.int n) = true) :
    Still (.alternatives suffix) (.map none es) false := by
  intro again context s
  rw [para_map]
  dsimp only
  rw [map_children fun t => (t.para (cases again)).1, List.length_map]
  exact bind_of_run (eachNumbered_rests (v := fun t => (t.para (cases again)).1) (fun h => h again) hd h hn s)

theorem still_parts {ts : List Tree} (h : ∀ t ∈ ts, RestsAsPart t) : Still .parts (.list none ts) false := by
  intro again context s
  rw [para_list]
  exact bind_of_run (eachPart_rests (v := fun t => (t.para (cases again)).1) (fun h => h again) h s)

end ApiContract.Naming
