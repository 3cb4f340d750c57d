import ApiContract.Proofs.Compile.Sound
import ApiContract.Proofs.Models
import ApiContract.Proofs.Tree.Same
import ApiContract.Proofs.Value.Fields
import Mathlib.Data.List.Pairwise

/-!
# Values that have a type

`Holds m t v`: the value `v` is of type `t` through and through, where the type is made of texts, whole
numbers, truth values, plain values, enumerations, lists, maps and records. Such a value passes unchanged
(`Holds.conform`), and so does the literal of each member of an enumeration (`ofLiteral?_self`).
-/

namespace ApiContract

/-! ## Members of enumerations -/

namespace Member

variable {members : List Member}

/-- A literal that is a text, a whole number or a truth value. -/
inductive IsLiteral : Tree → Prop
  | text (s : String) : IsLiteral (.text s)
  | int (n : Int) : IsLiteral (.scalar (.int n))
  | bool (b : Bool) : IsLiteral (.scalar (.bool b))

theorem distinct_concat (members : List Member) (m : Member) :
    distinct (members ++ [m]) =
      if (distinct members).any fun k => k.value.same m.value then distinct members
      else distinct members ++ [m] := by
  rw [distinct, List.foldl_append]
  rfl

theorem distinct_pairwise (members : List Member) :
    (distinct members).Pairwise fun k k' => k.value.same k'.value = false := by
  induction members using List.reverseRecOn with
  | nil => exact List.Pairwise.nil
  | append_singleton members m ih =>
    rw [distinct_concat]
    split
    · exact ih
    · rename_i h
      refine List.pairwise_append.2 ⟨ih, List.pairwise_singleton _ _, fun k hk k' hk' => ?_⟩
      rw [List.mem_singleton.1 hk']
      exact Bool.eq_false_iff.2 fun hs => h (List.any_eq_true.2 ⟨k, hk, hs⟩)

/-- A literal that matches a scalar is one that stands for the same. -/
theorem same_of_matchesValue {t : Tree} {s : Scalar} (h : Literal.matchesValue t (.scalar s) = true) :
    ∃ s', t = .scalar s' ∧ s'.same s = true := by
  cases t with
  | scalar s' =>
    refine ⟨s', rfl, ?_⟩
    cases s' <;> cases s <;> simp only [Literal.matchesValue, Bool.and_eq_true, Bool.false_eq_true] at h
    case bool.bool => rw [beq_iff_eq.1 h, Scalar.same_self]
    case int.float | float.int => exact h
    all_goals exact h.2
  | _ => cases s <;> simp [Literal.matchesValue] at h

theorem matchesValue_self {t : Tree} (ht : IsLiteral t) : Literal.matchesValue t t = true := by
  cases ht <;> simp [Literal.matchesValue]

theorem IsLiteral.scalar {t : Tree} (ht : IsLiteral t) : ∃ s, t = .scalar s ∧ s ≠ .null := by
  cases ht <;> exact ⟨_, rfl, by simp⟩

/-- A literal is that of its own member. -/
theorem ofLiteral?_self {m : Member} (hm : m ∈ distinct members) (hlit : IsLiteral m.value) :
    ofLiteral? members m.value = some m := by
  obtain ⟨s, hs, -⟩ := hlit.scalar
  have hown : Literal.matchesValue m.value m.value = true := matchesValue_self hlit
  cases hfound : ofLiteral? members m.value with
  | none =>
    rw [ofLiteral?, List.find?_eq_none] at hfound
    exact absurd hown (hfound m hm)
  | some k =>
    have hk := List.mem_of_find?_eq_some hfound
    have hmatches := List.find?_some hfound
    rw [hs] at hmatches
    obtain ⟨s', hs', hsame⟩ := same_of_matchesValue hmatches
    have hsame' : k.value.same m.value = true ∧ m.value.same k.value = true := by
      rw [hs, hs']
      exact ⟨Tree.same_scalar.2 ⟨s, rfl, hsame⟩, Tree.same_scalar.2 ⟨s', rfl, Scalar.same_comm ▸ hsame⟩⟩
    have hdiffer : (distinct members).Pairwise fun k k' =>
        k.value.same k'.value = false ∨ k'.value.same k.value = false :=
      (distinct_pairwise members).imp .inl
    have : Std.Symm fun k k' : Member =>
        k.value.same k'.value = false ∨ k'.value.same k.value = false := ⟨fun _ _ h => h.symm⟩
    by_contra hne
    have hne : k ≠ m := fun h => hne (congrArg some h)
    rcases hdiffer.forall hk hm hne with h | h
    · rw [hsame'.1] at h
      cases h
    · rw [hsame'.2] at h
      cases h

end Member

/-! ## Plain values -/

namespace Value

/-- A value of JSON, floating numbers apart. The keys of its maps are different. -/
inductive Plain : Value → Prop
  | null : Plain .null
  | bool (b : Bool) : Plain (.scalar (.bool b))
  | int (n : Int) : Plain (.scalar (.int n))
  | text (s : String) : Plain (.text s)
  | list {vs} : (∀ v ∈ vs, Plain v) → Plain (.list vs)
  | map {es} : (es.map (·.1)).Nodup → (∀ e ∈ es, Plain e.2) → Plain (.map es)

theorem Plain.merged {v : Value} (h : Plain v) : v.merged = v := by
  induction h with
  | null | bool | int | text => rfl
  | @list vs _ ih =>
    have hitems : vs.map Value.merged = vs := (List.map_congr_left ih).trans (List.map_id vs)
    rw [Value.merged, para, paraItems_eq, List.map_map]
    exact congrArg Value.list hitems
  | @map es hkeys _ ih =>
    have hentries : es.map (fun e => (e.1, e.2.merged)) = es :=
      (List.map_congr_left fun e he => by rw [ih e he]; rfl).trans (List.map_id es)
    rw [Value.merged, para, paraEntries_eq, List.map_map]
    refine (congrArg (Value.map ∘ mergeKeys) hentries).trans ?_
    exact congrArg Value.map (mergeKeys_of_nodup hkeys)

end Value

namespace Models

variable {m : Models}

/-! ## Types of values -/

/-- A value that is of a type through and through. The keys of its maps are different, and the further
entries of its records have keys that no field is written with. -/
inductive Holds (m : Models) : TypeExpr → Value → Prop
  | null {t} : t.nullable = true → Holds m t .null
  | string {format nullable} (s : String) : Holds m (.primitive .string format nullable) (.text s)
  | integer {format nullable} (n : Int) :
      Holds m (.primitive .integer format nullable) (.scalar (.int n))
  | boolean {format nullable} (b : Bool) :
      Holds m (.primitive .boolean format nullable) (.scalar (.bool b))
  | empty {format nullable} : Holds m (.primitive .empty format nullable) (.record .empty [] [])
  | any {format nullable v} : Value.Plain v → Holds m (.primitive .any format nullable) v
  | list {item unique nullable vs} : (∀ v ∈ vs, Holds m item v) →
      Holds m (.array item unique nullable) (.list vs)
  | map {value nullable es} : (es.map (·.1)).Nodup → (∀ e ∈ es, Holds m value e.2) →
      Holds m (.map value nullable) (.map es)
  | member {name nullable t members k} : m.find? name = some t → t.shape = .enumeration members →
      k ∈ Member.distinct members → Member.IsLiteral k.value →
      Holds m (.named (some name) nullable) (.member t.name k)
  | record {name nullable t body fields extra} : m.find? name = some t → t.shape = .record body →
      fields.map (·.1) = body.fields.map (·.name) →
      (∀ f ∈ body.fields, ∀ v, fields.lookup f.name = some v → Holds m (asked f) v) →
      (extra.map (·.1)).Nodup → (∀ e ∈ extra, e.1 ∉ body.fields.map (·.wireName)) →
      (body.extra = Option.none → extra = []) →
      (∀ type, body.extra = some type → ∀ e ∈ extra, Holds m type e.2) →
      Holds m (.named (some name) nullable) (.record (.ofNamed t.name body) fields extra)

/-- Anything goes, and stays as it is. -/
theorem conform_any {v : Value} (hv : v.Plain) (origin : Origin) (format : Option String) (nullable : Bool) :
    m.conform v origin (.primitive .any format nullable) = .ok v := by
  cases hv with
  | null =>
    show conformScalar m .null origin _ = _
    unfold conformScalar
    split <;> rfl
  | bool | int | text => exact conform_scalar (by simp) (by simp)
  | @list vs hvs =>
    have hitems : (vs.map fun v => (v, m.conform v)).map (·.1) = vs := by
      rw [List.map_map]
      exact List.map_id vs
    rw [conform_list]
    show Except.ok (Value.list _).merged = _
    rw [hitems, (Value.Plain.list hvs).merged]
  | @map es hkeys hes =>
    have hentries : (es.map fun e => (e.1, e.2, m.conform e.2)).map (fun e => (e.1, e.2.1)) = es := by
      rw [List.map_map]
      exact List.map_id es
    rw [conform_map]
    show Except.ok (Value.map _).merged = _
    rw [hentries, (Value.Plain.map hkeys hes).merged]

/-- Such a value passes unchanged. -/
theorem Holds.conform {t : TypeExpr} {v : Value} (h : Holds m t v) (origin : Origin) :
    m.conform v origin t = .ok v := by
  induction h with
  | null hn => exact if_pos ⟨rfl, hn⟩
  | string | integer | boolean => exact conform_scalar (by simp) (by simp)
  | empty =>
    rw [conform_record]
    rfl
  | any hv => exact conform_any hv origin _ _
  | @list item unique nullable vs _ ih =>
    exact conform_list_eq_ok.2 ⟨vs, List.forall₂_same.2 ih, rfl⟩
  | @map value nullable es hkeys _ ih =>
    refine conform_map_eq_ok.2 ⟨es, List.forall₂_same.2 fun e he => ⟨ih e he, rfl⟩, ?_⟩
    rw [Value.mergeKeys_of_nodup hkeys]
  | @member name nullable t members k ht hshape _ _ =>
    show conformLeaf m (.member t.name k) .other (.named (some name) nullable) = _
    rw [conformLeaf_named ht, conformNamed, hshape]
    simp only [conformMember, memberOf?, if_true]
  | @record name nullable t body fields extra ht hshape =>
    rw [conform_record, conformLeaf_named ht, conformNamed, hshape]
    exact if_pos rfl

/-- What a record is made of is of the types that its body asks for, through and through. -/
structure HoldsRecord (m : Models) (body : Body) (fields extra : List (String × Value)) : Prop where
  names : fields.map (·.1) = body.fields.map (·.name)
  fields : ∀ f ∈ body.fields, ∀ v, fields.lookup f.name = some v → Holds m (asked f) v
  keys : (extra.map (·.1)).Nodup
  free : ∀ e ∈ extra, e.1 ∉ body.fields.map (·.wireName)
  closed : body.extra = Option.none → extra = []
  entries : ∀ type, body.extra = some type → ∀ e ∈ extra, Holds m type e.2

end Models

end ApiContract
