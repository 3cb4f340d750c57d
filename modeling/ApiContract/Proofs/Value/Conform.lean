import ApiContract.Proofs.Record
import ApiContract.Value.Conform

/-!
# Values of a type

What it takes for a value to pass `Models.conform`, one kind of value at a time, and what the origin of
a value decides: `conform_program` says that a value from a program passes exactly if the value from a
text does and no part of it is only spelled in the text (`Native`).
-/

namespace ApiContract

namespace Value

theorem paraItems_eq {β : Type u} (onScalar : Scalar → β) (onList : List (Value × β) → β)
    (onMap : List (String × Value × β) → β)
    (onRecord : RecordType → List (String × Value × β) → List (String × Value × β) → β)
    (onMember : String → Member → β) (onForeign : String → β) :
    ∀ vs : List Value, paraItems onScalar onList onMap onRecord onMember onForeign vs =
      vs.map fun v => (v, para onScalar onList onMap onRecord onMember onForeign v)
  | [] => rfl
  | v :: vs => by
    rw [paraItems, paraItems_eq onScalar onList onMap onRecord onMember onForeign vs, List.map_cons]

theorem paraEntries_eq {β : Type u} (onScalar : Scalar → β) (onList : List (Value × β) → β)
    (onMap : List (String × Value × β) → β)
    (onRecord : RecordType → List (String × Value × β) → List (String × Value × β) → β)
    (onMember : String → Member → β) (onForeign : String → β) :
    ∀ es : List (String × Value), paraEntries onScalar onList onMap onRecord onMember onForeign es =
      es.map fun e => (e.1, e.2, para onScalar onList onMap onRecord onMember onForeign e.2)
  | [] => rfl
  | (k, v) :: es => by
    rw [paraEntries, paraEntries_eq onScalar onList onMap onRecord onMember onForeign es,
      List.map_cons]

@[simp] theorem ofTree_scalar (s : Scalar) : ofTree (.scalar s) = .scalar s := rfl

@[simp] theorem ofTree_list (a : Anchor) (ts : List Tree) :
    ofTree (.list a ts) = .list (ts.map ofTree) := by
  simp only [ofTree, Tree.para, Tree.paraItems_eq, List.map_map]
  rfl

@[simp] theorem ofTree_map (a : Anchor) (es : Entries) :
    ofTree (.map a es) = .map (es.map fun e => (keyText e.1, ofTree e.2)) := by
  simp only [ofTree, Tree.para, Tree.paraEntries_eq, List.map_map]
  rfl

end Value

namespace Models

open Record

variable {m : Models}

/-! ## One kind of value at a time -/

theorem conform_scalar {s : Scalar} (hs : s ≠ .null) {origin : Origin} {p : Primitive}
    {format : Option String} {nullable : Bool} (hp : p ≠ .empty) :
    m.conform (.scalar s) origin (.primitive p format nullable) = conformPrimitive origin p s := by
  have hvalue : ¬ (s = .null ∧ (TypeExpr.primitive p format nullable).nullable = true) := fun h => hs h.1
  show conformScalar m s origin _ = _
  unfold conformScalar
  rw [if_neg hvalue]
  cases p with
  | empty => exact absurd rfl hp
  | _ => rfl

theorem conform_list (vs : List Value) :
    m.conform (.list vs) = conformList m (vs.map fun v => (v, m.conform v)) := by
  rw [conform, Value.para, Value.paraItems_eq]

theorem conform_map (es : List (String × Value)) :
    m.conform (.map es) = conformMap m (es.map fun e => (e.1, e.2, m.conform e.2)) := by
  rw [conform, Value.para, Value.paraEntries_eq]

theorem conform_record (type : RecordType) (fields extra : List (String × Value)) (origin : Origin)
    (t : TypeExpr) :
    m.conform (.record type fields extra) origin t =
      conformLeaf m (.record type fields extra) (.record type) t := by
  simp only [conform, Value.para, Value.paraEntries_eq, List.map_map]
  have hid : ∀ es : List (String × Value), es.map ((fun e => (e.1, e.2.1)) ∘ fun e =>
      (e.1, e.2, m.conform e.2)) = es := fun es => List.map_id es
  exact congrArg (fun v => conformLeaf m v (.record type) t)
    (congr (congrArg (Value.record type) (hid fields)) (hid extra))

theorem conformLeaf_named {name : String} {nullable : Bool} {t : NamedType} {v : Value}
    {content : Content} (ht : m.find? name = some t) :
    conformLeaf m v content (.named (some name) nullable) = conformNamed t v content := by
  simp only [conformLeaf, Option.getD_some, ht]

/-- A list is of a type of lists if its items are of the type of the items. -/
theorem conform_list_eq_ok {vs : List Value} {origin : Origin} {item : TypeExpr} {unique nullable : Bool}
    {w : Value} : m.conform (.list vs) origin (.array item unique nullable) = .ok w ↔
      ∃ ws, List.Forall₂ (fun v w => m.conform v origin item = .ok w) vs ws ∧ .list ws = w := by
  rw [conform_list]
  refine map_eq_ok.trans (exists_congr fun ws => and_congr_left fun _ => ?_)
  exact (each_mapIdx_eq_ok (f := fun p : Value × Conform => p.2 origin item)).trans
    List.forall₂_map_left_iff

/-- A map is of a type of maps if its values are of the type of the values. -/
theorem conform_map_eq_ok {es : List (String × Value)} {origin : Origin} {value : TypeExpr}
    {nullable : Bool} {w : Value} : m.conform (.map es) origin (.map value nullable) = .ok w ↔
      ∃ ws, List.Forall₂ (fun e e' => m.conform e.2 origin value = .ok e'.2 ∧ e.1 = e'.1) es ws ∧
        .map (Value.mergeKeys ws) = w := by
  have hentry : (fun (e e' : String × Value) =>
      field e.1 ((m.conform e.2 origin value).map (e.1, ·)) = .ok e') =
      fun e e' => m.conform e.2 origin value = .ok e'.2 ∧ e.1 = e'.1 := by
    funext e ⟨k, v⟩
    simp [map_eq_ok]
  rw [conform_map]
  refine map_eq_ok.trans (exists_congr fun ws => and_congr_left fun _ => ?_)
  rw [← hentry]
  exact each_map_eq_ok.trans List.forall₂_map_left_iff

/-! ## The origin of a value -/

/-- Whether a scalar of a body is what it stands for in a primitive type, and not only its spelling: a
date, a time or octets are a string in a body, and a whole number may be too large for a number. -/
def isNative : Primitive → Scalar → Bool
  | .bytes, .text _ | .date, .text _ | .dateTime, .text _ => false
  | .number, .int n => (Decimal.integer? (Decimal.ofInt n)).isSome
  | _, _ => true

/-- Whether no part of a value of a body is only the spelling of what its type asks for. Records read
their own parts as a program's. -/
def Native : TypeExpr → Value → Prop
  | .primitive p _ _, .scalar s => isNative p s = true
  | .array item _ _, .list vs => ∀ v ∈ vs, Native item v
  | .map value _, .map es => ∀ e ∈ es, Native value e.2
  | _, _ => True

theorem conformPrimitive_program {p : Primitive} {s : Scalar} {w : Value} :
    conformPrimitive .program p s = .ok w ↔
      isNative p s = true ∧ conformPrimitive .text p s = .ok w := by
  cases p <;> cases s <;> simp [conformPrimitive, isNative, wrong]
  case number.int n =>
    cases h : Decimal.integer? (Decimal.ofInt n) <;> simp [realOfInt, wrong, h]

/-- A value from a program is of a type exactly if it is in a body and is spelled as itself there. -/
theorem conform_program {v : Value} {t : TypeExpr} {w : Value} :
    m.conform v .program t = .ok w ↔ Native t v ∧ m.conform v .text t = .ok w := by
  induction t generalizing v w with
  | primitive p format nullable =>
    cases v with
    | scalar s =>
      show conformScalar m s .program _ = _ ↔ isNative p s = true ∧ conformScalar m s .text _ = _
      unfold conformScalar
      split
      · cases p <;> simp_all [isNative]
      · cases p <;> first | exact conformPrimitive_program | simp [isNative]
    | _ => exact (and_iff_right trivial).symm
  | array item unique nullable ih =>
    cases v with
    | list vs =>
      simp only [conform_list_eq_ok, ih, List.forall₂_and_left, and_assoc, exists_and_left, Native]
    | _ => exact (and_iff_right trivial).symm
  | map value nullable ih =>
    cases v with
    | map es =>
      simp only [conform_map_eq_ok, ih, and_assoc, List.forall₂_and_left, exists_and_left, Native]
    | _ => exact (and_iff_right trivial).symm
  | named name nullable => cases v <;> exact (and_iff_right trivial).symm

/-- A type that asks neither for octets, dates or times nor for numbers reads a body as a program's. -/
theorem native_of_primitives {t : TypeExpr}
    (ht : ∀ p ∈ t.primitives, p ∉ [Primitive.bytes, .date, .dateTime, .number]) (v : Value) :
    Native t v := by
  induction t generalizing v with
  | primitive p format nullable =>
    have hp := ht p (List.mem_singleton_self p)
    cases v with
    | scalar s => cases p <;> simp_all [Native, isNative]
    | _ => trivial
  | array item unique nullable ih =>
    cases v with
    | list vs => exact fun v _ => ih ht v
    | _ => trivial
  | map value nullable ih =>
    cases v with
    | map es => exact fun e _ => ih ht e.2
    | _ => trivial
  | named name nullable => cases v <;> trivial

end Models

end ApiContract
