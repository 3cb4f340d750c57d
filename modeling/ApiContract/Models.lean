import ApiContract.Failure
import ApiContract.TypeModel.Literal
import ApiContract.Value.Basic

/-!
# Models

Named types that values are read and written by. They are accepted one after the other: every type that
is mentioned must have been accepted before, names are unique, and a union has a case. So no type is
made of itself.
-/

namespace ApiContract

/-- Named types, every one of which mentions only those before it. -/
structure Models where
  types : List NamedType
deriving DecidableEq

namespace Models

/-- No types. -/
def none : Models := ⟨[]⟩

/-- The type of a name. -/
def find? (m : Models) (name : String) : Option NamedType :=
  m.types.find? fun t => t.name = name

/-- The names of all types. -/
def names (m : Models) : List String :=
  m.types.map (·.name)

/-- Refuses type expressions that mention an unknown type. -/
def ensureKnown (m : Models) (t : TypeExpr) : Except Failure Unit :=
  match t.target? with
  | some n => if (m.find? n).isSome then .ok () else .error (.unknownTypeName n)
  | Option.none => .ok ()

/-- Refuses records that mention an unknown type. That a field is hidden by its name is not foreseen. -/
def ensureBody (m : Models) (b : Body) : Except Failure Unit := do
  (b.extra.toList ++ b.fields.map (·.type)).forM (ensureKnown m)
  if b.fields.any fun f => f.name.startsWith "_" then throw .malformed

/-- Refuses a type that cannot stand behind those before it. That members of an enumeration share a name
is not foreseen. -/
def ensureSound (m : Models) (t : NamedType) : Except Failure Unit :=
  match t.shape with
  | .enumeration members => if (members.map (·.name)).Nodup then .ok () else .error .malformed
  | .record body => ensureBody m body
  | .tagged _ variants | .untagged variants => do
    variants.forM fun v => ensureBody m v.body
    if variants.isEmpty then throw (.emptyUnion t.name)

/-- Accepts a type. -/
def accept (m : Models) (t : NamedType) : Except Failure Models := do
  ensureSound m t
  if (m.find? t.name).isSome then throw (.typeDefinedTwice t.name)
  return ⟨m.types ++ [t]⟩

/-- Accepts types in order. -/
def ofTypes (types : List NamedType) : Except Failure Models :=
  types.foldlM accept none

end Models

/-! ## Enumerations

Literals that stand for the same value are one: the first member is theirs, and the later names are
further names of it. -/

namespace Member

/-- The members of an enumeration, without those whose literal an earlier one has. -/
def distinct : List Member → List Member :=
  List.foldl (fun kept m => if kept.any fun k => k.value.same m.value then kept else kept ++ [m]) []

/-- The member that a name stands for. -/
def ofName? (members : List Member) (name : String) : Option Member := do
  let named ← members.find? fun m => m.name = name
  (distinct members).find? fun m => m.value.same named.value

/-- The member with a literal. -/
def ofLiteral? (members : List Member) (value : Tree) : Option Member :=
  (distinct members).find? fun m => Literal.matchesValue m.value value

/-- The member whose literal is written so. -/
def ofWritten? (members : List Member) (text : String) : Option Member :=
  (distinct members).find? fun m => Literal.written m.value = text

end Member

end ApiContract
