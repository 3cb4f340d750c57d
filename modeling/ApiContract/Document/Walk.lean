import ApiContract.Edit
import ApiContract.Method
import ApiContract.Reference

/-!
# Walking an API description

The kinds of object in an API description, which of them may be given by reference, and a walk that
visits them by kind: a visitor says which keys of each kind lead on, in which order, what to do at a
reference and what to do after the parts of an object. A node that several places share is visited at
each of them, and every visit finds what the ones before have made of it.
-/

namespace ApiContract.Walk

/-- The kinds of object. -/
inductive Kind where
  | schema
  | parameter
  | requestBody
  | response
  | mediaType
  | encoding
  | pathItem
  | operation
  | callback
  | components
  /-- An object whose inside no walk looks at. -/
  | opaqueObject
  /-- A map from names to objects of a kind. -/
  | mapOf (k : Kind)
  /-- A list of objects of a kind. -/
  | listOf (k : Kind)
deriving DecidableEq, Repr

/-- Whether a reference may stand for an object of the kind. -/
def Kind.mayRefer : Kind → Bool
  | .encoding | .operation | .components | .mapOf _ | .listOf _ => false
  | _ => true

/-- What a walk does. -/
structure Visitor (m : Type → Type) where
  /-- The keys that lead on from an object, in the order of the walk. -/
  edges : Kind → List (String × Kind)
  /-- What becomes of a reference to an object. -/
  onReference : Kind → Tree → String → m (Edited Unit)
  /-- Whether something that is no map, or no list, may stand where one should. -/
  onOther : Kind → Tree → Except Failure Unit
  /-- What is done to an object after its parts. -/
  after : Kind → Tree → m (Edited Unit)

variable {m : Type → Type} [Monad m]

/-- A visit of a tree as an object of a kind. -/
abbrev Visit (m : Type → Type) := Kind → m (Edited Unit)

/-- Visits an object or a reference to one. -/
def slot (v : Visitor m) (kind : Kind) (t : Tree) (visit : Visit m) : m (Edited Unit) :=
  match kind.mayRefer, Reference.ofTree? t with
  | true, some reference => v.onReference kind t reference
  | _, _ => visit kind

/-- Visits entries in order. -/
def eachEntry (v : Visitor m) (kind : Kind) :
    List (Scalar × Tree × Visit m) → m (Entries × Except Failure Unit)
  | [] => pure ([], .ok ())
  | (k, t, visit) :: rest => do
    let (t, r) ← slot v kind t visit
    match r with
    | .error f => pure ((k, t) :: rest.map fun c => (c.1, c.2.1), .error f)
    | .ok _ =>
      let (rest, r) ← eachEntry v kind rest
      pure ((k, t) :: rest, r)

/-- Visits items in order. -/
def eachItem (v : Visitor m) (kind : Kind) :
    List (Tree × Visit m) → m (List Tree × Except Failure Unit)
  | [] => pure ([], .ok ())
  | (t, visit) :: rest => do
    let (t, r) ← slot v kind t visit
    match r with
    | .error f => pure (t :: rest.map (·.1), .error f)
    | .ok _ =>
      let (rest, r) ← eachItem v kind rest
      pure (t :: rest, r)

/-- Visits the parts of an object along edges. -/
def alongEdges (v : Visitor m) (children : List (Scalar × Tree × Visit m)) :
    List (String × Kind) → Entries → m (Entries × Except Failure Unit)
  | [], entries => pure (entries, .ok ())
  | (key, kind) :: rest, entries =>
    match children.lookup (.text key) with
    | none => alongEdges v children rest entries
    | some (t, visit) => do
      let (t, r) ← slot v kind t visit
      match r with
      | .error f => pure (entries.set key t, .error f)
      | .ok _ => alongEdges v children rest (entries.set key t)

/-- Visits an object of a kind that is a map. -/
def object (v : Visitor m) (a : Anchor) (children : List (Scalar × Tree × Visit m)) (kind : Kind) :
    m (Edited Unit) := do
  let entries : Entries := children.map fun c => (c.1, c.2.1)
  match kind with
  | .mapOf k =>
    let (es, r) ← eachEntry v k children
    pure (.map a es, r)
  | .callback =>
    let (es, r) ← eachEntry v .pathItem children
    pure (.map a es, r)
  | .listOf _ => pure (.map a entries, v.onOther kind (.map a entries))
  | _ =>
    let (es, r) ← alongEdges v children (v.edges kind) entries
    match r with
    | .error f => pure (.map a es, .error f)
    | .ok _ => v.after kind (.map a es)

variable [Sharing m]

open Edit (visitShared)

/-- The visits of a tree, and with them those that do not ask whether the tree itself has been visited
before. A node within itself has no end. -/
def cases (v : Visitor m) (again : Tree → Visit m) : Tree.Cases (Visit m × Visit m) where
  scalar s := twice fun kind => pure (.scalar s, v.onOther kind (.scalar s))
  list a items :=
    let visit : Visit m := fun kind =>
      match kind with
      | .listOf k => do
        let (ts, r) ← eachItem v k (items.map fun (t, visit, _) => (t, visit))
        pure (.list a ts, r)
      | _ =>
        let t := Tree.list a (items.map (·.1))
        pure (t, v.onOther kind t)
    (fun kind => visitShared a (again · kind) (visit kind), visit)
  map a children :=
    let visit : Visit m := object v a (children.map fun (k, t, visit, _) => (k, t, visit))
    (fun kind => visitShared a (again · kind) (visit kind), visit)
  set a members := twice fun kind => pure (.set a members, v.onOther kind (.set a members))
  pair x y := twice fun kind => pure (.pair x.1 y.1, v.onOther kind (.pair x.1 y.1))
  back a isMap := twice fun kind => pure (.back a isMap,
    if kind = .opaqueObject then .ok () else .error .malformed)
where
  /-- A visit that asks nothing. -/
  twice (visit : Visit m) : Visit m × Visit m := (visit, visit)

/-- The visits of a tree that has been visited before, without asking for its own present form. The
first argument bounds how many shared nodes lie within each other. -/
def revisit (v : Visitor m) : Nat → Tree → Visit m
  | 0, t => fun _ => pure (t, .error .malformed)
  | bound + 1, t => (t.para (cases v (revisit v bound))).2

/-- The visits of a tree. The first argument bounds how many shared nodes lie within each other. -/
def walk (v : Visitor m) (bound : Nat) (t : Tree) : Visit m :=
  (t.para (cases v (revisit v bound))).1

/-- The operations of a path item, by method. -/
def operationEdges : List (String × Kind) :=
  Method.all.map fun m => (m.key, .operation)

/-- The parts of a schema that are schemas. -/
def schemaEdges : List (String × Kind) := [
  ("properties", .mapOf .schema), ("additionalProperties", .schema), ("items", .schema),
  ("not", .schema), ("allOf", .listOf .schema), ("oneOf", .listOf .schema),
  ("anyOf", .listOf .schema)]

end ApiContract.Walk
