import ApiContract.Failure

/-!
# Edits

An edit rewrites a document in place: it takes a tree, runs in a monad and hands the tree back
together with how it ended. An edit that fails keeps what it has rewritten so far, and nothing after
it runs.

A place that carries an anchor stands for a node that other places share. What an edit makes of it is
recorded, later edits of the same node go on from there, and `Tree.settle` writes the final form into
every place that shares it.
-/

namespace ApiContract

/-- A tree after an edit, and how the edit ended. -/
abbrev Edited (α : Type) := Tree × Except Failure α

/-- Rewrites a tree. -/
abbrev Edit (m : Type → Type) := Tree → m (Edited Unit)

/-- A monad that remembers the present form of shared nodes. -/
class Sharing (m : Type → Type) where
  recorded? : Nat → m (Option Tree)
  record : Nat → Tree → m Unit

namespace Tree

/-- The anchor of a list or map. -/
def anchor : Tree → Anchor
  | .list a _ => a
  | .map a _ => a
  | _ => none

/-- Records the form of a node, in place of an earlier one. -/
def recordIn (records : List (Nat × Tree)) (t : Tree) : List (Nat × Tree) :=
  match t.anchor with
  | none => records
  | some a => (a, t) :: records.filter (·.1 != a)

/-- Writes the recorded form of shared nodes into every place that shares them. A record may hold
other shared nodes, at most as many within each other as the first number says. -/
def settleWithin (records : List (Nat × Tree)) : Nat → Tree → Tree
  | 0, t => t
  | n + 1, t =>
    let final (a : Anchor) (rebuilt : Unit → Tree) : Tree :=
      match a.bind fun n => records.lookup n with
      | some record => settleParts n record
      | none => rebuilt ()
    t.para (β := Unit → Tree) {
      scalar s _ := .scalar s
      list a items _ := final a fun _ => .list a (items.map fun i => i.2 ())
      map a entries _ := final a fun _ => .map a (entries.map fun (k, _, v) => (k, v ()))
      set a members _ := .set a members
      pair x y _ := .pair (x.2 ()) (y.2 ())
      back a isMap _ := .back a isMap } ()
where
  /-- Settles the parts of a recorded form. -/
  settleParts (n : Nat) : Tree → Tree
    | .list a items => .list a (items.map (settleWithin records n))
    | .map a entries => .map a (entries.map fun (k, t) => (k, settleWithin records n t))
    | t => settleWithin records n t

/-- Writes the recorded form of shared nodes into every place that shares them. No node is within itself,
so no more lie within each other than are recorded. -/
def settle (records : List (Nat × Tree)) (t : Tree) : Tree :=
  if records.isEmpty then t else settleWithin records (records.length + 1) t

end Tree

namespace Edit

variable {m : Type → Type} [Monad m]

/-- Changes nothing. -/
def skip : Edit m := fun t => pure (t, .ok ())

/-- Fails without a change. -/
def fail (f : Failure) : Edit m := fun t => pure (t, .error f)

/-- One edit, then another unless the first fails. -/
def andThen (e f : Edit m) : Edit m := fun t => do
  let (t, r) ← e t
  match r with
  | .ok _ => f t
  | .error x => pure (t, .error x)

/-- Edits in a row. -/
def all : List (Edit m) → Edit m
  | [] => skip
  | e :: rest => andThen e (all rest)

/-- An edit that is chosen by looking at the tree. -/
def choose (f : Tree → Edit m) : Edit m := fun t => f t t

/-- An edit of maps alone. -/
def whenMap (e : Edit m) : Edit m := fun t => if t.isMap then e t else pure (t, .ok ())

variable [Sharing m]

/-- An edit of a node that other places may share. An edit that puts another node in its place leaves the
node as it is for the others. -/
def shared (e : Edit m) : Edit m := fun t =>
  match t.anchor with
  | none => e t
  | some a => do
    let current ← Sharing.recorded? a
    let (t, r) ← e (current.getD t)
    if t.anchor = some a then Sharing.record a t
    pure (t, r)

/-- Visits a node that other places may share. One that has been visited before is visited by `again` in
its present form. -/
def visitShared {α : Type} (a : Anchor) (again : Tree → m (Edited α)) (visit : m (Edited α)) :
    m (Edited α) :=
  match a with
  | none => visit
  | some n => do
    let (t, r) ← match ← Sharing.recorded? n with
      | some t => again t
      | none => visit
    Sharing.record n t
    pure (t, r)

/-- Edits the value under a key among entries. -/
def valueIn (key : Scalar) (e : Edit m) : Entries → m (Entries × Except Failure Unit)
  | [] => pure ([], .ok ())
  | (k, t) :: rest =>
    if k = key then do
      let (t, r) ← shared e t
      pure ((k, t) :: rest, r)
    else do
      let (rest, r) ← valueIn key e rest
      pure ((k, t) :: rest, r)

/-- Edits the value under a text key; a tree without it stays as it is. -/
def value (key : String) (e : Edit m) : Edit m := fun t =>
  match t with
  | .map a es => do
    let (es, r) ← valueIn (.text key) e es
    pure (.map a es, r)
  | t => pure (t, .ok ())

/-- Edits entries one after the other until an edit fails. -/
def entriesOf (e : Scalar → Edit m) : Entries → m (Entries × Except Failure Unit)
  | [] => pure ([], .ok ())
  | (k, t) :: rest => do
    let (t, r) ← shared (e k) t
    match r with
    | .error x => pure ((k, t) :: rest, .error x)
    | .ok _ =>
      let (rest, r) ← entriesOf e rest
      pure ((k, t) :: rest, r)

/-- Edits every value of a map, in order; a tree that is no map stays as it is. -/
def entries (e : Scalar → Edit m) : Edit m := fun t =>
  match t with
  | .map a es => do
    let (es, r) ← entriesOf e es
    pure (.map a es, r)
  | t => pure (t, .ok ())

/-- Edits items one after the other until an edit fails. -/
def itemsOf (e : Edit m) : List Tree → m (List Tree × Except Failure Unit)
  | [] => pure ([], .ok ())
  | t :: rest => do
    let (t, r) ← shared e t
    match r with
    | .error x => pure (t :: rest, .error x)
    | .ok _ =>
      let (rest, r) ← itemsOf e rest
      pure (t :: rest, r)

/-- Edits every item of a list, in order; a tree that is no list stays as it is. -/
def items (e : Edit m) : Edit m := fun t =>
  match t with
  | .list a ts => do
    let (ts, r) ← itemsOf e ts
    pure (.list a ts, r)
  | t => pure (t, .ok ())

end Edit

namespace Tree

/-- Whether a tree has parts to go through one by one: it is no number, truth value, time or
absent value, and not within itself. -/
def isIterable : Tree → Bool
  | .scalar (.text _) | .scalar (.bytes _) => true
  | .scalar _ | .back .. => false
  | _ => true

end Tree

end ApiContract
