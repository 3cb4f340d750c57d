import ApiContract.Tree.Scalar

/-!
# Document trees

A document is a tree of lists and maps over scalars. The entries of a map keep their order, and its
keys are scalars, though nearly always texts. Some documents also hold sets of scalars and pairs.

A list, map or set may carry an anchor: a document that names a node and repeats it by that name holds
the node once, and the anchor says which places share it. Documents without repeated nodes have none.
A node that is repeated inside itself is cut there: `Tree.back` stands for the list or map around it
that has the anchor.

`Tree.para` is recursion over a tree with access to the subtrees; the passes that must say how they
rebuild a tree are written with it.
-/

namespace ApiContract

/-- A document or a part of it. -/
inductive Tree where
  | scalar (s : Scalar)
  | list (anchor : Anchor) (items : List Tree)
  | map (anchor : Anchor) (entries : List (Scalar × Tree))
  | set (anchor : Anchor) (members : List Scalar)
  | pair (first second : Tree)
  | back (anchor : Nat) (isMap : Bool)
deriving Inhabited

/-- The entries of a map, in order. -/
abbrev Entries := List (Scalar × Tree)

namespace Tree

/-- The absent value. -/
@[match_pattern] abbrev null : Tree := .scalar .null
/-- A truth value. -/
@[match_pattern] abbrev bool (b : Bool) : Tree := .scalar (.bool b)
/-- A whole number. -/
@[match_pattern] abbrev int (n : Int) : Tree := .scalar (.int n)
/-- A text. -/
@[match_pattern] abbrev text (s : String) : Tree := .scalar (.text s)

/-- A map with texts as keys, shared with no other place. -/
def object (fields : List (String × Tree)) : Tree :=
  .map none (fields.map fun f => (.text f.1, f.2))

/-- A list shared with no other place. -/
def array (items : List Tree) : Tree :=
  .list none items

/-! ## Recursion -/

/-- What a recursion makes of each kind of tree. Containers are handed their subtrees with the results for
them. -/
structure Cases (β : Type u) where
  scalar : Scalar → β
  list : Anchor → List (Tree × β) → β
  map : Anchor → List (Scalar × Tree × β) → β
  set : Anchor → List Scalar → β
  pair : Tree × β → Tree × β → β
  back : Nat → Bool → β

mutual

/-- Recursion over a tree. -/
def para {β : Type u} (c : Cases β) : Tree → β
  | .scalar s => c.scalar s
  | .list a items => c.list a (paraItems c items)
  | .map a entries => c.map a (paraEntries c entries)
  | .set a members => c.set a members
  | .pair x y => c.pair (x, para c x) (y, para c y)
  | .back a isMap => c.back a isMap

/-- `para` on the items of a list. -/
def paraItems {β : Type u} (c : Cases β) : List Tree → List (Tree × β)
  | [] => []
  | t :: rest => (t, para c t) :: paraItems c rest

/-- `para` on the entries of a map. -/
def paraEntries {β : Type u} (c : Cases β) : List (Scalar × Tree) → List (Scalar × Tree × β)
  | [] => []
  | (k, t) :: rest => (k, t, para c t) :: paraEntries c rest

end

/-- The recursion that builds a tree anew. -/
def rebuild : Cases Tree where
  scalar := .scalar
  list a items := .list a (items.map (·.2))
  map a entries := .map a (entries.map fun (k, _, t) => (k, t))
  set := .set
  pair x y := .pair x.2 y.2
  back := .back

/-- Changes or drops the anchors of a tree. Where a node is cut, its anchor is changed alike or stays. -/
def mapAnchors (f : Nat → Anchor) : Tree → Tree :=
  para { rebuild with
    scalar s := .scalar (s.mapAnchor f)
    list a items := .list (a.bind f) (items.map (·.2))
    map a entries := .map (a.bind f) (entries.map fun (k, _, t) => (k.mapAnchor f, t))
    set a members := .set (a.bind f) (members.map (Scalar.mapAnchor f))
    back a isMap := .back ((f a).getD a) isMap }

/-- A number above all anchors of a tree. -/
def anchorBound : Tree → Nat :=
  para {
    scalar := above ∘ Scalar.anchor
    list a items := (items.map (·.2)).foldl max (above a)
    map a entries := (entries.map fun (k, _, n) => max (above k.anchor) n).foldl max (above a)
    set a members := (members.map fun k => above k.anchor).foldl max (above a)
    pair x y := max x.2 y.2
    back a _ := a + 1 }
where
  /-- The number above an anchor. -/
  above (a : Anchor) : Nat := (a.map (· + 1)).getD 0

/-! ## Equality of trees -/

mutual

/-- Decides whether two trees are identical, anchors and order of entries included. -/
def decEq : (a b : Tree) → Decidable (a = b)
  | .scalar s, b => match b with
    | .scalar t => decidable_of_iff (s = t) (by simp)
    | .list .. | .map .. | .set .. | .pair .. | .back .. => .isFalse (by simp)
  | .list a xs, b => match b with
    | .list b ys =>
      match (inferInstance : Decidable (a = b)), decEqItems xs ys with
      | .isTrue h, .isTrue h' => .isTrue (by rw [h, h'])
      | .isFalse h, _ => .isFalse (by simp [h])
      | _, .isFalse h => .isFalse (by simp [h])
    | .scalar _ | .map .. | .set .. | .pair .. | .back .. => .isFalse (by simp)
  | .map a xs, b => match b with
    | .map b ys =>
      match (inferInstance : Decidable (a = b)), decEqEntries xs ys with
      | .isTrue h, .isTrue h' => .isTrue (by rw [h, h'])
      | .isFalse h, _ => .isFalse (by simp [h])
      | _, .isFalse h => .isFalse (by simp [h])
    | .scalar _ | .list .. | .set .. | .pair .. | .back .. => .isFalse (by simp)
  | .set a xs, b => match b with
    | .set b ys => decidable_of_iff (a = b ∧ xs = ys) (by simp)
    | .scalar _ | .list .. | .map .. | .pair .. | .back .. => .isFalse (by simp)
  | .pair x y, b => match b with
    | .pair z w =>
      match decEq x z, decEq y w with
      | .isTrue h, .isTrue h' => .isTrue (by rw [h, h'])
      | .isFalse h, _ => .isFalse (by simp [h])
      | _, .isFalse h => .isFalse (by simp [h])
    | .scalar _ | .list .. | .map .. | .set .. | .back .. => .isFalse (by simp)
  | .back a m, b => match b with
    | .back b n => decidable_of_iff (a = b ∧ m = n) (by simp)
    | .scalar _ | .list .. | .map .. | .set .. | .pair .. => .isFalse (by simp)

/-- Decides whether two lists of trees are identical. -/
def decEqItems : (a b : List Tree) → Decidable (a = b)
  | [], [] => .isTrue rfl
  | [], _ :: _ => .isFalse (by simp)
  | _ :: _, [] => .isFalse (by simp)
  | x :: xs, y :: ys =>
    match decEq x y, decEqItems xs ys with
    | .isTrue h, .isTrue h' => .isTrue (by rw [h, h'])
    | .isFalse h, _ => .isFalse (by simp [h])
    | _, .isFalse h => .isFalse (by simp [h])

/-- Decides whether two lists of entries are identical. -/
def decEqEntries : (a b : List (Scalar × Tree)) → Decidable (a = b)
  | [], [] => .isTrue rfl
  | [], _ :: _ => .isFalse (by simp)
  | _ :: _, [] => .isFalse (by simp)
  | (k, x) :: xs, (l, y) :: ys =>
    match (inferInstance : Decidable (k = l)), decEq x y, decEqEntries xs ys with
    | .isTrue h, .isTrue h', .isTrue h'' => .isTrue (by rw [h, h', h''])
    | .isFalse h, _, _ => .isFalse (by simp [h])
    | _, .isFalse h, _ => .isFalse (by simp [h])
    | _, _, .isFalse h => .isFalse (by simp [h])

end

instance : DecidableEq Tree := decEq

end Tree

/-! ## Entries -/

namespace Entries

/-- The value under a key. -/
def at? (key : Scalar) : Entries → Option Tree
  | [] => none
  | (k, t) :: rest => if k = key then some t else at? key rest

/-- The value under a text key. -/
def get? (entries : Entries) (key : String) : Option Tree :=
  at? (.text key) entries

/-- The value under a text key, `null` where there is none. -/
def orNull (entries : Entries) (key : String) : Tree :=
  (entries.get? key).getD .null

/-- Whether a text key is present. -/
def has (entries : Entries) (key : String) : Bool :=
  (entries.get? key).isSome

/-- Replaces the value under a key in its place, or appends it. -/
def put (key : Scalar) (value : Tree) : Entries → Entries
  | [] => [(key, value)]
  | (k, t) :: rest => if k = key then (k, value) :: rest else (k, t) :: put key value rest

/-- Replaces or appends the value under a text key. -/
def set (entries : Entries) (key : String) (value : Tree) : Entries :=
  put (.text key) value entries

/-- Removes a text key. -/
def erase (entries : Entries) (key : String) : Entries :=
  entries.filter fun e => e.1 != .text key

/-- The keys in order. -/
def keys (entries : Entries) : List Scalar :=
  entries.map (·.1)

end Entries

namespace Tree

/-! ## Views -/

/-- The entries of a map. -/
def entries? : Tree → Option Entries
  | .map _ es => some es
  | _ => none

/-- The items of a list. -/
def items? : Tree → Option (List Tree)
  | .list _ ts => some ts
  | _ => none

/-- The characters of a text. -/
def text? : Tree → Option String
  | .text s => some s
  | _ => none

/-- The value under a text key; nothing where the tree is no map. -/
def get? (t : Tree) (key : String) : Option Tree :=
  t.entries?.bind fun es => es.get? key

/-- The value under a text key, `null` where there is none. -/
def getD (t : Tree) (key : String) : Tree :=
  (t.get? key).getD .null

/-- Whether the tree is a map. -/
def isMap (t : Tree) : Bool :=
  t.entries?.isSome

/-- Whether the tree is a list. -/
def isList (t : Tree) : Bool :=
  t.items?.isSome

/-- Whether a tree counts as true in a condition: it is not empty, not zero and not absent. -/
def truthy : Tree → Bool
  | .scalar s => s.truthy
  | .list _ ts => !ts.isEmpty
  | .map _ es => !es.isEmpty
  | .set _ ms => !ms.isEmpty
  | .pair .. | .back .. => true

/-- Whether a tree can be a key: it holds no list, map or set. -/
def isKey : Tree → Bool
  | .scalar _ => true
  | .pair x y => x.isKey && y.isKey
  | _ => false

/-- The name of a tree's type in messages. -/
def typeName : Tree → String
  | .scalar s => s.typeName
  | .list .. => "list"
  | .map .. => "dict"
  | .set .. => "set"
  | .pair .. => "tuple"
  | .back _ isMap => if isMap then "dict" else "list"

/-- The literal form of a tree in messages. -/
def literal : Tree → String :=
  para {
    scalar := Scalar.literal
    list _ items := "[" ++ ", ".intercalate (items.map (·.2)) ++ "]"
    map _ entries :=
      "\x7b" ++ ", ".intercalate (entries.map fun (k, _, t) => k.literal ++ ": " ++ t) ++ "\x7d"
    set _ members :=
      if members.isEmpty then "set()"
      else "\x7b" ++ ", ".intercalate (members.map Scalar.literal) ++ "\x7d"
    pair x y := "(" ++ x.2 ++ ", " ++ y.2 ++ ")"
    back _ isMap := if isMap then "\x7b...\x7d" else "[...]" }

/-- A tree as plain text: scalars as they are displayed, all else literal. -/
def display : Tree → String
  | .scalar s => s.display
  | t => t.literal

/-! ## Sameness

Two trees are the same if they stand for the same value: numbers are compared as numbers, maps
without regard to the order of their entries, and anchors are ignored. -/

/-- The value under a key that stands for the same scalar. -/
def findSame? (key : Scalar) (entries : Entries) : Option Tree :=
  (entries.find? fun e => e.1.same key).map (·.2)

/-- Whether two trees stand for the same value. -/
def same : Tree → Tree → Bool :=
  para (β := Tree → Bool) {
    scalar s other := match other with
      | .scalar s' => s.same s'
      | _ => false
    list _ items other := match other with
      | .list _ items' =>
        items.length == items'.length && (items.zip items').all fun (x, y) => x.2 y
      | _ => false
    map _ entries other := match other with
      | .map _ entries' =>
        entries.length == entries'.length &&
          entries.all fun (k, _, sameAs) => (findSame? k entries').any sameAs
      | _ => false
    set _ members other := match other with
      | .set _ members' =>
        members.length == members'.length && members.all fun m => members'.any m.same
      | _ => false
    pair x y other := match other with
      | .pair x' y' => x.2 x' && y.2 y'
      | _ => false
    back a isMap other := other = .back a isMap }

end Tree

end ApiContract
