import ApiContract.Tree.Basic
import ApiContract.Yaml.Node

/-!
# Values of YAML

The tree that a document stands for. Values are built from the outside in: the parts of a list or map
follow when all collections that were met before have theirs, so the outermost faults are found first.
Every node has one value, whichever places mention it.

A map takes in the maps that it merges, in front of its own entries, when its entries are built; of two
entries with one key the later value counts, in the earlier place. Nodes that stand in several places
share an anchor.
-/

namespace ApiContract.Yaml

/-- The value of a node: a scalar, or the collection that the node of a number stands for. -/
inductive Part where
  | scalar (s : Scalar)
  | collection (id : Nat)
deriving Inhabited

/-- The parts of a collection. -/
inductive Collected where
  | list (items : List Part)
  | pairs (items : List (Part × Part))
  | map (entries : List (Scalar × Part))
  | set (members : List Scalar)
deriving Inhabited

/-- The state of building: the nodes, which maps change as they take in others; the values of nodes and
the parts of collections, as far as they are known; and the collections without parts, oldest first. -/
structure Build where
  nodes : Array Node
  values : Array (Option Part)
  collected : Array (Option Collected)
  waiting : List Nat

namespace Build

/-- Building may fail. -/
abbrev Step := StateT Build (Except Fault)

/-- The node of a number. -/
def nodeOf (id : Nat) : Step Node := return (← get).nodes.getD id default

/-- Changes the node of a number. -/
def change (id : Nat) (f : Node → Node) : Step Unit :=
  modify fun b => { b with nodes := b.nodes.modify id f }

/-- Fails with a problem at a node. -/
def refuse {α : Type} (inside : Option Inside) (problem : Problem) (left : Nat) : Step α :=
  throw (.broken inside problem left)

/-! ## Merging -/

/-- Splits entries at the first whose key has the type of merge keys. -/
def splitMerge (nodes : Array Node) :
    List (Nat × Nat) → List (Nat × Nat) × Option (Nat × List (Nat × Nat))
  | [] => ([], none)
  | (k, v) :: rest =>
    if (nodes.getD k default).tag = Tag.merge then ([], some (v, rest))
    else
      let (before, found) := splitMerge nodes rest
      ((k, v) :: before, found)

/-- The keys of main values become texts. -/
def settleKeys (entries : List (Nat × Nat)) : Step Unit :=
  entries.forM fun (k, _) => do
    if (← nodeOf k).tag = Tag.value then change k fun n => { n with tag := Tag.text }

/-- The number of entries with merge keys. -/
def mergeCount (nodes : Array Node) : Nat :=
  nodes.foldl (fun count n => match n.content with
    | .map entries => count + (entries.filter fun e => (nodes.getD e.1 default).tag = Tag.merge).length
    | _ => count) 0

/-- The entries of a node that is a map. -/
def entriesOf (id : Nat) : Step (List (Nat × Nat)) := do
  match (← nodeOf id).content with
  | .map entries => return entries
  | _ => return []

/-- A map takes in what it merges. `place` is the number of its entries that have been looked at, and
`taken` are those to come in front. The first argument bounds the merge keys that are left: every step
removes one, which matters where maps merge each other. -/
def merge : Nat → Nat → Nat → List (Nat × Nat) → Step Unit
  | 0, _, _, _ => throw .value
  | bound + 1, id, place, taken => do
    let node ← nodeOf id
    let entries ← entriesOf id
    let (before, found) := splitMerge (← get).nodes (entries.drop place)
    settleKeys before
    match found with
    | none =>
      if !taken.isEmpty then change id fun n => { n with content := .map (taken ++ entries) }
    | some (source, rest) =>
      let place := place + before.length
      change id fun n => { n with content := .map (entries.take place ++ rest) }
      let sourceNode ← nodeOf source
      let inside : Option Inside := some ⟨"while constructing a mapping", node.left⟩
      let more ← match sourceNode.content with
        | .map _ =>
          merge bound source 0 []
          entriesOf source
        | .list items =>
          let parts ← items.mapM fun item => do
            let n ← nodeOf item
            match n.content with
            | .map _ =>
              merge bound item 0 []
              entriesOf item
            | other =>
              refuse inside (.expected "a mapping for merging" other.kindText) n.left
          pure parts.reverse.flatten
        | other =>
          refuse inside (.expected "a mapping or list of mappings for merging" other.kindText)
            sourceNode.left
      merge bound id place (taken ++ more)

/-- The entries of a map that has taken in what it merges. -/
def mergedEntries (id : Nat) : Step (List (Nat × Nat)) := do
  let nodes := (← get).nodes
  let entries ← entriesOf id
  merge (if (splitMerge nodes entries).2.isSome then mergeCount nodes + 1 else 1) id 0 []
  entriesOf id

/-! ## Scalars -/

/-- The text of a scalar, or the text of a map's main value. The first argument bounds how far main
values are nested. -/
def textOf : Nat → Nat → Step String
  | 0, _ => throw .value
  | bound + 1, id => do
    let n ← nodeOf id
    let nodes := (← get).nodes
    match n.content with
    | .scalar text => return text
    | .map entries =>
      match entries.find? fun e => (nodes.getD e.1 default).tag = Tag.value with
      | some (_, v) => textOf bound v
      | none => refuse none (.expected "a scalar node" n.content.kindText) n.left
    | .list _ => refuse none (.expected "a scalar node" n.content.kindText) n.left

/-- The scalar of a node of a scalar type. A moment is never the main value of a map. -/
def scalarOf (id : Nat) : Step Scalar := do
  let n ← nodeOf id
  if !isScalarType n.tag then refuse none (.unknownTag n.tag) n.left
  let text ← textOf ((← get).nodes.size + 1) id
  let isScalar := match n.content with
    | .scalar _ => true
    | _ => false
  if n.tag = Tag.of "timestamp" && !isScalar then throw .value
  match scalarValue n.left n.tag text with
  | some (.ok (.date _ d)) => return .date (some id) d
  | some (.ok (.dateTime _ t)) => return .dateTime (some id) t
  | some (.ok s) => return s
  | some (.error f) => throw f
  | none => refuse none (.unknownTag n.tag) n.left

/-! ## Collections -/

/-- The name of a kind of list of pairs, in a message. -/
def pairsName (tag : String) : Option String :=
  if tag = Tag.of "omap" then some "an ordered map"
  else if tag = Tag.of "pairs" then some "pairs"
  else none

/-- Whether a type is one of collections. -/
def isCollection (tag : String) : Bool :=
  tag = Tag.list || tag = Tag.map || tag = Tag.of "set" || (pairsName tag).isSome

/-- The value of a node. A collection waits for its parts. -/
def valueOf (id : Nat) : Step Part := do
  if let some p := (← get).values.getD id none then return p
  let n ← nodeOf id
  if isCollection n.tag then
    modify fun b => { b with
      values := b.values.setIfInBounds id (some (.collection id)), waiting := b.waiting ++ [id] }
    return .collection id
  else
    let s ← scalarOf id
    modify fun b => { b with values := b.values.setIfInBounds id (some (.scalar s)) }
    return .scalar s

/-- Puts a value under the key that stands for the same scalar, or at the end. -/
def putSame (key : Scalar) (value : Part) : List (Scalar × Part) → List (Scalar × Part)
  | [] => [(key, value)]
  | (k, t) :: rest => if k.same key then (k, value) :: rest else (k, t) :: putSame key value rest

/-- The entries of a map. -/
def mapEntries (id : Nat) : Step (List (Scalar × Part)) := do
  let n ← nodeOf id
  match n.content with
  | .map _ =>
    let entries ← mergedEntries id
    entries.foldlM (fun done (k, v) => do
      match ← valueOf k with
      | .scalar key => return putSame key (← valueOf v) done
      | .collection _ =>
        refuse (some ⟨"while constructing a mapping", n.left⟩) .keyNotScalar (← nodeOf k).left) []
  | other => refuse none (.expected "a mapping node" other.kindText) n.left

/-- The items of a list. -/
def listItems (id : Nat) : Step (List Part) := do
  let n ← nodeOf id
  match n.content with
  | .list items => items.mapM valueOf
  | other => refuse none (.expected "a sequence node" other.kindText) n.left

/-- The pairs of a list whose items are maps of one entry. -/
def pairItems (name : String) (id : Nat) : Step (List (Part × Part)) := do
  let n ← nodeOf id
  let inside : Option Inside := some ⟨"while constructing " ++ name, n.left⟩
  match n.content with
  | .list items => items.mapM fun item => do
    let m ← nodeOf item
    match m.content with
    | .map [(k, v)] => return (← valueOf k, ← valueOf v)
    | .map entries =>
      refuse inside (.expected "a single mapping item" (toString entries.length ++ " items")) m.left
    | other => refuse inside (.expected "a mapping of length 1" other.kindText) m.left
  | other => refuse inside (.expected "a sequence" other.kindText) n.left

/-- Finds the parts of a collection. -/
def collect (id : Nat) : Step Unit := do
  let tag := (← nodeOf id).tag
  let parts ← match pairsName tag with
    | some name => Collected.pairs <$> pairItems name id
    | none =>
      if tag = Tag.list then Collected.list <$> listItems id
      else if tag = Tag.map then Collected.map <$> mapEntries id
      else do pure (.set ((← mapEntries id).map (·.1)))
  modify fun b => { b with collected := b.collected.setIfInBounds id (some parts) }

/-- Finds the parts of the collections that wait, oldest first. Each node waits once, so the number of
nodes bounds the steps. -/
def collectAll : Nat → Step Unit
  | 0 => return ()
  | bound + 1 => do
    match (← get).waiting with
    | [] => return ()
    | id :: rest =>
      modify fun b => { b with waiting := rest }
      collect id
      collectAll bound

/-! ## Trees -/

/-- Makes a tree of a value. The collections around it are given, and where one of them is mentioned
again it is cut. No collection is within itself on the way, so the number of nodes bounds the depth. -/
def unfold (collected : Array (Option Collected)) : Nat → List (Nat × Bool) → Part → Tree
  | 0, _, _ => .null
  | _ + 1, _, .scalar s => .scalar s
  | bound + 1, around, .collection id =>
    match around.lookup id with
    | some isMap => .back id isMap
    | none =>
      match collected.getD id none with
      | some (.list items) => .list (some id) (items.map (unfold collected bound ((id, false) :: around)))
      | some (.pairs items) =>
        let part := unfold collected bound ((id, false) :: around)
        .list (some id) (items.map fun (x, y) => .pair (part x) (part y))
      | some (.map entries) =>
        .map (some id) (entries.map fun (k, v) => (k, unfold collected bound ((id, true) :: around) v))
      | some (.set members) => .set (some id) members
      | none => .null

end Build

/-- The tree of a document, in which nodes have their numbers as anchors. -/
def Graph.tree (g : Graph) : Except Fault Tree := do
  let size := g.nodes.size
  let start : Build := ⟨g.nodes, Array.replicate size none, Array.replicate size none, []⟩
  let (root, b) ← (do
    let root ← Build.valueOf g.root
    Build.collectAll size
    return root : Build.Step Part).run start
  return Build.unfold b.collected (size + 1) [] root

/-! ## Sharing -/

/-- The anchors of a tree, one for each place. -/
def anchorsOf : Tree → List Nat :=
  Tree.para {
    scalar s := s.anchor.toList
    list a items := a.toList ++ items.flatMap (·.2)
    map a entries := a.toList ++ entries.flatMap fun (k, _, ns) => k.anchor.toList ++ ns
    set a members := a.toList ++ members.flatMap fun m => m.anchor.toList
    pair x y := x.2 ++ y.2
    back a _ := [a] }

/-- The numbers that occur more than once in a sorted list. -/
def repeated : List Nat → List Nat
  | a :: b :: rest => if a = b then a :: repeated (b :: rest) else repeated (b :: rest)
  | _ => []

/-- Takes away the anchors that mark one place only. -/
def keepShared (t : Tree) : Tree :=
  let shared := (repeated ((anchorsOf t).mergeSort (· ≤ ·))).eraseDups
  t.mapAnchors fun a => if shared.contains a then some a else none

/-- Reads the document of a text; a text without one stands for the absent value. -/
def read (text : String) : Except Fault Tree := do
  match ← Graph.read text with
  | none => return .null
  | some graph => return keepShared (← graph.tree)

end ApiContract.Yaml
