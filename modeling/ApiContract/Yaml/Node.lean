import ApiContract.Yaml.Scalar
import ApiContract.Yaml.Token

/-!
# Nodes of YAML

The nodes of a document, each with the name of its type. A node that is named and repeated is one node,
which may even lie inside itself, so nodes are numbered and mention their parts by number.
-/

namespace ApiContract.Yaml

/-- What a node holds; the parts of a list or map are numbers of nodes. -/
inductive Content where
  | scalar (text : String)
  | list (items : List Nat)
  | map (entries : List (Nat × Nat))
deriving Inhabited

/-- The kind of a node, in a message. -/
def Content.kindText : Content → String
  | .scalar _ => "scalar"
  | .list _ => "sequence"
  | .map _ => "mapping"

/-- A node of a document. `left` is the number of characters from its start to the end of the text. -/
structure Node where
  left : Nat
  tag : String
  content : Content
deriving Inhabited

/-- The nodes of a document by number, and the number of the outermost one. -/
structure Graph where
  nodes : Array Node
  root : Nat

namespace Node

/-! ## Reading -/

/-- What reading knows: the tokens that are left, where the last one ended, the numbers of nodes by name,
the handles of tags, and the nodes that have begun. -/
structure Reader where
  tokens : List PlacedToken
  ended : Nat
  anchors : List (String × Nat)
  handles : List (String × String)
  nodes : Array Node

/-- Reading may fail. -/
abbrev Read := StateT Reader (Except Fault)

/-- Fails with a problem at a place. -/
def refuseAt {α : Type} (inside : Option Inside) (problem : Problem) (left : Nat) : Read α :=
  throw (.broken inside problem left)

/-- The next token and its place. -/
def peekPlaced : Read PlacedToken := do
  match (← get).tokens with
  | (_, .fault f) :: _ => throw f
  | t :: _ => return t
  | [] => return (0, .streamEnd)

/-- The next token. -/
def peek : Read Token := return (← peekPlaced).2

/-- Where the next token starts. -/
def here : Read Nat := return (← peekPlaced).1

/-- Goes on to the next token. -/
def advance : Read Unit :=
  modify fun r => { r with tokens := r.tokens.drop 1 }

/-- Goes on if a mark of one character is next; the answer says whether it was. -/
def accept (t : Token) : Read Bool := do
  let (left, next) ← peekPlaced
  if next = t then
    advance
    modify fun r => { r with ended := left - 1 }
    return true
  return false

/-- A new node. -/
def newNode (n : Node) : Read Nat := do
  let r ← get
  set { r with nodes := r.nodes.push n }
  return r.nodes.size

/-- What is not there, at a place. -/
def absent (left : Nat) : Read Nat := newNode ⟨left, Tag.null, .scalar ""⟩

/-- What is not there, after the mark that was accepted last. -/
def absentAfter : Read Nat := do absent (← get).ended

/-- What is not there, before the next token. -/
def absentBefore : Read Nat := do absent (← here)

/-- The end of a block must be next. -/
def expectBlockEnd (inside : Inside) : Read Unit := do
  if !(← accept .blockEnd) then
    let (left, found) ← peekPlaced
    refuseAt inside (.expected "<block end>" found.shown) left

/-- A comma must be next, or the end that was looked for before. -/
def expectComma (inside : Inside) (what : String) : Read Unit := do
  if !(← accept .comma) then
    let (left, found) ← peekPlaced
    refuseAt inside (.expectedNext what found.shown) left

/-- The type that a tag at a place names, in front of a node that starts at another. -/
def tagOf (started : Nat) (left : Nat) (t : TagName) : Read String := do
  match t.handle with
  | none => return t.suffix
  | some handle =>
    match (← get).handles.lookup handle with
    | some leading => return leading ++ t.suffix
    | none => refuseAt (some ⟨"while parsing a node", started⟩) (.unknownHandle handle) left

/-- The name and the tag in front of a node, in either order. -/
def properties : Read (Option String × Option String) := do
  match ← peekPlaced with
  | (started, .anchor name) =>
    advance
    match ← peekPlaced with
    | (left, .tag t) =>
      advance
      return (some name, some (← tagOf started left t))
    | _ => return (some name, none)
  | (started, .tag t) =>
    advance
    match ← peek with
    | .anchor name =>
      advance
      return (some name, some (← tagOf started started t))
    | _ => return (none, some (← tagOf started started t))
  | _ => return (none, none)

/-- A node starts at a place: the name it is given must be new. -/
def ensureNew (left : Nat) : Option String → Read Unit
  | none => return ()
  | some name => do
    let r ← get
    match r.anchors.lookup name with
    | some first =>
      let place := (r.nodes.getD first default).left
      refuseAt (some ⟨"found duplicate anchor " ++ Text.quoted name ++ "; first occurrence", place⟩)
        .secondOccurrence left
    | none => return ()

/-- Begins a node and gives it a name. -/
def beginNamed (name : Option String) (n : Node) : Read Nat := do
  ensureNew n.left name
  let id ← newNode n
  if let some name := name then modify fun r => { r with anchors := (name, id) :: r.anchors }
  return id

/-- Gives a node that has begun its content. -/
def fill (id : Nat) (content : Content) : Read Nat := do
  modify fun r => { r with nodes := r.nodes.modify id fun n => { n with content } }
  return id

/-- The node of a name that is used at a place. -/
def aliased (left : Nat) (name : String) : Read Nat := do
  match (← get).anchors.lookup name with
  | some id => return id
  | none => refuseAt none (.unknownAlias name) left

/-- The type of a list or map, unless a tag names another one. -/
def collectionTag (tag : Option String) (standard : String) : String :=
  match tag with
  | none | some "!" => standard
  | some t => t

/-- The type of a scalar: the tag's, or what the text says if it is plain or the tag asks for that. -/
def scalarTag (tag : Option String) (plain : Bool) (text : String) : String :=
  match tag with
  | none => if plain then resolve text else Tag.text
  | some "!" => resolve text
  | some t => t

/-- Whether a token is among some. -/
def nextIs (ts : List Token) : Read Bool :=
  return ts.contains (← peek)

mutual

/-- A node; block collections may start here, or lists without indentation of their own. -/
def node (inBlock indentless : Bool) : Nat → Read Nat
  | 0 => throw .value
  | n + 1 => do
    let left ← here
    if let .alias name ← peek then
      advance
      return ← aliased left name
    let (anchor, tag) ← properties
    let scalar (text : String) (plain : Bool) : Read Nat :=
      beginNamed anchor ⟨left, scalarTag tag plain text, .scalar text⟩
    let list (items : Read (List Nat)) : Read Nat := do
      let id ← beginNamed anchor ⟨left, collectionTag tag Tag.list, .list []⟩
      fill id (.list (← items))
    let map (entries : Read (List (Nat × Nat))) : Read Nat := do
      let id ← beginNamed anchor ⟨left, collectionTag tag Tag.map, .map []⟩
      fill id (.map (← entries))
    let started ← here
    match ← peek, indentless, inBlock with
    | .entry, true, _ => list (indentlessItems n)
    | .scalar text plain, _, _ =>
      advance
      scalar text plain
    | .sequenceStart, _, _ =>
      advance
      list (flowItems ⟨"while parsing a flow sequence", started⟩ true n)
    | .mappingStart, _, _ =>
      advance
      map (flowEntries ⟨"while parsing a flow mapping", started⟩ true n)
    | .blockSequenceStart, _, true =>
      advance
      list (blockItems ⟨"while parsing a block collection", started⟩ n)
    | .blockMappingStart, _, true =>
      advance
      map (blockEntries ⟨"while parsing a block mapping", started⟩ n)
    | found, _, _ =>
      if anchor.isNone && tag.isNone then
        let what := "while parsing a " ++ (if inBlock then "block" else "flow") ++ " node"
        refuseAt (some ⟨what, left⟩) (.expected "the node content" found.shown) started
      scalar "" true

/-- The items of a block list up to its end. -/
def blockItems (inside : Inside) : Nat → Read (List Nat)
  | 0 => throw .value
  | n + 1 => do
    if ← accept .entry then
      let item ← if ← nextIs [.entry, .blockEnd] then absentAfter else node true false n
      return item :: (← blockItems inside n)
    expectBlockEnd inside
    return []

/-- The items of a list without indentation of its own. -/
def indentlessItems : Nat → Read (List Nat)
  | 0 => throw .value
  | n + 1 => do
    if ← accept .entry then
      let item ← if ← nextIs [.entry, .key, .value, .blockEnd] then absentAfter
        else node true false n
      return item :: (← indentlessItems n)
    return []

/-- The entries of a block map up to its end. -/
def blockEntries (inside : Inside) : Nat → Read (List (Nat × Nat))
  | 0 => throw .value
  | n + 1 => do
    let part : Read Nat := do
      if ← nextIs [.key, .value, .blockEnd] then absentAfter else node true true n
    if ← accept .key then
      let key ← part
      let value ← if ← accept .value then part else absentBefore
      return (key, value) :: (← blockEntries inside n)
    expectBlockEnd inside
    return []

/-- The items of a list in brackets up to the closing one. A key makes a map of one entry. -/
def flowItems (inside : Inside) (first : Bool) : Nat → Read (List Nat)
  | 0 => throw .value
  | n + 1 => do
    if ← accept .sequenceEnd then return []
    if !first then expectComma inside "',' or ']'"
    let left ← here
    if ← accept .key then
      let id ← newNode ⟨left, Tag.map, .map []⟩
      let key ← if ← nextIs [.value, .comma, .sequenceEnd] then absentAfter else node false false n
      let value ← if ← accept .value then
          if ← nextIs [.comma, .sequenceEnd] then absentAfter else node false false n
        else absentBefore
      return (← fill id (.map [(key, value)])) :: (← flowItems inside false n)
    if ← accept .sequenceEnd then return []
    let item ← node false false n
    return item :: (← flowItems inside false n)

/-- The entries of a map in brackets up to the closing one. A node without a value is a key. -/
def flowEntries (inside : Inside) (first : Bool) : Nat → Read (List (Nat × Nat))
  | 0 => throw .value
  | n + 1 => do
    if ← accept .mappingEnd then return []
    if !first then expectComma inside "',' or '\x7d'"
    if ← accept .key then
      let key ← if ← nextIs [.value, .comma, .mappingEnd] then absentAfter else node false false n
      let value ← if ← accept .value then
          if ← nextIs [.comma, .mappingEnd] then absentAfter else node false false n
        else absentBefore
      return (key, value) :: (← flowEntries inside false n)
    if ← accept .mappingEnd then return []
    let key ← node false false n
    return (key, ← absentBefore) :: (← flowEntries inside false n)

end

/-! ## Documents -/

/-- The handles that every document has. -/
def standardHandles : List (String × String) := [("!", "!"), ("!!", standard)]

/-- Reads directives: one version at most, of the first generation, and each handle once. -/
def directives (versioned : Bool) (handles : List (String × String)) :
    List PlacedToken → Except Fault (List (String × String) × List PlacedToken)
  | (left, .directive (.version major)) :: rest =>
    if versioned then .error (.broken none .duplicateVersion left)
    else if major != 1 then .error (.broken none .otherVersion left)
    else directives true handles rest
  | (left, .directive (.tag handle leading)) :: rest =>
    if (handles.lookup handle).isSome then .error (.broken none (.duplicateHandle handle) left)
    else directives versioned ((handle, leading) :: handles) rest
  | (_, .directive .other) :: rest => directives versioned handles rest
  | rest => .ok (handles, rest)

/-- Drops the marks of a document's end. -/
def skipEnds (r : Reader) : Reader :=
  { r with tokens := r.tokens.dropWhile (·.2 = .documentEnd) }

/-- The outermost node. The tokens bound the nodes. -/
def outermost : Read Nat := do
  node true false (3 * (← get).tokens.length + 3)

/-- Reads the directives and the mark in front of a document. -/
def openDocument : Read Unit := do
  let r ← get
  let (handles, rest) ← directives false [] r.tokens
  set { r with tokens := rest, handles := handles ++ standardHandles }
  if !(← accept .documentStart) then
    let (left, found) ← peekPlaced
    refuseAt none (.expected "'<document start>'" found.shown) left

/-- No document must follow the one that starts at a place. -/
def expectEnd (started : Nat) : Read Unit := do
  modify skipEnds
  if !(← accept .streamEnd) then
    let left ← here
    openDocument
    refuseAt (some ⟨"expected a single document in the stream", started⟩) .secondDocument left

/-- The document of a text, if it holds one; more than one is refused. -/
def document : Read (Option Nat) := do
  let (started, first) ← peekPlaced
  match first with
  | .streamEnd => return none
  | .directive _ | .documentStart =>
    openDocument
    let empty ← match ← peek with
      | .directive _ | .documentStart | .documentEnd | .streamEnd => pure true
      | _ => pure false
    let root ← if empty then absentBefore else outermost
    expectEnd ((← get).nodes.getD root default).left
    return some root
  | _ =>
    let root ← outermost
    expectEnd started
    return some root

end Node

/-! ## Depth -/

/-- The number of collections that may be open within each other. -/
def depthLimit : Nat := 488

/-- How a token changes the number of open collections. -/
def Token.change : Token → Int
  | .blockSequenceStart | .blockMappingStart | .sequenceStart | .mappingStart => 1
  | .blockEnd | .sequenceEnd | .mappingEnd => -1
  | _ => 0

/-- Ends tokens with a fault where a collection opens within too many others. -/
def limitDepth (depth : Int) : List PlacedToken → List PlacedToken
  | [] => []
  | (left, t) :: rest =>
    if depth + t.change > depthLimit then [(left, .fault .value)]
    else (left, t) :: limitDepth (depth + t.change) rest

/-- Reads the nodes of the document of a text. -/
def Graph.read (text : String) : Except Fault (Option Graph) := do
  let placed := limitDepth 0 (tokens text)
  let (root, r) ← Node.document.run ⟨placed, 0, [], Node.standardHandles, #[]⟩
  return root.map (⟨r.nodes, ·⟩)

end ApiContract.Yaml
