import ApiContract.Yaml.Page
import ApiContract.Tree.Basic

/-!
# Writing YAML

Writes a tree as a YAML document in block style. Nodes that the tree shares between places are written
once under an anchor, and by their alias at every other place.
-/

namespace ApiContract.Yaml

/-! ## Sharing -/

/-- The anchors that have been met, and those that have been met again, in this order. -/
structure Meetings where
  met : List Nat
  again : List Nat

/-- Meets a node: one that has been met before is not looked into. -/
def Meetings.meet (a : Anchor) (inside : Meetings → Meetings) (m : Meetings) : Meetings :=
  match a with
  | none => inside m
  | some n =>
    if !m.met.contains n then inside { m with met := n :: m.met }
    else if m.again.contains n then m
    else { m with again := m.again ++ [n] }

/-- The anchors of the nodes that a tree shares, in the order in which they are met again. -/
def sharedAnchors (t : Tree) : List Nat :=
  (t.para (β := Meetings → Meetings) {
    scalar := meetScalar
    list a items := Meetings.meet a fun m => items.foldl (fun m i => i.2 m) m
    map a entries := Meetings.meet a fun m =>
      entries.foldl (fun m (k, _, v) => v (meetScalar k m)) m
    set a members := Meetings.meet a fun m => members.foldl (fun m k => meetScalar k m) m
    pair x y := fun m => y.2 (x.2 m)
    back a _ := Meetings.meet (some a) id } ⟨[], []⟩).again
where
  /-- Meets a scalar. -/
  meetScalar (s : Scalar) : Meetings → Meetings := Meetings.meet s.anchor id

/-- The name of the shared node at a place among all. -/
def anchorLabel (place : Nat) : String :=
  "id" ++ Calendar.padded 3 (place + 1)

/-! ## Trees -/

/-- Where a node stands: the indentation of what is around it, none at the top, and whether that is a
map. -/
structure Context where
  indent : Option Nat
  inMap : Bool

/-- The indentation inside a node. -/
def Context.deeper (c : Context) : Nat :=
  match c.indent with
  | none => 0
  | some n => n + 2

/-- The indentation of a scalar's further lines. -/
def Context.folded (c : Context) : Nat :=
  (c.indent.map (· + 2)).getD 2

/-- A page and the anchors that have been written on it. -/
structure Sheet where
  page : Page
  anchored : List Nat

/-- Writes on the page of a sheet. -/
def Sheet.on (f : Page → Page) (s : Sheet) : Sheet :=
  { s with page := f s.page }

/-- Writes a piece of a document. -/
abbrev Piece := Context → Sheet → Sheet

/-- Writes a node that may be shared: in full with its anchor, or by its alias. -/
def shared (names : List Nat) (a : Anchor) (node : Piece) : Piece := fun c s =>
  match a.bind names.idxOf? with
  | none => node c s
  | some place =>
    if s.anchored.contains place then
      s.on (Page.mark ("*" ++ anchorLabel place) true false false)
    else
      node c { s with
        page := s.page.mark ("&" ++ anchorLabel place) true false false
        anchored := place :: s.anchored }

/-- Writes an empty collection. -/
def emptyPair (opening closing : String) : Piece := fun _ s =>
  s.on fun p => (p.mark opening true true false).mark closing false false false

/-- Writes a list. One that is the value of a key stands no deeper than the key. -/
def listPiece (items : List Piece) : Piece := fun c s =>
  if items.isEmpty then emptyPair "[" "]" c s
  else
    let indent := if c.inMap && !s.page.fresh then c.indent.getD 0 else c.deeper
    items.foldl (fun s item =>
      item ⟨some indent, false⟩ (s.on fun p => (p.goTo indent).mark "-" true false true)) s

/-- Whether a key stands on a line with its value. -/
def isSimpleKey (w : Written) : Bool :=
  let traits := traitsOf w.text
  w.keyLength < 128 && !traits.empty && !traits.multiline

/-- Writes a scalar, as the key of a line or not. -/
def scalarPiece (names : List Nat) (isKey : Bool) (v : Scalar) : Piece :=
  shared names v.anchor fun c s => s.on (Page.scalar c.folded isKey (.ofScalar v))

/-- Writes an entry of a map. -/
def entryPiece (names : List Nat) (indent : Nat) (key : Scalar) (value : Piece) (s : Sheet) :
    Sheet :=
  let inside : Context := ⟨some indent, true⟩
  if isSimpleKey (.ofScalar key) then
    let s := scalarPiece names true key inside (s.on fun p => p.goTo indent)
    value inside (s.on fun p => p.mark ":" false false false)
  else
    let s := scalarPiece names false key inside (s.on fun p => (p.goTo indent).mark "?" true false true)
    value inside (s.on fun p => (p.goTo indent).mark ":" true false true)

/-- Writes a map. -/
def mapPiece (names : List Nat) (entries : List (Scalar × Piece)) : Piece := fun c s =>
  if entries.isEmpty then emptyPair "\x7b" "\x7d" c s
  else entries.foldl (fun s (key, value) => entryPiece names c.deeper key value s) s

/-- Writes a set: a map of its members to nothing. -/
def setPiece (names : List Nat) (members : List Scalar) : Piece := fun c s =>
  mapPiece names (members.map fun m => (m, scalarPiece names false .null)) c
    (s.on (Page.mark (shortTag (Tag.of "set")) true false false))

/-- Writes a tree. -/
def piece (names : List Nat) : Tree → Piece :=
  Tree.para {
    scalar := scalarPiece names false
    list a items := shared names a (listPiece (items.map (·.2)))
    map a entries := shared names a (mapPiece names (entries.map fun (k, _, v) => (k, v)))
    set a members := shared names a (setPiece names members)
    pair x y := listPiece [x.2, y.2]
    back a _ := shared names (some a) fun _ s => s }

/-- The YAML document of a tree. -/
def print (t : Tree) : String :=
  let s := piece (sharedAnchors t) t ⟨none, false⟩ ⟨.empty, []⟩
  (s.page.goTo 0).text

end ApiContract.Yaml
