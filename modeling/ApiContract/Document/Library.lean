import ApiContract.Failure
import ApiContract.Reference

/-!
# Libraries

The documents that references can lead to, by path. A document that cannot be read is known by its
failure; every other path names no file.
-/

namespace ApiContract

/-!
## Places of documents

The path of a file, absolute or relative, as a list of names. Empty names and single dots are dropped
when a path is read, except that a path which starts with two slashes and no more keeps the second one,
as an empty first name. Double dots stay until the path is resolved against a directory.
-/

/-- The path of a file or directory. -/
structure Place where
  absolute : Bool
  names : List String
deriving DecidableEq, Repr, Inhabited

namespace Place

/-- Whether a text starts with two slashes and no more. -/
def startsTwice : List Char → Bool
  | '/' :: '/' :: '/' :: _ => false
  | '/' :: '/' :: _ => true
  | _ => false

/-- Reads a path. -/
def ofText (text : String) : Place :=
  let names := (Reference.splitAtChar '/' text).filter fun n => n ≠ "" ∧ n ≠ "."
  { absolute := text.toList.head? = some '/'
    names := if startsTwice text.toList then "" :: names else names }

/-- Writes a path; the empty relative one is a dot. -/
def text (p : Place) : String :=
  if p.absolute then if p.names = [""] then "//" else "/" ++ "/".intercalate p.names
  else if p.names.isEmpty then "."
  else "/".intercalate p.names

/-- A path seen from a directory; an absolute one stays as it is. -/
def join (directory p : Place) : Place :=
  if p.absolute then p else { directory with names := directory.names ++ p.names }

/-- The directory that a path lies in. -/
def parent (p : Place) : Place :=
  { p with names := p.names.dropLast }

/-- The last name. -/
def name (p : Place) : String :=
  p.names.getLast?.getD ""

/-- Takes double dots away, with the names before them, and empty names. -/
def collapse : List String → List String → List String
  | done, [] => done.reverse
  | done, "" :: rest => collapse done rest
  | done, ".." :: rest => collapse (done.drop 1) rest
  | done, n :: rest => collapse (n :: done) rest

/-- The one absolute path of a file, seen from a directory. -/
def resolve (directory p : Place) : Place :=
  { absolute := true, names := collapse [] (directory.join p).names }

/-- The end of a file's name from its last dot on; a name that starts or ends with its only dot has
none. -/
def suffix (p : Place) : String :=
  let cs := p.name.toList
  let tail := cs.reverse.takeWhile (· != '.')
  if tail.length + 1 < cs.length && !tail.isEmpty then String.ofList ('.' :: tail.reverse) else ""

/-- Whether a name cannot be a file's because it has too many octets. -/
def isTooLong (name : String) : Bool :=
  255 < name.utf8ByteSize

/-- Whether a path holds a character that no path may hold. -/
def holdsNul (p : Place) : Bool :=
  p.names.any fun n => n.toList.contains '\x00'

end Place

/-- Documents by path. -/
abbrev Library := List (Place × Except Failure Tree)

namespace Library

/-- The document at a path. -/
def get (library : Library) (path : Place) : Except Failure Tree :=
  match library.find? fun d => d.1 = path with
  | some (_, document) => document
  | none => .error (.fileMissing path.text)

/-- Puts a document in front of the others. -/
def add (library : Library) (path : Place) (document : Tree) : Library :=
  (path, .ok document) :: library

/-- The documents that could be read. -/
def documents (library : Library) : List (Place × Tree) :=
  library.filterMap fun d => match d.2 with
    | .ok t => some (d.1, t)
    | .error _ => none

/-- The path that a reference of a document leads to: the document's own one if it names no other. -/
def pathOf (referrer : Place) (other : String) : Place :=
  if other.isEmpty then referrer else referrer.parent.resolve (.ofText other)

/-- The paths of all documents that the references of a document mention. -/
def mentioned (referrer : Place) (document : Tree) : List Place :=
  document.para {
    scalar _ := []
    list _ items := items.flatMap (·.2)
    map _ entries := entries.flatMap fun (key, t, inside) =>
      match key, t with
      | .text "$ref", .text reference =>
        match Reference.split reference with
        | .ok (other, _) => [pathOf referrer other]
        | .error _ => []
      | _, _ => inside
    set _ _ := []
    pair x y := x.2 ++ y.2
    back _ _ := [] }

/-- Where a reference leads: the document, the pointer without its slash, and the target. -/
structure Resolved where
  path : Place
  pointer : String
  target : Reference.Target

/-- Resolves a reference of the document at a path. -/
def resolve (library : Library) (referrer : Place) (reference : String) :
    Except Failure Resolved := do
  let (other, fragment) ← Reference.split reference
  let path := pathOf referrer other
  if path.holdsNul then throw .malformed
  let document ← library.get path
  let target ← Reference.walk reference document fragment
  return ⟨path, Reference.relative fragment, target⟩

end Library

end ApiContract
