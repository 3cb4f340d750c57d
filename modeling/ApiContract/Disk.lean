import ApiContract.Document.Library
import ApiContract.Document.Source
import ApiContract.Text.Utf8

/-!
# Disks

The files that a command sees and writes, as a value: contents by path, and the folders that were made
besides those that files lie in. Paths are resolved against a working folder.

A path is walked name by name, and every name before the last one must be a folder's; so a double dot
after a name that is no folder leads nowhere, though the same path resolves to a place.
-/

namespace ApiContract

/-- Files and folders, by their absolute paths, and the folder that relative paths start from. -/
structure Disk where
  home : Place
  files : List (Place × List UInt8)
  folders : List Place

namespace Disk

/-- Whether a place is a folder: the root, one that was made, or one that something lies in. -/
def isFolder (d : Disk) (p : Place) : Bool :=
  p.names.isEmpty || d.home.names.take p.names.length == p.names ||
    d.folders.any (fun f => f.names.take p.names.length == p.names) ||
    d.files.any fun f => p.names.length < f.1.names.length && f.1.names.take p.names.length == p.names

/-- Walks names from a folder. Every name but the last one must lead to a folder. -/
def walk (d : Disk) : List String → List String → Option Place
  | done, [] => some ⟨true, done⟩
  | done, n :: rest =>
    if n = "" then walk d done rest
    else if !d.isFolder ⟨true, done⟩ then none
    else walk d (if n = ".." then done.dropLast else done ++ [n]) rest

/-- Whether walking names from a folder stops at one that is too long to be looked for. -/
def stumbles (d : Disk) : List String → List String → Bool
  | _, [] => false
  | done, n :: rest =>
    if n = "" then stumbles d done rest
    else if !d.isFolder ⟨true, done⟩ then false
    else Place.isTooLong n || stumbles d (if n = ".." then done.dropLast else done ++ [n]) rest

/-- The place that a path leads to, if it can be walked. -/
def locate (d : Disk) (p : Place) : Option Place :=
  d.walk [] (d.home.join p).names

/-- The contents of the file at a path, if there is one. -/
def contents (d : Disk) (p : Place) : Option (List UInt8) :=
  (d.locate p).bind fun place => d.files.lookup place

/-- Refuses a path that cannot be looked for. -/
def ensureWalkable (d : Disk) (p : Place) : Except Failure Unit :=
  if d.stumbles [] (d.home.join p).names then .error .malformed else .ok ()

/-- Whether there is a file or a folder at a path. -/
def holds (d : Disk) (p : Place) : Bool :=
  (d.locate p).any fun place => d.isFolder place || (d.files.lookup place).isSome

/-- The paths of all files below the working folder, seen from there, in order. -/
def listing (d : Disk) : List String :=
  let below := d.files.filter fun f => d.home.names.isPrefixOf f.1.names
  (below.map fun f => (Place.mk false (f.1.names.drop d.home.names.length)).text).mergeSort
    fun a b => !(b < a)

/-- Adds a folder that is not there yet. -/
def addFolder (d : Disk) (place : Place) : Disk :=
  if d.isFolder place then d else { d with folders := d.folders ++ [place] }

/-- Walks names from a folder, and makes every folder on the way. Files cannot become folders, and not
every text can be a folder's name. -/
def makeFoldersFrom (d : Disk) : List String → List String → Except Failure Disk
  | _, [] => .ok d
  | done, n :: rest =>
    if n = "" then makeFoldersFrom d done rest
    else if n = ".." then makeFoldersFrom d done.dropLast rest
    else if Place.isTooLong n || (d.files.lookup ⟨true, done ++ [n]⟩).isSome then .error .malformed
    else makeFoldersFrom (d.addFolder ⟨true, done ++ [n]⟩) (done ++ [n]) rest

/-- Makes a folder and those on the way to it. -/
def makeFolder (d : Disk) (p : Place) : Except Failure Disk :=
  if p.holdsNul then .error .malformed else d.makeFoldersFrom [] (d.home.join p).names

/-- Puts contents in place of those of a file, or appends a new one. -/
def put (place : Place) (octets : List UInt8) :
    List (Place × List UInt8) → List (Place × List UInt8)
  | [] => [(place, octets)]
  | (p, o) :: rest => if p = place then (p, octets) :: rest else (p, o) :: put place octets rest

/-- The name under which the contents of a file are prepared, in the folder of the file, before they take
its name. -/
def draftName (name : String) : String :=
  "." ++ name ++ ".00000000.tmp"

/-- Writes a file, and makes the folder that it lies in. Folders cannot become files. -/
def write (d : Disk) (p : Place) (octets : List UInt8) : Except Failure Disk := do
  let d ← d.makeFolder p.parent
  let place := d.home.resolve p
  if d.isFolder place || Place.isTooLong (draftName p.name) then throw .malformed
  return { d with files := put place octets d.files }

/-! ## Text -/

/-- Every kind of line end becomes a line feed. -/
def plainLineEnds : List Char → List Char
  | '\r' :: '\n' :: rest => '\n' :: plainLineEnds rest
  | '\r' :: rest => '\n' :: plainLineEnds rest
  | c :: rest => c :: plainLineEnds rest
  | [] => []

/-- The text that octets encode. -/
def textOf (octets : List UInt8) : Option String :=
  (Text.Utf8.decode? octets).map fun s => String.ofList (plainLineEnds s.toList)

/-! ## Documents -/

/-- Reads the document at a path. -/
def document (d : Disk) (p : Place) : Except Failure Tree := do
  d.ensureWalkable p
  match d.contents p with
  | none => .error (.fileMissing p.text)
  | some octets =>
    match textOf octets with
    | none => .error (.unreadable p.text ((Text.Utf8.fault? octets).getD ""))
    | some text =>
      if Text.isAllBlank text then .error (.fileEmpty p.text)
      else Document.parse (Document.Format.ofSuffix? p.suffix) p.text text

/-- Every file as a document. -/
def library (d : Disk) : Library :=
  d.files.map fun f => (f.1, d.document f.1)

end Disk

/-! ## Sources -/

/-- Where a description comes from. -/
inductive Source where
  | input
  | address (text : String)
  | path (p : Place)
deriving DecidableEq, Repr

namespace Source

/-- Whether a text is an address on the network. -/
def isAddress (text : String) : Bool :=
  ["http://", "https://"].any fun scheme => scheme.toList.isPrefixOf text.toList

/-- Reads the name of a source: a dash is the standard input. -/
def ofText (text : String) : Source :=
  if text = "-" then .input
  else if isAddress text then .address text
  else .path (.ofText text)

/-- The place that a description's own references start from. A description without a file is taken to
lie in the working folder. -/
def place (home : Place) : Source → Place
  | .path p => home.resolve p
  | _ => home.resolve (.ofText "openapi.yaml")

/-- Reads the description. `input` is the text on the standard input. -/
def read (d : Disk) (input : String) : Source → Except Failure Tree
  | .path p => d.document p
  | .address a => .error (.unfetched a)
  | .input =>
    if Text.isAllBlank input then .error (.noInput "<stdin>")
    else Document.parse none "<stdin>" input

end Source

end ApiContract
