import ApiContract.Failure

/-!
# References

A reference is a text `document#/pointer`. The part before `#` names a document, relative to the one
that holds the reference; nothing there means that document itself. The pointer's segments are keys,
with `~1` for a slash and `~0` for a tilde, and lead through maps only. A target must be a map and no
reference itself.
-/

namespace ApiContract.Reference

/-- Splits a list at every element that satisfies the test. -/
def splitBy (p : Char → Bool) : List Char → List (List Char)
  | [] => [[]]
  | c :: rest =>
    if p c then [] :: splitBy p rest
    else match splitBy p rest with
      | part :: parts => (c :: part) :: parts
      | [] => [[c]]

/-- Splits a text at every occurrence of a character. -/
def splitAtChar (c : Char) (text : String) : List String :=
  (splitBy (· == c) text.toList).map String.ofList

/-- The place that a map refers to, if it is a reference: a map with a text under `$ref`. -/
def ofEntries? (entries : Entries) : Option String :=
  (entries.get? "$ref").bind Tree.text?

/-- The place that a tree refers to, if it is a reference. -/
def ofTree? (t : Tree) : Option String :=
  t.entries?.bind ofEntries?

/-- Whether a tree is a reference. -/
def isReference (t : Tree) : Bool :=
  (ofTree? t).isSome

/-- Splits a reference into the document's part and the pointer, which starts with a slash. -/
def split (reference : String) : Except Failure (String × String) :=
  match splitAtChar '#' reference with
  | [document, fragment] =>
    if fragment.toList.head? = some '/' then .ok (document, fragment)
    else .error (.fragmentNotRooted reference)
  | _ => .error (.notOneHash reference)

/-- Reads `~1` as a slash. -/
def unescapeSlash : List Char → List Char
  | '~' :: '1' :: rest => '/' :: unescapeSlash rest
  | c :: rest => c :: unescapeSlash rest
  | [] => []

/-- Reads `~0` as a tilde. -/
def unescapeTilde : List Char → List Char
  | '~' :: '0' :: rest => '~' :: unescapeTilde rest
  | c :: rest => c :: unescapeTilde rest
  | [] => []

/-- The key that a segment of a pointer stands for. -/
def unescape (segment : String) : String :=
  String.ofList (unescapeTilde (unescapeSlash segment.toList))

/-- Writes one character of a key in a pointer. -/
def escapeChar : Char → List Char
  | '~' => ['~', '0']
  | '/' => ['~', '1']
  | c => [c]

/-- The segment of a pointer that stands for a key. -/
def escape (key : String) : String :=
  String.ofList (key.toList.flatMap escapeChar)

/-- What a reference leads to: the map and its name, which is the last key on the way. -/
structure Target where
  entries : Entries
  anchor : Anchor
  name : String

/-- The target as a tree. -/
def Target.tree (t : Target) : Tree :=
  .map t.anchor t.entries

/-- Follows the segments of a pointer from a tree on. `walked` holds the segments so far and `name`
the last key. -/
def follow (reference : String) : List String → Tree → List String → String → Except Failure Target
  | [], .map anchor entries, _, name =>
    match ofEntries? entries with
    | some target => .error (.referenceToReference reference target)
    | none => .ok ⟨entries, anchor, name⟩
  | [], t, _, _ => .error (.targetNotMapping reference t.typeName)
  | segment :: rest, t, walked, _ =>
    let key := unescape segment
    match t.entries? with
    | none => .error (.stepNotMapping reference ("/".intercalate walked))
    | some entries =>
      match entries.get? key with
      | none => .error (.stepMissing reference key ("/".intercalate walked))
      | some child => follow reference rest child (walked ++ [segment]) key

/-- The segments of a pointer, which starts with a slash. -/
def segments (fragment : String) : List String :=
  splitAtChar '/' (String.ofList (fragment.toList.drop 1))

/-- Follows a pointer in a document. -/
def walk (reference : String) (document : Tree) (fragment : String) : Except Failure Target :=
  follow reference (segments fragment) document [] ""

/-- A pointer without its leading slash. -/
def relative (fragment : String) : String :=
  String.ofList (fragment.toList.drop 1)

/-- Resolves a reference into the document that holds it: the pointer without its slash, and the
target. -/
def resolveLocal (reference : String) (document : Tree) : Except Failure (String × Target) := do
  let (other, fragment) ← split reference
  if !other.isEmpty then throw (.foreignReference reference)
  return (relative fragment, ← walk reference document fragment)

/-- What a tree stands for: the target if it is a reference into the document, else itself. -/
def dereference (document t : Tree) : Except Failure Tree :=
  match ofTree? t with
  | some reference => do return (← resolveLocal reference document).2.tree
  | none => return t

/-- Where the named schemas of a document are. -/
def schemaTable : String := "#/components/schemas/"

/-- The name of the schema that a reference into the table of schemas stands for. -/
def schemaName (reference : String) : Except Failure String :=
  match schemaTable.toList.isPrefixOf? reference.toList with
  | none => .error (.notSchemaReference reference)
  | some name =>
    if name.isEmpty || name.contains '/' then .error (.namesNoSchema reference)
    else .ok (unescape (String.ofList name))

/-- The pointer to the table of schemas, with a slash at its end. -/
def tablePointer : String := "components/schemas/"

/-- The pointer to the schema of a name. -/
def schemaPointer (name : String) : String :=
  tablePointer ++ escape name

/-- The reference to the schema of a name. -/
def toSchema (name : String) : String :=
  schemaTable ++ escape name

/-- A map that is a reference. -/
def asTree (reference : String) : Tree :=
  .object [("$ref", .text reference)]

end ApiContract.Reference
