import ApiContract.Yaml.Style

/-!
# Pages

The text that has been written so far, with what the next piece depends on: the column, and whether a
space or only indentation stands before it. Scalars are folded where a line grows beyond the width of
the page.
-/

namespace ApiContract.Yaml

/-- What has been written. -/
structure Page where
  text : String
  column : Nat
  /-- Whether the next piece needs no space before it. -/
  spaced : Bool
  /-- Whether nothing but indentation and marks stand on the line. -/
  fresh : Bool

namespace Page

/-- An empty page. -/
def empty : Page := ⟨"", 0, true, true⟩

/-- The width of a page. -/
def width : Nat := 80

/-- Writes characters as they are. -/
def put (cs : List Char) (p : Page) : Page :=
  { p with text := p.text ++ String.ofList cs, column := p.column + cs.length }

/-- Ends the line. -/
def newLine (c : Char) (p : Page) : Page :=
  ⟨p.text.push c, 0, true, true⟩

/-- Goes to an indentation, on a new line unless nothing stands on this one. -/
def goTo (indent : Nat) (p : Page) : Page :=
  let p := if !p.fresh || indent < p.column || (p.column == indent && !p.spaced) then
    p.newLine '\n' else p
  if p.column < indent then
    { p.put (List.replicate (indent - p.column) ' ') with spaced := true }
  else p

/-- Writes a mark, after a space if it needs one. -/
def mark (m : String) (needsSpace : Bool) (spaced fresh : Bool) (p : Page) : Page :=
  let cs := if p.spaced || !needsSpace then m.toList else ' ' :: m.toList
  { p.put cs with spaced := spaced, fresh := p.fresh && fresh }

/-! ## Runs -/

/-- The kinds of characters that matter for folding. -/
inductive Run where
  | spaces (count : Nat)
  | ends (cs : List Char)
  | other (cs : List Char)

/-- Puts a character in front of runs. -/
def pushRun (c : Char) : List Run → List Run
  | .spaces n :: rest => if c == ' ' then .spaces (n + 1) :: rest else new (.spaces n :: rest)
  | .ends cs :: rest => if isLineEnd c then .ends (c :: cs) :: rest else new (.ends cs :: rest)
  | .other cs :: rest =>
    if c == ' ' || isLineEnd c then new (.other cs :: rest) else .other (c :: cs) :: rest
  | [] => new []
where
  /-- Starts a new run. -/
  new (rest : List Run) : List Run :=
    (if c == ' ' then .spaces 1 else if isLineEnd c then .ends [c] else .other [c]) :: rest

/-- Cuts characters into runs of spaces, of line ends and of others. -/
def runs (cs : List Char) : List Run :=
  cs.foldr pushRun []

/-! ## Plain scalars and single quotes -/

/-- The characters within single quotes: a quote is written twice. -/
def quoted (cs : List Char) : List Char :=
  cs.flatMap fun c => if c == '\'' then ['\'', '\''] else [c]

/-- Line ends: a line feed that comes first is written twice. -/
def putEnds (cs : List Char) (p : Page) : Page :=
  let p := if cs.head? == some '\n' then p.newLine '\n' else p
  cs.foldl (fun p c => p.newLine c) p

/-- Writes the runs of a scalar. A single space between two runs becomes a line end where the line is too
long; `first` says that nothing has been written yet, and `edges` that this is no reason against it. -/
def putRuns (indent : Nat) (split edges : Bool) (escape : List Char → List Char) :
    Bool → List Run → Page → Page
  | _, [], p => p
  | first, .spaces n :: rest, p =>
    let inner := edges || (!first && !rest.isEmpty)
    let p := if n == 1 && width < p.column && split && inner then
      { p.goTo indent with spaced := false, fresh := false }
    else p.put (List.replicate n ' ')
    putRuns indent split edges escape false rest p
  | _, .ends cs :: rest, p =>
    putRuns indent split edges escape false rest ((p.putEnds cs).goTo indent)
  | _, .other cs :: rest, p => putRuns indent split edges escape false rest (p.put (escape cs))

/-- A plain scalar. -/
def plain (indent : Nat) (split : Bool) (text : String) (p : Page) : Page :=
  if text.isEmpty then p
  else
    let p := if p.spaced then p else p.put [' ']
    putRuns indent split true id true (runs text.toList) { p with spaced := false, fresh := false }

/-- A scalar in single quotes. -/
def single (indent : Nat) (split : Bool) (text : String) (p : Page) : Page :=
  let p := p.mark "'" true false false
  (putRuns indent split false quoted true (runs text.toList) p).mark "'" false false false

/-! ## Double quotes -/

/-- The short escapes. -/
def shortEscape? (c : Char) : Option Char :=
  [(0, '0'), (7, 'a'), (8, 'b'), (9, 't'), (10, 'n'), (11, 'v'), (12, 'f'), (13, 'r'), (27, 'e'),
    (34, '"'), (92, '\\'), (0x85, 'N'), (0xA0, '_'), (0x2028, 'L'), (0x2029, 'P')].lookup c.toNat

/-- A hexadecimal number in capitals, padded with zeros to a width. -/
def hexCapital (width n : Nat) : List Char :=
  (Text.hexPadded width n).map Char.toUpper

/-- A character that double quotes keep as it is. -/
def isKept (c : Char) : Bool :=
  let n := c.toNat
  c != '"' && c != '\\' && n != 0x2028 && n != 0x2029 && n != 0xFEFF &&
    ((0x20 ≤ n && n ≤ 0x7E) || (0xA0 ≤ n && n ≤ 0xD7FF) || (0xE000 ≤ n && n ≤ 0xFFFD))

/-- The escape of a character. -/
def escapeOf (c : Char) : List Char :=
  match shortEscape? c with
  | some e => ['\\', e]
  | none =>
    if c.toNat ≤ 0xFF then '\\' :: 'x' :: hexCapital 2 c.toNat
    else if c.toNat ≤ 0xFFFF then '\\' :: 'u' :: hexCapital 4 c.toNat
    else '\\' :: 'U' :: hexCapital 8 c.toNat

/-- Writes the characters of a scalar in double quotes; `pending` holds those that are to be written, in
reverse, and `index` is the place of the next one among all `length`. A line that is too long ends with a
backslash, behind an escape or before a space. -/
def putDouble (indent length : Nat) (split : Bool) : Nat → List Char → List Char → Page → Page
  | _, pending, [], p => p.put pending.reverse
  | index, pending, c :: rest, p =>
    let (pending, p) := if isKept c then (pending, p)
      else ([], (p.put pending.reverse).put (escapeOf c))
    let ready := !isKept c || c == ' ' || pending.isEmpty
    let fold := 0 < index && index + 1 < length && ready && split &&
      width < (if isKept c then p.column + pending.length else p.column - 1)
    let next := if isKept c then some c else none
    if fold then
      let p := { (p.put (pending.reverse ++ ['\\'])).goTo indent with spaced := false, fresh := false }
      let following := next.or rest.head?
      let p := if following == some ' ' then p.put ['\\'] else p
      putDouble indent length split (index + 1) next.toList rest p
    else putDouble indent length split (index + 1) (next.toList ++ pending) rest p

/-- A scalar in double quotes. -/
def double (indent : Nat) (split : Bool) (text : String) (p : Page) : Page :=
  let p := p.mark "\"" true false false
  (putDouble indent text.length split 0 [] text.toList p).mark "\"" false false false

/-! ## Literal blocks -/

/-- The marks of a block: an indentation before a leading space, and how the text ends. -/
def blockMarks (cs : List Char) : String :=
  let loose (c : Option Char) := c.any fun c => c == ' ' || isLineEnd c
  let final := match cs.reverse with
    | a :: rest => if !isLineEnd a then "-" else if rest.head?.all isLineEnd then "+" else ""
    | [] => ""
  (if loose cs.head? then "2" else "") ++ final

/-- The runs of a block, line by line. -/
def putBlock (indent : Nat) : List Char → Page → Page
  | [], p => p
  | c :: rest, p =>
    if isLineEnd c then putBlock indent rest (p.newLine c)
    else
      let p := if p.column == 0 && p.fresh then p.goTo indent else p
      putBlock indent rest { p.put [c] with fresh := false }

/-- A literal block. -/
def literal (indent : Nat) (text : String) (p : Page) : Page :=
  putBlock indent text.toList ((p.mark ("|" ++ blockMarks text.toList) true false false).newLine '\n')

/-- Writes a scalar with its tag. -/
def scalar (indent : Nat) (simpleKey : Bool) (w : Written) (p : Page) : Page :=
  let style := w.style simpleKey
  let p := match w.writtenTag style with
    | some tag => p.mark tag true false false
    | none => p
  match style with
  | .plain => p.plain indent (!simpleKey) w.text
  | .single => p.single indent (!simpleKey) w.text
  | .double => p.double indent (!simpleKey) w.text
  | .literal => p.literal indent w.text

end Page

end ApiContract.Yaml
