import ApiContract.Decimal.Reading
import ApiContract.Yaml.Fault

/-!
# Lexemes of YAML

How the texts of scalars are written: plain, in quotes, or as a block of lines. Every reader takes the
characters from the first one of the text on and gives the text and what follows.

Line breaks between words of a plain or quoted text fold: one break is a space, and each further one
stands for itself.
-/

namespace ApiContract.Yaml

/-! ## Characters -/

/-- A character that a document may hold. -/
def isAllowed (c : Char) : Bool :=
  Text.inRanges [(9, 10), (13, 13), (0x20, 0x7E), (0x85, 0x85), (0xA0, 0xD7FF), (0xE000, 0xFFFD),
    (0x10000, 0x10FFFF)] c.toNat

/-- A space or a tab. -/
def isSpace (c : Char) : Bool :=
  c == ' ' || c == '\t'

/-- Whether the text ends here or a space, a tab or a break is next. -/
def atGap : List Char → Bool
  | [] => true
  | c :: _ => isSpace c || isBreak c

/-- Whether the text ends here or a space or a break is next. -/
def atSpace : List Char → Bool
  | [] => true
  | c :: _ => c == ' ' || isBreak c

/-- Whether the line ends here. -/
def atLineEnd : List Char → Bool
  | [] => true
  | c :: _ => isBreak c

/-- Whether the mark of a document's start or end stands here. -/
def atMark : List Char → Bool
  | '-' :: '-' :: '-' :: rest => atGap rest
  | '.' :: '.' :: '.' :: rest => atGap rest
  | _ => false

/-- What a break stands for: a line feed, except for the two separators of Unicode. -/
def breakChar (c : Char) : Char :=
  if c.toNat == 0x2028 || c.toNat == 0x2029 then c else '\n'

/-- Splits off a line break, if one is next. -/
def lineBreak? : List Char → Option (Char × List Char)
  | '\r' :: '\n' :: rest => some ('\n', rest)
  | c :: rest => if isBreak c then some (breakChar c, rest) else none
  | [] => none

/-- A break and those after it, folded. -/
def fold (first : Char) (others : List Char) : List Char :=
  (if first != '\n' then [first] else if others.isEmpty then [' '] else []) ++ others

/-! ## Plain scalars -/

/-- What stands between two words of a plain text: the characters that it means, what follows,
whether it holds a break, and the column of what follows the last break. -/
structure Gap where
  chars : List Char
  rest : List Char
  broke : Bool
  column : Nat

/-- Whether a colon here ends a plain word. -/
def endsAtColon (inFlow : Bool) (rest : List Char) : Bool :=
  atGap rest || (inFlow && rest.head?.any fun c => c ∈ [',', '[', ']', '\x7b', '\x7d'])

/-- A plain word and what follows. -/
def plainWord (inFlow : Bool) : List Char → List Char × List Char
  | [] => ([], [])
  | c :: rest =>
    if isSpace c || isBreak c || (c == ':' && endsAtColon inFlow rest) ||
        (inFlow && c ∈ [',', '?', '[', ']', '\x7b', '\x7d']) then ([], c :: rest)
    else
      let (word, rest) := plainWord inFlow rest
      (c :: word, rest)

/-- The breaks from here on, spaces between them skipped. Nothing counts if a document's mark follows
one of them. -/
def breaksFrom (done : List Char) (column : Nat) : List Char → Option (List Char) × List Char × Nat
  | [] => (some done.reverse, [], column)
  | ' ' :: rest => breaksFrom done (column + 1) rest
  | '\r' :: '\n' :: rest => if atMark rest then (none, rest, 0) else breaksFrom ('\n' :: done) 0 rest
  | c :: rest =>
    if !isBreak c then (some done.reverse, c :: rest, column)
    else if atMark rest then (none, rest, 0)
    else breaksFrom (breakChar c :: done) 0 rest

/-- The gap after a plain word. -/
def plainGap (cs : List Char) : Gap :=
  let spaces := cs.takeWhile (· == ' ')
  let rest := cs.drop spaces.length
  match lineBreak? rest with
  | none => ⟨spaces, rest, false, 0⟩
  | some (first, rest) =>
    if atMark rest then ⟨[], rest, true, 0⟩
    else match breaksFrom [] 0 rest with
      | (none, rest, column) => ⟨[], rest, true, column⟩
      | (some others, rest, column) => ⟨fold first others, rest, true, column⟩

/-- A text, what follows it, and whether a break was skipped after it. -/
structure Lexeme where
  chars : List Char
  rest : List Char
  broke : Bool

/-- Words from here on, after a gap. Outside brackets the text ends before a line that is indented
less than `indent`. -/
def plainFrom (inFlow : Bool) (indent : Int) : Nat → Gap → Lexeme
  | 0, gap => ⟨[], gap.rest, gap.broke⟩
  | n + 1, gap =>
    let (word, rest) := plainWord inFlow gap.rest
    if word.isEmpty || gap.rest.head? == some '#' then ⟨[], gap.rest, gap.broke⟩
    else
      let next := plainGap rest
      let more := if next.chars.isEmpty || (!inFlow && next.broke && next.column < indent)
        then ⟨[], next.rest, next.broke⟩ else plainFrom inFlow indent n next
      { more with chars := gap.chars ++ word ++ more.chars }

/-- A plain scalar. -/
def plain (inFlow : Bool) (indent : Int) (cs : List Char) : Lexeme :=
  plainFrom inFlow indent cs.length ⟨[], cs, false, 0⟩

/-! ## Quoted scalars -/

/-- The escapes of one character. -/
def shortEscapes : List (Char × Nat) := [
  ('0', 0), ('a', 7), ('b', 8), ('t', 9), ('\t', 9), ('n', 10), ('v', 11), ('f', 12), ('r', 13),
  ('e', 27), (' ', 32), ('"', 34), ('\\', 92), ('/', 47), ('N', 0x85), ('_', 0xA0), ('L', 0x2028),
  ('P', 0x2029)]

/-- The number of hexadecimal digits after an escape. -/
def escapeWidth : Char → Option Nat
  | 'x' => some 2
  | 'u' => some 4
  | 'U' => some 8
  | _ => none

/-- A problem with the next character, inside of something. -/
def refuse {α : Type} (inside : Inside) (problem : Problem) (cs : List Char) : Except Fault α :=
  .error (.broken (some inside) problem cs.length)

/-- Something else than the next character was expected. -/
def expectedAt {α : Type} (inside : Inside) (what : String) (cs : List Char) : Except Fault α :=
  refuse inside (.expected what (foundText cs)) cs

/-- Whether a character is a hexadecimal digit. -/
def isHexDigit (c : Char) : Bool :=
  c.isDigit || ('a' ≤ c && c ≤ 'f') || ('A' ≤ c && c ≤ 'F')

/-- A number of hexadecimal digits, and what follows. -/
def hexDigits (inside : Inside) (what : String) (width : Nat) (cs : List Char) :
    Except Fault (Nat × List Char) :=
  let ds := (cs.take width).takeWhile isHexDigit
  match Decimal.digits? 16 ds with
  | some (n, _) =>
    if ds.length = width then .ok (n, cs.drop width)
    else refuse inside (.expected what (foundText (cs.drop ds.length))) cs
  | none => expectedAt inside what cs

/-- The character of an escape by number. -/
def escaped (n : Nat) : Except Fault Char :=
  if n > 0x10FFFF then .error .value
  else if 0xD800 ≤ n ∧ n ≤ 0xDFFF then .ok '\uFFFD'
  else .ok (Char.ofNat n)

/-- A scalar in quotes as a whole. -/
def Inside.quoted (left : Nat) : Inside := ⟨"while scanning a quoted scalar", left⟩

/-- The empty lines from the start of a line on, and what follows the spaces after them. A document's
mark is refused. -/
def quotedBreaks (began : Nat) : Nat → List Char → Except Fault (List Char × List Char)
  | 0, _ => .error .value
  | n + 1, cs =>
    if atMark cs then refuse (.quoted began) .separatorInside cs
    else
      let cs := cs.dropWhile isSpace
      match lineBreak? cs with
      | none => .ok ([], cs)
      | some (b, rest) => do
        let (others, rest) ← quotedBreaks began n rest
        return (b :: others, rest)

/-- Spaces and breaks inside quotes. -/
def quotedGap (began : Nat) (cs : List Char) : Except Fault (List Char × List Char) := do
  let spaces := cs.takeWhile isSpace
  let rest := cs.drop spaces.length
  match lineBreak? rest with
  | some (first, rest) =>
    let (others, rest) ← quotedBreaks began (rest.length + 1) rest
    return (fold first others, rest)
  | none => if rest.isEmpty then refuse (.quoted began) .textEnds rest else return (spaces, rest)

/-- What follows a backslash between double quotes. -/
def quotedEscape (began : Nat) (cs : List Char) : Except Fault (List Char × List Char) :=
  let inside : Inside := ⟨"while scanning a double-quoted scalar", began⟩
  match cs with
  | [] => refuse inside (.unknownEscape (foundText cs)) cs
  | c :: rest =>
    match shortEscapes.lookup c, escapeWidth c with
    | some n, _ => .ok ([Char.ofNat n], rest)
    | none, some width => do
      let what := "escape sequence of " ++ toString width ++ " hexadecimal numbers"
      let (n, rest) ← hexDigits inside what width rest
      return ([← escaped n], rest)
    | none, none =>
      match lineBreak? (c :: rest) with
      | some (_, rest) => quotedBreaks began (rest.length + 1) rest
      | none => refuse inside (.unknownEscape (foundText cs)) cs

/-- The text up to the closing quote, and what follows it. -/
def quotedFrom (double : Bool) (began : Nat) : Nat → List Char → Except Fault (List Char × List Char)
  | 0, _ => .error .value
  | _ + 1, [] => refuse (.quoted began) .textEnds []
  | n + 1, c :: rest => do
    if isSpace c || isBreak c then
      let (gap, rest) ← quotedGap began (c :: rest)
      let (more, rest) ← quotedFrom double began n rest
      return (gap ++ more, rest)
    else if c == '"' && double then return ([], rest)
    else if c == '\\' && double then
      let (cs, rest) ← quotedEscape began rest
      let (more, rest) ← quotedFrom double began n rest
      return (cs ++ more, rest)
    else if c == '\'' && !double then
      match rest with
      | '\'' :: rest =>
        let (more, rest) ← quotedFrom double began n rest
        return ('\'' :: more, rest)
      | rest => return ([], rest)
    else
      let (more, rest) ← quotedFrom double began n rest
      return (c :: more, rest)

/-- A scalar in quotes, from after the opening quote on. -/
def quoted (double : Bool) (cs : List Char) : Except Fault (List Char × List Char) :=
  quotedFrom double (cs.length + 1) (cs.length + 1) cs

/-! ## Block scalars -/

/-- How the end of a block counts: every break, none, or one. -/
inductive Chomp where
  | keep
  | strip
  | clip
deriving DecidableEq, Repr

/-- The sign of a block's header, if one is next. -/
def chomp? : List Char → Option (Chomp × List Char)
  | '+' :: rest => some (.keep, rest)
  | '-' :: rest => some (.strip, rest)
  | _ => none

/-- The indentation digit of a block's header, if one is next; a zero is refused. -/
def indentation? (inside : Inside) (cs : List Char) : Except Fault (Option Nat × List Char) :=
  match cs with
  | c :: rest =>
    if c == '0' then refuse inside (.expected "indentation indicator in the range 1-9" "0") cs
    else if c.isDigit then .ok (some (c.toNat - '0'.toNat), rest)
    else .ok (none, cs)
  | [] => .ok (none, [])

/-- The end of a line: spaces, perhaps a comment, and a break, which is skipped. -/
def lineTail (inside : Inside) (cs : List Char) : Except Fault (List Char) :=
  let cs := cs.dropWhile (· == ' ')
  let cs := if cs.head? == some '#' then cs.dropWhile (!isBreak ·) else cs
  if atLineEnd cs then .ok (((lineBreak? cs).map (·.2)).getD cs)
  else expectedAt inside "a comment or a line break" cs

/-- The header of a block, from after its mark on. -/
def blockHeader (cs : List Char) : Except Fault (Chomp × Option Nat × List Char) := do
  let inside : Inside := ⟨"while scanning a block scalar", some (cs.length + 1)⟩
  let (chomp, increment, cs) ← (match chomp? cs with
    | some (chomp, cs) => do
      let (increment, cs) ← indentation? inside cs
      return (chomp, increment, cs)
    | none => do
      let (increment, cs) ← indentation? inside cs
      let (chomp, cs) := match increment with
        | some _ => (chomp? cs).getD (.clip, cs)
        | none => (.clip, cs)
      return (chomp, increment, cs) : Except Fault (Chomp × Option Nat × List Char))
  if !atSpace cs then expectedAt inside "chomping or indentation indicators" cs
  return (chomp, increment, ← lineTail inside cs)

/-- Empty lines, what follows them, and its column. -/
structure BlockGap where
  breaks : List Char
  rest : List Char
  column : Nat

/-- The empty lines before a line that is indented as far as the block. -/
def blockGap (indent column : Nat) : List Char → BlockGap
  | [] => ⟨[], [], column⟩
  | ' ' :: rest => if column < indent then blockGap indent (column + 1) rest else ⟨[], ' ' :: rest, column⟩
  | '\r' :: '\n' :: rest =>
    let g := blockGap indent 0 rest
    { g with breaks := '\n' :: g.breaks }
  | c :: rest =>
    if isBreak c then
      let g := blockGap indent 0 rest
      { g with breaks := breakChar c :: g.breaks }
    else ⟨[], c :: rest, column⟩

/-- The empty lines at the start of a block whose indentation is not given, and the most spaces that
one of the lines starts with. -/
def blockLead (deepest column : Nat) : List Char → Nat × BlockGap
  | [] => (deepest, ⟨[], [], column⟩)
  | ' ' :: rest => blockLead (max deepest (column + 1)) (column + 1) rest
  | '\r' :: '\n' :: rest =>
    let (d, g) := blockLead deepest 0 rest
    (d, { g with breaks := '\n' :: g.breaks })
  | c :: rest =>
    if isBreak c then
      let (d, g) := blockLead deepest 0 rest
      (d, { g with breaks := breakChar c :: g.breaks })
    else (deepest, ⟨[], c :: rest, column⟩)

/-- Whether another line of the block follows. -/
def BlockGap.goesOn (indent : Nat) (g : BlockGap) : Bool :=
  g.column == indent && !g.rest.isEmpty

/-- The lines of a block: the text, the break after the last line, and the gap at the end. -/
def blockLines (folded : Bool) (indent : Nat) : Nat → BlockGap → List Char × List Char × BlockGap
  | 0, g => ([], [], g)
  | n + 1, g =>
    if !g.goesOn indent then ([], [], g)
    else
      let line := g.rest.takeWhile (!isBreak ·)
      let (ending, rest) := match lineBreak? (g.rest.drop line.length) with
        | some (b, rest) => ([b], rest)
        | none => ([], [])
      let next := blockGap indent 0 rest
      if !next.goesOn indent then (g.breaks ++ line, ending, next)
      else
        let starts (cs : List Char) := !cs.head?.any isSpace
        let joint :=
          if folded && ending == ['\n'] && starts g.rest && starts next.rest then
            if next.breaks.isEmpty then [' '] else []
          else ending
        let (more, last, stop) := blockLines folded indent n next
        (g.breaks ++ line ++ joint ++ more, last, stop)

/-- A block scalar, from after its mark on, inside something indented by `indent`. -/
def block (folded : Bool) (indent : Int) (cs : List Char) : Except Fault (List Char × List Char) := do
  let (chomp, increment, rest) ← blockHeader cs
  let least := (max (indent + 1) 1).toNat
  let (indent, gap) := match increment with
    | none =>
      let (deepest, gap) := blockLead 0 0 rest
      (max least deepest, gap)
    | some n =>
      let indent := least + n - 1
      (indent, blockGap indent 0 rest)
  let (text, last, stop) := blockLines folded indent (rest.length + 1) gap
  let tail := match chomp with
    | .strip => []
    | .clip => last
    | .keep => last ++ stop.breaks
  return (text ++ tail, stop.rest)

end ApiContract.Yaml
