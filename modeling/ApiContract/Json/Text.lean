import ApiContract.Tree.Basic

/-!
# JSON text

Reads a document from JSON text. Beyond the standard, `NaN`, `Infinity` and `-Infinity` are numbers.
A repeated key keeps its first place and its last value. The reader works in two steps: the text is
cut into tokens, each with its place, and an automaton with a stack of open containers takes them one
by one, so that the first token it cannot take is the error.
-/

namespace ApiContract.Json

/-- What is wrong with a text, at a place counted in characters. -/
inductive TextFault where
  | expectingValue
  | expectingName
  | expectingColon
  | expectingComma
  | extraData
  | byteOrderMark
  | unterminatedString
  | invalidControl
  | invalidEscape
  | invalidUnicodeEscape
  | tooManyDigits
  | tooDeep
deriving DecidableEq, Repr

/-- A fault and its place. -/
structure TextError where
  fault : TextFault
  position : Nat
deriving DecidableEq, Repr

/-- The wording of a fault. -/
def TextFault.message : TextFault → String
  | .expectingValue => "Expecting value"
  | .expectingName => "Expecting property name enclosed in double quotes"
  | .expectingColon => "Expecting ':' delimiter"
  | .expectingComma => "Expecting ',' delimiter"
  | .extraData => "Extra data"
  | .byteOrderMark => "Unexpected UTF-8 BOM (decode using utf-8-sig)"
  | .unterminatedString => "Unterminated string starting at"
  | .invalidControl => "Invalid control character at"
  | .invalidEscape => "Invalid \\escape"
  | .invalidUnicodeEscape => "Invalid \\uXXXX escape"
  | .tooManyDigits => "Exceeds the limit for integer string conversion"
  | .tooDeep => "Exceeds the limit for nested values"

/-- Whether a text breaks a limit of reading and not a rule of the format. -/
def TextFault.isLimit : TextFault → Bool
  | .tooManyDigits | .tooDeep => true
  | _ => false

/-- The fault with its line, column and character, the first two counted from one. -/
def TextError.message (text : String) (e : TextError) : String :=
  let before := text.toList.take e.position
  let line := before.count '\n' + 1
  let column := (before.reverse.takeWhile (· != '\n')).length + 1
  e.fault.message ++ ": line " ++ toString line ++ " column " ++ toString column ++ " (char " ++
    toString e.position ++ ")"

/-! ## Tokens -/

/-- The parts that a text is cut into. A fault stands for a string that is broken, `junk` for
characters that start no token. -/
inductive Token where
  | openMap
  | closeMap
  | openList
  | closeList
  | colon
  | comma
  | scalar (s : Scalar)
  | fault (e : TextError)
  | junk
deriving DecidableEq

/-- The value of a hexadecimal digit. -/
def hexDigit? (c : Char) : Option Nat :=
  if c.isDigit then some (c.toNat - '0'.toNat)
  else if 'a' ≤ c && c ≤ 'f' then some (c.toNat - 'a'.toNat + 10)
  else if 'A' ≤ c && c ≤ 'F' then some (c.toNat - 'A'.toNat + 10)
  else none

/-- The number that four hexadecimal digits spell. -/
def hexFour? (a b c d : Char) : Option Nat := do
  return (((← hexDigit? a) * 16 + (← hexDigit? b)) * 16 + (← hexDigit? c)) * 16 + (← hexDigit? d)

/-- The first half of a pair of code units. -/
def isHighSurrogate (n : Nat) : Bool := 0xD800 ≤ n && n ≤ 0xDBFF

/-- The second half of a pair of code units. -/
def isLowSurrogate (n : Nat) : Bool := 0xDC00 ≤ n && n ≤ 0xDFFF

/-- The character of a code point; a half of a pair has none and is replaced. -/
def charOf (n : Nat) : Char :=
  if isHighSurrogate n || isLowSurrogate n then '\ufffd' else Char.ofNat n

/-- The character of a pair of code units. -/
def charOfPair (high low : Nat) : Char :=
  Char.ofNat (0x10000 + (high - 0xD800) * 1024 + (low - 0xDC00))

/-- The character that a one-letter escape stands for. -/
def shortEscape? : Char → Option Char
  | '"' => some '"'
  | '\\' => some '\\'
  | '/' => some '/'
  | 'b' => some '\x08'
  | 'f' => some '\x0c'
  | 'n' => some '\n'
  | 'r' => some '\r'
  | 't' => some '\t'
  | _ => none

/-- The characters of a string so far, in reverse, and the first half of a pair that still waits for
its second half. -/
structure StringSoFar where
  done : List Char
  high : Option Nat

/-- The characters so far, a half without its partner replaced. -/
def StringSoFar.chars (s : StringSoFar) : List Char :=
  match s.high with
  | some n => charOf n :: s.done
  | none => s.done

/-- Adds a character. -/
def StringSoFar.push (s : StringSoFar) (c : Char) : StringSoFar :=
  ⟨c :: s.chars, none⟩

/-- Adds a code unit; two halves in a row make one character. -/
def StringSoFar.pushUnit (s : StringSoFar) (n : Nat) : StringSoFar :=
  match s.high with
  | some high => if isLowSurrogate n then ⟨charOfPair high n :: s.done, none⟩
    else if isHighSurrogate n then ⟨s.chars, some n⟩
    else s.push (charOf n)
  | none => if isHighSurrogate n then ⟨s.done, some n⟩ else s.push (charOf n)

/-- The inside of a string from a place on, up to its closing quote: the characters in reverse and
the place after the quote. -/
def scanString (start : Nat) : Nat → StringSoFar → List Char → Except TextError (List Char × Nat)
  | _, _, [] => .error ⟨.unterminatedString, start⟩
  | place, s, '"' :: _ => .ok (s.chars, place + 1)
  | _, _, ['\\'] => .error ⟨.unterminatedString, start⟩
  | place, s, '\\' :: 'u' :: a :: b :: c :: d :: next :: rest =>
    match hexFour? a b c d with
    | some n => scanString start (place + 6) (s.pushUnit n) (next :: rest)
    | none => .error ⟨.invalidUnicodeEscape, place + 1⟩
  | place, _, '\\' :: 'u' :: _ => .error ⟨.invalidUnicodeEscape, place + 1⟩
  | place, s, '\\' :: c :: rest =>
    match shortEscape? c with
    | some d => scanString start (place + 2) (s.push d) rest
    | none => .error ⟨.invalidEscape, place⟩
  | place, s, c :: rest =>
    if c.toNat < 32 then .error ⟨.invalidControl, place⟩
    else scanString start (place + 1) (s.push c) rest

/-- The value of a run of ASCII digits. -/
def digitsValue (cs : List Char) : Nat :=
  cs.foldl (fun n c => 10 * n + (c.toNat - '0'.toNat)) 0

/-- The whole part of a number: a zero, or digits that start with none. -/
def wholeDigits (cs : List Char) : List Char :=
  match cs with
  | '0' :: _ => ['0']
  | _ => cs.takeWhile Char.isDigit

/-- The digits after a point, if a point with a digit follows. -/
def fractionDigits : List Char → List Char
  | '.' :: rest => rest.takeWhile Char.isDigit
  | _ => []

/-- The sign and the digits of an exponent, if one with a digit follows, and its length. -/
def exponentPart (cs : List Char) : Option (Bool × List Char × Nat) :=
  match cs with
  | e :: rest =>
    if e == 'e' || e == 'E' then
      let (negative, sign, digits) := match rest with
        | '-' :: ds => (true, 1, ds.takeWhile Char.isDigit)
        | '+' :: ds => (false, 1, ds.takeWhile Char.isDigit)
        | ds => (false, 0, ds.takeWhile Char.isDigit)
      if digits.isEmpty then none else some (negative, digits, 1 + sign + digits.length)
    else none
  | [] => none

/-- The number of digits that a whole number may have. -/
def digitLimit : Nat := 4300

/-- The number that a text starts with, without its sign, and its length. -/
def scanNumber (negative : Bool) (cs : List Char) : Option (Token × Nat) :=
  let whole := wholeDigits cs
  if whole.isEmpty then none
  else
    let fraction := fractionDigits (cs.drop whole.length)
    let pointed := whole.length + if fraction.isEmpty then 0 else fraction.length + 1
    match fraction, exponentPart (cs.drop pointed) with
    | [], none =>
      let n : Int := digitsValue whole
      if whole.length > digitLimit then some (.fault ⟨.tooManyDigits, 0⟩, pointed)
      else some (.scalar (.int (if negative then -n else n)), pointed)
    | fraction, exponent =>
      let power : Int := match exponent with
        | some (true, ds, _) => -(digitsValue ds : Int)
        | some (false, ds, _) => digitsValue ds
        | none => 0
      let x := Decimal.nearest (digitsValue (whole ++ fraction)) (power - fraction.length)
      let length := pointed + ((exponent.map (·.2.2)).getD 0)
      some (.scalar (.float (if negative then -x else x)), length)

/-- The words that are values. -/
def wordValues : List (List Char × Scalar) := [
  ("null".toList, .null), ("true".toList, .bool true), ("false".toList, .bool false),
  ("NaN".toList, .float (Float.ofBits 0x7FF8000000000000)),
  ("Infinity".toList, .float (Float.ofBits 0x7FF0000000000000)),
  ("-Infinity".toList, .float (Float.ofBits 0xFFF0000000000000))]

/-- The token that a text starts with, at a place, and the number of its characters less one. -/
def scanToken (position : Nat) (c : Char) (rest : List Char) : Token × Nat :=
  match c with
  | '\x7b' => (.openMap, 0)
  | '\x7d' => (.closeMap, 0)
  | '[' => (.openList, 0)
  | ']' => (.closeList, 0)
  | ':' => (.colon, 0)
  | ',' => (.comma, 0)
  | '"' =>
    match scanString position (position + 1) ⟨[], none⟩ rest with
    | .ok (cs, stop) => (.scalar (.text (String.ofList cs.reverse)), stop - position - 1)
    | .error e => (.fault e, 0)
  | _ =>
    match wordValues.find? fun w => w.1.isPrefixOf (c :: rest) with
    | some (w, s) => (.scalar s, w.length - 1)
    | none =>
      if c == '-' then
        match scanNumber true rest with
        | some (t, n) => (t, n)
        | none => (.junk, 0)
      else
        match scanNumber false (c :: rest) with
        | some (t, n) => (t, n - 1)
        | none => (.junk, 0)

/-- The characters that may stand between tokens. -/
def isSpace (c : Char) : Bool :=
  c == ' ' || c == '\t' || c == '\n' || c == '\r'

/-- Cuts a text into tokens with their places. -/
def tokensFrom (position : Nat) (cs : List Char) : List (Token × Nat) :=
  match cs with
  | [] => []
  | c :: rest =>
    if isSpace c then tokensFrom (position + 1) rest
    else
      let (token, n) := scanToken position c rest
      (token, position) :: tokensFrom (position + 1 + n) (rest.drop n)
termination_by cs.length
decreasing_by all_goals simp_all; try omega

/-! ## The automaton -/

/-- A container that is open: a list with the items so far in reverse, or a map with the entries so
far and the key that awaits its value. -/
inductive Frame where
  | list (items : List Tree)
  | map (entries : Entries) (key : String)

/-- What may come next. -/
inductive Expected where
  | value
  | itemOrEnd
  | nameOrEnd (entries : Entries)
  | name (entries : Entries)
  | colon
  | separator (last : Tree)

/-- The stack of open containers, innermost first, and what may come next. -/
structure Reader where
  frames : List Frame
  expected : Expected

namespace Reader

/-- A value is complete: it waits for a separator. -/
def complete (frames : List Frame) (t : Tree) : Except TextFault Reader :=
  .ok ⟨frames, .separator t⟩

/-- The number of containers that may be open within each other. -/
def depthLimit : Nat := 990

/-- A container opens within others. -/
def openWithin (frames : List Frame) (opened : Reader) : Except TextFault Reader :=
  if frames.length < depthLimit then .ok opened else .error .tooDeep

/-- Takes a token where a value may start. -/
def takeValue (frames : List Frame) : Token → Except TextFault Reader
  | .scalar s => complete frames (.scalar s)
  | .openList => openWithin frames ⟨.list [] :: frames, .itemOrEnd⟩
  | .openMap => openWithin frames ⟨frames, .nameOrEnd []⟩
  | .fault e => .error e.fault
  | _ => .error .expectingValue

/-- Takes a token where a name must start. -/
def takeName (frames : List Frame) (entries : Entries) : Token → Except TextFault Reader
  | .scalar (.text s) => .ok ⟨.map entries s :: frames, .colon⟩
  | .fault e => .error e.fault
  | _ => .error .expectingName

/-- Takes one token. -/
def step (r : Reader) (token : Token) : Except TextFault Reader :=
  match r.expected, r.frames with
  | .value, frames => takeValue frames token
  | .itemOrEnd, frames =>
    match token, frames with
    | .closeList, _ :: outer => complete outer (.list none [])
    | token, frames => takeValue frames token
  | .nameOrEnd entries, frames =>
    match token with
    | .closeMap => complete frames (.map none entries)
    | token => takeName frames entries token
  | .name entries, frames => takeName frames entries token
  | .colon, frames => if token = .colon then .ok ⟨frames, .value⟩ else .error .expectingColon
  | .separator _, [] => .error .extraData
  | .separator last, .list items :: outer =>
    match token with
    | .comma => .ok ⟨.list (last :: items) :: outer, .value⟩
    | .closeList => complete outer (.list none (last :: items).reverse)
    | _ => .error .expectingComma
  | .separator last, .map entries key :: outer =>
    match token with
    | .comma => .ok ⟨outer, .name (entries.set key last)⟩
    | .closeMap => complete outer (.map none (entries.set key last))
    | _ => .error .expectingComma

/-- What is missing at the end of the text. -/
def finish (r : Reader) : Except TextFault Tree :=
  match r.expected, r.frames with
  | .separator t, [] => .ok t
  | .separator _, _ => .error .expectingComma
  | .value, _ | .itemOrEnd, _ => .error .expectingValue
  | .nameOrEnd _, _ | .name _, _ => .error .expectingName
  | .colon, _ => .error .expectingColon

/-- Takes tokens until one is refused or the text, of the given length, ends. -/
def run (length : Nat) : Reader → List (Token × Nat) → Except TextError Tree
  | r, [] => (r.finish).mapError (⟨·, length⟩)
  | r, (token, position) :: rest =>
    match r.step token, token with
    | .ok r', _ => run length r' rest
    | .error fault, .fault e => .error (if fault = e.fault then e else ⟨fault, position⟩)
    | .error fault, _ => .error ⟨fault, position⟩

end Reader

/-- Reads the one value that a text holds. -/
def read (text : String) : Except TextError Tree :=
  let cs := text.toList
  match cs with
  | '\ufeff' :: _ => .error ⟨.byteOrderMark, 0⟩
  | _ => Reader.run cs.length ⟨[], .value⟩ (tokensFrom 0 cs)

end ApiContract.Json
