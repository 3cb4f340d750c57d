import ApiContract.Decimal.Reading
import ApiContract.Json.Text
import ApiContract.Text.Utf8

/-!
# JSON octets

Reads the JSON value that octets hold, without making text of them first. As in `Json.Text`, octets are
cut into tokens and an automaton takes them one by one, but faults are finer: they tell a trailing comma
from a missing value, and the end of a list from the end of the octets. Places are counted in octets.

Halves of pairs of code units are refused, and so are more than two hundred containers within each
other; `NaN`, `Infinity` and `-Infinity` are numbers. A key that is given more than once stays so.
-/

namespace ApiContract.Json.Octets

/-- What is wrong with octets. -/
inductive Fault where
  | endInValue
  | endInString
  | endInList
  | endInMap
  | value
  | word
  | number
  | numberRange
  | controlCharacter
  | escape
  | secondHalf
  | firstHalf
  | codePoint
  | key
  | colon
  | commaOrListEnd
  | commaOrMapEnd
  | trailingComma
  | trailingCharacters
  | depth
deriving DecidableEq, Repr

/-- The wording of a fault. -/
def Fault.message : Fault → String
  | .endInValue => "EOF while parsing a value"
  | .endInString => "EOF while parsing a string"
  | .endInList => "EOF while parsing a list"
  | .endInMap => "EOF while parsing an object"
  | .value => "expected value"
  | .word => "expected ident"
  | .number => "invalid number"
  | .numberRange => "number out of range"
  | .controlCharacter => "control character (\\u0000-\\u001F) found while parsing a string"
  | .escape => "invalid escape"
  | .secondHalf => "unexpected end of hex escape"
  | .firstHalf => "lone leading surrogate in hex escape"
  | .codePoint => "invalid unicode code point"
  | .key => "key must be a string"
  | .colon => "expected `:`"
  | .commaOrListEnd => "expected `,` or `]`"
  | .commaOrMapEnd => "expected `,` or `\x7d`"
  | .trailingComma => "trailing comma"
  | .trailingCharacters => "trailing characters"
  | .depth => "recursion limit exceeded"

/-- A fault and its place. -/
structure Error where
  fault : Fault
  position : Nat
deriving DecidableEq, Repr

/-- The fault with its line and column. A line feed already belongs to the line that it starts. -/
def Error.message (octets : List UInt8) (e : Error) : String :=
  let before := octets.take (e.position + 1)
  let column :=
    if e.position < octets.length then (before.reverse.takeWhile (· != 10)).length
    else (octets.reverse.takeWhile (· != 10)).length
  e.fault.message ++ " at line " ++ toString (before.count 10 + 1) ++ " column " ++ toString column

/-! ## Tokens -/

/-- The parts that octets are cut into. -/
inductive Token where
  | openMap
  | closeMap
  | openList
  | closeList
  | colon
  | comma
  | scalar (s : Scalar)
  | text (s : String)
  /-- A string that is broken. -/
  | brokenText (e : Error)
  /-- A number or word that is broken. -/
  | broken (e : Error)
  | junk
deriving DecidableEq

/-- An octet as an ASCII character. -/
def charOf (b : UInt8) : Char := Char.ofNat b.toNat

/-- Whether an octet is an ASCII digit. -/
def isDigit (b : UInt8) : Bool := 48 ≤ b && b ≤ 57

/-- The number that four hexadecimal digits spell, the first at a place. -/
def hexFour (length place : Nat) : List UInt8 → Except Error Nat
  | a :: b :: c :: d :: _ =>
    match hexDigit? (charOf a), hexDigit? (charOf b), hexDigit? (charOf c), hexDigit? (charOf d) with
    | some a, some b, some c, some d => .ok (((a * 16 + b) * 16 + c) * 16 + d)
    | none, _, _, _ => .error ⟨.escape, place⟩
    | _, none, _, _ => .error ⟨.escape, place + 1⟩
    | _, _, none, _ => .error ⟨.escape, place + 2⟩
    | _, _, _, none => .error ⟨.escape, place + 3⟩
  | _ => .error ⟨.endInString, length⟩

/-- The octets of a character. -/
def octetsOf (c : Char) : List UInt8 :=
  Text.Utf8.encode (String.singleton c)

/-- The character of an escape whose first digit is at a place, and the number of octets it takes. -/
def unitEscape (length place : Nat) (rest : List UInt8) : Except Error (List UInt8 × Nat) := do
  let n ← hexFour length place rest
  if isLowSurrogate n then throw ⟨.firstHalf, place + 3⟩
  if !isHighSurrogate n then return (octetsOf (Char.ofNat n), 4)
  match rest.drop 4 with
  | 92 :: 117 :: more =>
    let low ← hexFour length (place + 6) more
    if !isLowSurrogate low then throw ⟨.firstHalf, place + 9⟩
    return (octetsOf (charOfPair n low), 10)
  | [92] => throw ⟨.endInString, place + 5⟩
  | 92 :: _ => throw ⟨.secondHalf, place + 5⟩
  | [] => throw ⟨.endInString, place + 4⟩
  | _ => throw ⟨.secondHalf, place + 4⟩

/-- A string that has been read: its octets, with escapes replaced, and the place after its closing
quote. -/
structure Scanned where
  octets : List UInt8
  stop : Nat

/-- The inside of a string from a place on. `done` holds its octets in reverse. The first argument bounds
the number of steps. -/
def scanString (length : Nat) : Nat → Nat → List UInt8 → List UInt8 → Except Error Scanned
  | 0, _, _, _ => .error ⟨.endInString, length⟩
  | _ + 1, _, _, [] => .error ⟨.endInString, length⟩
  | fuel + 1, place, done, b :: rest =>
    if b == 34 then .ok ⟨done.reverse, place + 1⟩
    else if b == 92 then
      match rest with
      | [] => .error ⟨.endInString, length⟩
      | 117 :: more => do
        let (octets, n) ← unitEscape length (place + 2) more
        scanString length fuel (place + 2 + n) (octets.reverse ++ done) (more.drop n)
      | c :: more =>
        match shortEscape? (charOf c) with
        | some d => scanString length fuel (place + 2) ((octetsOf d).reverse ++ done) more
        | none => .error ⟨.escape, place + 1⟩
    else if b < 32 then .error ⟨.controlCharacter, place⟩
    else scanString length fuel (place + 1) (b :: done) rest

/-- A string after its opening quote, and the number of octets that it takes from there. An octet that
belongs to no character is reported at its distance in the string without escapes. -/
def stringToken (length position : Nat) (rest : List UInt8) : Token × Nat :=
  match scanString length (rest.length + 1) (position + 1) [] rest with
  | .error e => (.brokenText e, 0)
  | .ok s =>
    match Text.Utf8.decode? s.octets with
    | some t => (.text t, s.stop - position - 1)
    | none => (.brokenText ⟨.codePoint, position + 1 + Text.Utf8.soundSize s.octets⟩, 0)

/-- The digits that octets start with. -/
def digitsOf (rest : List UInt8) : List UInt8 := rest.takeWhile isDigit

/-- Where digits are missing at a place. -/
def missingDigits (place : Nat) (rest : List UInt8) : Error :=
  if rest.isEmpty then ⟨.endInValue, place⟩ else ⟨.number, place⟩

/-- The digits of a number's whole part at a place, behind a sign or not. A sign counts as a digit. -/
def wholePart (negative : Bool) (place : Nat) (rest : List UInt8) : Except Error (List UInt8) :=
  let signs := if negative then 1 else 0
  match digitsOf rest with
  | [] => .error (missingDigits place rest)
  | 48 :: _ :: _ => .error ⟨.number, place + 1⟩
  | ds =>
    if signs + ds.length > digitLimit then .error ⟨.numberRange, place - signs + digitLimit + 1⟩
    else .ok ds

/-- The digits of a fraction at a place, and its length. -/
def fractionPart (place : Nat) : List UInt8 → Except Error (List UInt8 × Nat)
  | 46 :: rest =>
    match digitsOf rest with
    | [] => .error (missingDigits (place + 1) rest)
    | ds => .ok (ds, ds.length + 1)
  | _ => .ok ([], 0)

/-- The sign and digits of an exponent at a place, and its length. -/
def exponentPart (place : Nat) : List UInt8 → Except Error (Option (Bool × List UInt8) × Nat)
  | e :: rest =>
    if e == 101 || e == 69 then
      let (negative, sign, rest) := match rest with
        | 45 :: rest => (true, 1, rest)
        | 43 :: rest => (false, 1, rest)
        | rest => (false, 0, rest)
      match digitsOf rest with
      | [] => .error (missingDigits (place + 1 + sign) rest)
      | ds => .ok (some (negative, ds), 1 + sign + ds.length)
    else .ok (none, 0)
  | [] => .ok (none, 0)

/-- The value of ASCII digits. -/
def digitsValue (ds : List UInt8) : Nat :=
  ds.foldl (fun n d => 10 * n + (d.toNat - 48)) 0

/-- A number without its sign, at a place, and its length. -/
def numberPart (negative : Bool) (place : Nat) (rest : List UInt8) : Except Error (Scalar × Nat) := do
  let whole ← wholePart negative place rest
  let rest := rest.drop whole.length
  let (fraction, n) ← fractionPart (place + whole.length) rest
  let (exponent, k) ← exponentPart (place + whole.length + n) (rest.drop n)
  let size := whole.length + n + k
  if fraction.isEmpty && exponent.isNone then
    let m : Int := digitsValue whole
    return (.int (if negative then -m else m), size)
  let power : Int := match exponent with
    | some (true, ds) => -(digitsValue ds : Int)
    | some (false, ds) => digitsValue ds
    | none => 0
  let x := Decimal.nearest (digitsValue (whole ++ fraction)) (power - fraction.length)
  return (.float (if negative then -x else x), size)

/-- A word after its first letter, which stands at a place. -/
def wordToken (place : Nat) (tail : String) (s : Scalar) (rest : List UInt8) : Token × Nat :=
  let expected := tail.toUTF8.toList
  let given := rest.take expected.length
  if given == expected then (.scalar s, expected.length)
  else
    let matched := ((given.zip expected).takeWhile fun (a, b) => a == b).length
    if matched == rest.length then (.broken ⟨.endInValue, place + 1 + matched⟩, 0)
    else (.broken ⟨.word, place + 1 + matched⟩, 0)

/-- A number or a negative infinity, at a place. -/
def numberToken (position : Nat) (b : UInt8) (rest : List UInt8) : Token × Nat :=
  match b, rest with
  | 45, 73 :: more =>
    let (t, n) := wordToken (position + 1) "nfinity" (.float (-Decimal.infinity)) more
    (t, n + 1)
  | 45, rest =>
    match numberPart true (position + 1) rest with
    | .ok (s, n) => (.scalar s, n)
    | .error e => (.broken e, 0)
  | b, rest =>
    match numberPart false position (b :: rest) with
    | .ok (s, n) => (.scalar s, n - 1)
    | .error e => (.broken e, 0)

/-- The token that starts with an octet at a position, and how many octets after it belong to it. -/
def token (length position : Nat) (b : UInt8) (rest : List UInt8) : Token × Nat :=
  match charOf b with
  | '\x7b' => (.openMap, 0)
  | '\x7d' => (.closeMap, 0)
  | '[' => (.openList, 0)
  | ']' => (.closeList, 0)
  | ':' => (.colon, 0)
  | ',' => (.comma, 0)
  | '"' => stringToken length position rest
  | 'n' => wordToken position "ull" .null rest
  | 't' => wordToken position "rue" (.bool true) rest
  | 'f' => wordToken position "alse" (.bool false) rest
  | 'N' => wordToken position "aN" (.float Decimal.notANumber) rest
  | 'I' => wordToken position "nfinity" (.float Decimal.infinity) rest
  | '-' => numberToken position b rest
  | _ => if isDigit b then numberToken position b rest else (.junk, 0)

/-- Cuts octets into tokens with their places. -/
def tokensFrom (length position : Nat) (octets : List UInt8) : List (Token × Nat) :=
  match octets with
  | [] => []
  | b :: rest =>
    if isSpace (charOf b) then tokensFrom length (position + 1) rest
    else
      let (t, n) := token length position b rest
      (t, position) :: tokensFrom length (position + 1 + n) (rest.drop n)
termination_by octets.length
decreasing_by all_goals simp_all; try omega

/-! ## The automaton -/

/-- What may come next. -/
inductive Expected where
  | value
  | itemOrEnd
  | itemAfterComma
  | keyOrEnd (entries : Entries)
  | keyAfterComma (entries : Entries)
  | colon
  | separator (last : Tree)

/-- The stack of open containers, innermost first and each with its parts in reverse, and what may come
next. -/
structure Reader where
  frames : List Frame
  expected : Expected

namespace Reader

/-- The number of containers that may be open within each other. -/
def depthLimit : Nat := 200

/-- Takes a token where a value may start. -/
def takeValue (frames : List Frame) (position : Nat) (t : Token) : Except Error Reader :=
  if frames.length > depthLimit then .error ⟨.depth, position⟩
  else match t with
    | .scalar s => .ok ⟨frames, .separator (.scalar s)⟩
    | .text s => .ok ⟨frames, .separator (.text s)⟩
    | .openList => .ok ⟨.list [] :: frames, .itemOrEnd⟩
    | .openMap => .ok ⟨frames, .keyOrEnd []⟩
    | .brokenText e | .broken e => .error e
    | _ => .error ⟨.value, position⟩

/-- Takes a token where a key must start. -/
def takeKey (frames : List Frame) (entries : Entries) (position : Nat) : Token → Except Error Reader
  | .text s => .ok ⟨.map entries s :: frames, .colon⟩
  | .brokenText e => .error e
  | _ => .error ⟨.key, position⟩

/-- Takes one token. -/
def step (r : Reader) (position : Nat) (t : Token) : Except Error Reader :=
  match r.expected, r.frames with
  | .value, frames => takeValue frames position t
  | .itemOrEnd, frames =>
    match t, frames with
    | .closeList, _ :: outer => .ok ⟨outer, .separator (.list none [])⟩
    | t, frames => takeValue frames position t
  | .itemAfterComma, frames =>
    if t = .closeList then .error ⟨.trailingComma, position⟩ else takeValue frames position t
  | .keyOrEnd entries, frames =>
    if t = .closeMap then .ok ⟨frames, .separator (.map none entries)⟩
    else takeKey frames entries position t
  | .keyAfterComma entries, frames =>
    if t = .closeMap then .error ⟨.trailingComma, position⟩ else takeKey frames entries position t
  | .colon, frames => if t = .colon then .ok ⟨frames, .value⟩ else .error ⟨.colon, position⟩
  | .separator _, [] => .error ⟨.trailingCharacters, position⟩
  | .separator last, .list items :: outer =>
    match t with
    | .comma => .ok ⟨.list (last :: items) :: outer, .itemAfterComma⟩
    | .closeList => .ok ⟨outer, .separator (.list none (last :: items).reverse)⟩
    | _ => .error ⟨.commaOrListEnd, position⟩
  | .separator last, .map entries key :: outer =>
    match t with
    | .comma => .ok ⟨outer, .keyAfterComma ((.text key, last) :: entries)⟩
    | .closeMap => .ok ⟨outer, .separator (.map none ((.text key, last) :: entries).reverse)⟩
    | _ => .error ⟨.commaOrMapEnd, position⟩

/-- What is missing at the end. -/
def finish (r : Reader) : Except Fault Tree :=
  match r.expected, r.frames with
  | .separator t, [] => .ok t
  | .separator _, .list _ :: _ | .itemOrEnd, _ => .error .endInList
  | .separator _, .map .. :: _ | .keyOrEnd _, _ | .colon, _ => .error .endInMap
  | .value, _ | .itemAfterComma, _ | .keyAfterComma _, _ => .error .endInValue

/-- Takes tokens until one is refused or the octets, of the given number, end. -/
def run (length : Nat) : Reader → List (Token × Nat) → Except Error Tree
  | r, [] => r.finish.mapError (⟨·, length⟩)
  | r, (t, position) :: rest =>
    match r.step position t with
    | .ok r' => run length r' rest
    | .error e => .error e

end Reader

/-- Reads the one value that octets hold. -/
def read (octets : List UInt8) : Except Error Tree :=
  Reader.run octets.length ⟨[], .value⟩ (tokensFrom octets.length 0 octets)

end ApiContract.Json.Octets
