import ApiContract.Decimal.Shortest
import ApiContract.Text.Class

/-!
# Reading numbers

Numbers as a person may write them: blanks around them, a sign, digits of any script with single
underscores between them, and for binary64 numbers a point, an exponent or the words for infinity and
for what is no number.
-/

namespace ApiContract.Decimal

/-- White space around numbers: blanks, but no separators of records. -/
def isSpace (c : Char) : Bool :=
  Text.isBlank c && !(28 ≤ c.toNat && c.toNat ≤ 31)

/-- Splits off a sign; the answer says whether it is a minus. -/
def takeSign : List Char → Bool × List Char
  | '-' :: rest => (true, rest)
  | '+' :: rest => (false, rest)
  | cs => (false, cs)

/-- The value of a digit of a base up to sixteen. -/
def digitOf? (base : Nat) (c : Char) : Option Nat :=
  let value := match Text.digitValue? c with
    | some d => some d
    | none =>
      if 'a' ≤ c ∧ c ≤ 'f' then some (c.toNat - 'a'.toNat + 10)
      else if 'A' ≤ c ∧ c ≤ 'F' then some (c.toNat - 'A'.toNat + 10)
      else none
  value.filter (· < base)

/-- Reads digits from left to right; an underscore may stand between two of them. -/
def digitsFrom? (base : Nat) (value count : Nat) : List Char → Option (Nat × Nat)
  | [] => some (value, count)
  | '_' :: c :: rest =>
    if count = 0 then none
    else (digitOf? base c).bind fun d => digitsFrom? base (value * base + d) (count + 1) rest
  | c :: rest => (digitOf? base c).bind fun d => digitsFrom? base (value * base + d) (count + 1) rest

/-- The value and the number of the digits of a text that holds nothing else. -/
def digits? (base : Nat) (cs : List Char) : Option (Nat × Nat) :=
  (digitsFrom? base 0 0 cs).filter fun d => d.2 != 0

/-- The number of decimal digits that a whole number may have. -/
def wholeLimit : Nat := 4300

/-- The letters that name a base after a leading zero. -/
def baseLetters : Nat → List Char
  | 2 => ['b', 'B']
  | 8 => ['o', 'O']
  | 16 => ['x', 'X']
  | _ => []

/-- Drops a zero and the letter of a base. -/
def dropBase (base : Nat) : List Char → List Char
  | zero :: letter :: rest =>
    if Text.digitValue? zero = some 0 ∧ letter ∈ baseLetters base then rest
    else zero :: letter :: rest
  | cs => cs

/-- A whole number in a base, with an optional sign. The text may name the base. -/
def whole? (base : Nat) (text : List Char) : Option Int := do
  let (negative, cs) := takeSign (Text.trimBy isSpace text)
  let (n, count) ← digits? base (dropBase base cs)
  if base = 10 ∧ wholeLimit < count then none
  return if negative then -n else n

/-- Infinity. -/
def infinity : Float := Float.ofBits 0x7FF0000000000000

/-- What is no number. -/
def notANumber : Float := Float.ofBits 0x7FF8000000000000

/-- Splits at the first character that satisfies a test, which is dropped. -/
def splitFirst (p : Char → Bool) (cs : List Char) : List Char × Option (List Char) :=
  match cs.dropWhile (!p ·) with
  | [] => (cs, none)
  | _ :: rest => (cs.takeWhile (!p ·), some rest)

/-- The power of ten that an exponent gives. -/
def power? : Option (List Char) → Option Int
  | none => some 0
  | some cs => do
    let (negative, cs) := takeSign cs
    let (n, _) ← digits? 10 cs
    return if negative then -n else n

/-- A number without a sign, in digits. -/
def positional? (cs : List Char) : Option Float := do
  let (mantissa, exponent) := splitFirst (fun c => c == 'e' || c == 'E') cs
  let (whole, fraction) := splitFirst (· == '.') mantissa
  let power ← power? exponent
  let (w, wn) ← digitsFrom? 10 0 0 whole
  let (f, fn) ← digitsFrom? 10 0 0 (fraction.getD [])
  if wn + fn = 0 then none
  return nearest (w * Nat.pow 10 fn + f) (power - fn)

/-- A binary64 number. -/
def real? (text : List Char) : Option Float := do
  let (negative, cs) := takeSign (Text.trimBy isSpace text)
  let word := String.ofList (cs.map Char.toLower)
  let x ←
    if word = "inf" || word = "infinity" then some infinity
    else if word = "nan" then some notANumber
    else positional? cs
  return if negative then -x else x

end ApiContract.Decimal
