import ApiContract.Decimal.Reading

/-!
# Numbers in addresses

Numbers as parameters spell them: ASCII digits alone, blanks around them, single underscores between
them. A whole number may carry a plus, leading zeros and a fraction of zeros.
-/

namespace ApiContract.Decimal

/-- Whether a text is made of ASCII digits, one at least. -/
def isDigits (cs : List Char) : Bool :=
  !cs.isEmpty && cs.all Char.isDigit

/-- The value of ASCII digits. -/
def digitsValue (cs : List Char) : Nat :=
  cs.foldl (fun n c => 10 * n + (c.toNat - '0'.toNat)) 0

/-! ## Whole numbers -/

/-- Why a text does not stand for a whole number. -/
inductive WholeFault where
  /-- It does not have the form of one. -/
  | malformed
  /-- It has too many digits. -/
  | tooLong
deriving DecidableEq, Repr

/-- How many digits open a number without leading zeros. -/
def leadingDigits (cs : List Char) : Nat :=
  if cs.head? = some '0' then 0 else (cs.takeWhile Char.isDigit).length

/-- A whole number in its plain form, without leading zeros. A sign counts as a digit for the limit, and
a number that passes it is too long whatever follows. -/
def plainWhole (text : List Char) : Except WholeFault Int :=
  let (negative, cs) := match text with
    | '-' :: cs => (true, cs)
    | cs => (false, cs)
  if wholeLimit < leadingDigits cs + (if negative then 1 else 0) then .error .tooLong
  else if !isDigits cs || (cs.head? = some '0' && cs.length != 1) then .error .malformed
  else .ok (if negative then -(digitsValue cs : Int) else digitsValue cs)

/-- What follows leading zeros, from a zero on. The last zero stays if nothing else would. -/
def afterZeros : Char → List Char → Option (List Char)
  | last, [] => some [last]
  | last, c :: rest =>
    if c = '0' ∨ c = '_' then afterZeros c rest
    else if c.isDigit ∨ c = '-' then some (c :: rest)
    else if c = '.' then some (last :: c :: rest)
    else none

/-- Drops leading zeros. -/
def dropZeros : List Char → Option (List Char)
  | '0' :: rest => afterZeros '0' rest
  | c :: rest => if c.isDigit ∨ c = '-' then some (c :: rest) else none
  | [] => none

/-- Drops leading zeros behind a minus. -/
def dropSignedZeros : List Char → Option (List Char)
  | '-' :: rest => (dropZeros rest).map ('-' :: ·)
  | cs => dropZeros cs

/-- Drops a fraction of zeros. -/
def dropFraction (cs : List Char) : List Char :=
  match cs.dropWhile (· != '.') with
  | '.' :: zeros => if !zeros.isEmpty && zeros.all (· == '0') then cs.takeWhile (· != '.') else cs
  | _ => cs

/-- Whether underscores stand between other characters only, one at a time. -/
def separates : List Char → Bool
  | '_' :: _ => false
  | cs => go cs
where
  /-- The same, behind a character that is no underscore. -/
  go : List Char → Bool
  | [] => true
  | ['_'] => false
  | '_' :: '_' :: _ => false
  | _ :: rest => go rest

/-- Drops underscores between other characters. -/
def dropUnderscores (cs : List Char) : List Char :=
  if separates cs then cs.filter (· != '_') else cs

/-- The plain form of a whole number: without blanks around it, a plus, leading zeros, a fraction of
zeros and underscores. -/
def plainForm? (text : List Char) : Option (List Char) := do
  let cs ← match Text.trimBy isSpace text with
    | '+' :: '-' :: _ => none
    | '+' :: rest => some rest
    | cs => some cs
  let cs ← dropSignedZeros cs
  return dropUnderscores (dropFraction cs)

/-- A whole number in any form that parameters may have. -/
def lenientWhole (text : List Char) : Except WholeFault Int :=
  match plainWhole text with
  | .error .malformed =>
    match (plainForm? text).map plainWhole with
    | some (.ok n) => .ok n
    | _ => .error .malformed
  | read => read

/-! ## Real numbers -/

/-- The exponent of a number. -/
def plainPower? : Option (List Char) → Option Int
  | none => some 0
  | some cs =>
    let (negative, cs) := takeSign cs
    if isDigits cs then some (if negative then -(digitsValue cs : Int) else digitsValue cs) else none

/-- A number without a sign, in ASCII digits. -/
def plainPositional? (cs : List Char) : Option Float := do
  let (mantissa, exponent) := splitFirst (fun c => c == 'e' || c == 'E') cs
  let (whole, fraction) := splitFirst (· == '.') mantissa
  let power ← plainPower? exponent
  let digits := whole ++ fraction.getD []
  if isDigits digits then
    some (nearest (digitsValue digits) (power - (fraction.getD []).length))
  else none

/-- A binary64 number, without blanks or underscores. -/
def plainReal? (text : List Char) : Option Float := do
  let (negative, cs) := takeSign text
  let word := String.ofList (cs.map Char.toLower)
  let x ←
    if word = "inf" || word = "infinity" then some infinity
    else if word = "nan" then some notANumber
    else plainPositional? cs
  return if negative then -x else x

/-- A binary64 number in any form that parameters may have: with blanks around it, or else with
underscores in it. -/
def lenientReal? (text : List Char) : Option Float :=
  (plainReal? (Text.trimBy isSpace text)).or
    (if separates text then plainReal? (text.filter (· != '_')) else none)

end ApiContract.Decimal
