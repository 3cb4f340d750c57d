/-!
# Shortest decimals

The shortest decimal that reads back as a given binary64 number, and its layout as text.

A finite positive number is `m · 2^q`. The reals that round to it form an interval around it, whose
ends belong to it exactly when `m` is even. For `1, 2, … 17` digits, the two neighbours of the number
on the grid of that many digits are tried: the first grid with a hit wins, and of two hits the nearer
one, or the even one if both are equally near.
-/

namespace ApiContract.Decimal

/-- A finite number apart from its sign: `mantissa · 2^exponent`. -/
structure Binary where
  mantissa : Nat
  exponent : Int

/-- What a binary64 number is. -/
inductive Value where
  | notANumber
  | infinite (negative : Bool)
  | finite (negative : Bool) (magnitude : Binary)

/-- Takes a number apart by its bits. -/
def valueOf (x : Float) : Value :=
  let bits := x.toBits.toNat
  let negative := bits / Nat.pow 2 63 == 1
  let exponent : Nat := bits / Nat.pow 2 52 % 2048
  let fraction := bits % Nat.pow 2 52
  if exponent == 2047 then if fraction == 0 then .infinite negative else .notANumber
  else if exponent == 0 then .finite negative ⟨fraction, -1074⟩
  else .finite negative ⟨fraction + Nat.pow 2 52, (exponent : Int) - 1075⟩

/-- A positive decimal: `digits · 10^scale`. -/
structure Digits where
  digits : Nat
  scale : Int
deriving DecidableEq, Repr

/-- `n · base^e` for a signed `e`, as a numerator and a denominator. -/
def ratio (n base : Nat) (e : Int) : Nat × Nat :=
  (n * base.pow e.toNat, base.pow (-e).toNat)

/-- The number of decimal digits of a natural number; zero has one. -/
def digitCount (n : Nat) : Nat :=
  (Nat.toDigits 10 n).length

/-- The `e` with `10^e ≤ num / den < 10^(e+1)`. -/
def magnitude (num den : Nat) : Int :=
  if den ≤ num then (digitCount (num / den) : Int) - 1
  else -(digitCount ((den - 1) / num) : Int)

/-- The interval that rounds to a number, in quarters of its last binary place. -/
structure Interval where
  low : Nat
  high : Nat
  closed : Bool

/-- The reals nearer to `m · 2^q` than to its neighbours, in units of `2^(q-2)`. Below a power of two
the neighbour is half as far. -/
def Binary.interval (b : Binary) : Interval :=
  { low := if b.mantissa == Nat.pow 2 52 && b.exponent > -1074 then 4 * b.mantissa - 1
           else 4 * b.mantissa - 2
    high := 4 * b.mantissa + 2
    closed := b.mantissa % 2 == 0 }

/-- The decimal on the grid `10^scale` that rounds to the number, if there is one. -/
def onGrid? (b : Binary) (scale : Int) : Option Nat :=
  let (dn, dd) := ratio 1 10 scale
  let (bn, bd) := ratio 1 2 (b.exponent - 2)
  let unit := dn * bd
  let mark := bn * dd
  let exact := 4 * b.mantissa * mark
  let below := exact / unit
  let above := below + 1
  let i := b.interval
  let hit (d : Nat) : Bool :=
    let x := d * unit
    let lo := i.low * mark
    let hi := i.high * mark
    0 < d && if i.closed then lo ≤ x && x ≤ hi else lo < x && x < hi
  let down := exact - below * unit
  let up := above * unit - exact
  let preferBelow := down < up || (down == up && below % 2 == 0)
  match hit below, hit above with
  | true, true => some (if preferBelow then below else above)
  | true, false => some below
  | false, true => some above
  | false, false => none

/-- Moves the zeros at the end of the digits into the scale. -/
def Digits.trimmed : Nat → Digits → Digits
  | 0, d => d
  | n + 1, d =>
    if d.digits % 10 == 0 && d.digits != 0 then trimmed n ⟨d.digits / 10, d.scale + 1⟩ else d

/-- The shortest decimal that rounds to a positive number. -/
def shortest (b : Binary) : Digits :=
  let (num, two) := ratio b.mantissa 2 b.exponent
  let top := magnitude num two
  let grids := (List.range 17).map fun (n : Nat) => top - (n : Int)
  let found := grids.findSome? fun scale => (onGrid? b scale).map fun d => Digits.mk d scale
  (found.getD ⟨num, 0⟩).trimmed 20

/-- How a decimal is laid out: which leading exponents are written positionally, and the least
number of digits of an exponent. -/
structure Layout where
  positionalFrom : Int
  positionalBelow : Int
  exponentDigits : Nat

/-- Positional from `0.0001` up to below `10^16`, and an exponent of at least two digits. -/
def Layout.wide : Layout := ⟨-4, 16, 2⟩

/-- Positional from `0.00001` up to below `10^16`, and an exponent without leading zeros. -/
def Layout.compact : Layout := ⟨-5, 16, 1⟩

/-- Writes a positive decimal. A positional one always has a point. -/
def Digits.layout (style : Layout) (d : Digits) : String :=
  let ds := Nat.toDigits 10 d.digits
  let lead : Int := d.scale + ds.length - 1
  if style.positionalFrom ≤ lead && lead < style.positionalBelow then
    if lead < 0 then
      String.ofList ('0' :: '.' :: List.replicate (-lead - 1).toNat '0' ++ ds)
    else
      let whole := ds.take (lead + 1).toNat
      let zeros := List.replicate ((lead + 1).toNat - whole.length) '0'
      let fraction := ds.drop (lead + 1).toNat
      String.ofList (whole ++ zeros ++ '.' :: (if fraction.isEmpty then ['0'] else fraction))
  else
    let mantissa := match ds with
      | [] => []
      | [c] => [c]
      | c :: rest => c :: '.' :: rest
    let power := Nat.toDigits 10 lead.natAbs
    let padded := List.replicate (style.exponentDigits - power.length) '0' ++ power
    String.ofList (mantissa ++ 'e' :: (if lead < 0 then '-' else '+') :: padded)

/-- The spellings of the numbers that no digits can write. -/
structure Special where
  notANumber : String
  infinity : String
  negativeInfinity : String

/-- Lower-case words: `nan`, `inf`, `-inf`. -/
def Special.words : Special := ⟨"nan", "inf", "-inf"⟩

/-- Writes any binary64 number. -/
def render (style : Layout) (special : Special) (x : Float) : String :=
  match valueOf x with
  | .notANumber => special.notANumber
  | .infinite negative => if negative then special.negativeInfinity else special.infinity
  | .finite negative b =>
    let body := if b.mantissa == 0 then "0.0" else (shortest b).layout style
    if negative then "-" ++ body else body

/-- The number as an integer, if it is one. -/
def integer? (x : Float) : Option Int :=
  match valueOf x with
  | .finite negative b =>
    let (num, den) := ratio b.mantissa 2 b.exponent
    if num % den == 0 then
      let n : Int := (num / den : Nat)
      some (if negative then -n else n)
    else none
  | _ => none

/-- The binary64 number nearest to `m · 10^e`. Exponents far out of range are cut short. -/
def nearest (m : Nat) (e : Int) : Float :=
  if m == 0 then 0.0
  else
    let lead := e + digitCount m
    if lead > 400 then Float.ofBits 0x7FF0000000000000
    else if lead < -400 then 0.0
    else if e < 0 then Float.ofScientific m true (-e).toNat
    else Float.ofScientific m false e.toNat

/-- The binary64 number nearest to an integer. -/
def ofInt (n : Int) : Float :=
  if n < 0 then -(nearest n.natAbs 0) else nearest n.natAbs 0

end ApiContract.Decimal
