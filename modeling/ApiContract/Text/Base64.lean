/-!
# Base64

Octets as text of 64 characters, with padding. Strict reading takes characters of the alphabet alone,
with padding at the end only; loose reading skips every other character.
-/

namespace ApiContract.Text.Base64

/-- The character of a six-bit number. -/
def digit (n : Nat) : Char :=
  if n < 26 then Char.ofNat ('A'.toNat + n)
  else if n < 52 then Char.ofNat ('a'.toNat + (n - 26))
  else if n < 62 then Char.ofNat ('0'.toNat + (n - 52))
  else if n == 62 then '+'
  else '/'

/-- The six-bit number of a character. -/
def value? (c : Char) : Option Nat :=
  if c.isUpper then some (c.toNat - 'A'.toNat)
  else if c.isLower then some (c.toNat - 'a'.toNat + 26)
  else if c.isDigit then some (c.toNat - '0'.toNat + 52)
  else if c == '+' then some 62
  else if c == '/' then some 63
  else none

/-- Writes octets, three at a time. -/
def encodeList : List UInt8 → List Char
  | a :: b :: c :: rest =>
    let n := (a.toNat * 256 + b.toNat) * 256 + c.toNat
    digit (n / 262144) :: digit (n / 4096 % 64) :: digit (n / 64 % 64) :: digit (n % 64) ::
      encodeList rest
  | [a, b] =>
    let n := (a.toNat * 256 + b.toNat) * 4
    [digit (n / 4096), digit (n / 64 % 64), digit (n % 64), '=']
  | [a] =>
    let n := a.toNat * 16
    [digit (n / 64), digit (n % 64), '=', '=']
  | [] => []

/-- Writes octets. -/
def encode (octets : List UInt8) : String :=
  String.ofList (encodeList octets)

/-- Reads groups of four characters; only the last one may be padded. The bits of a padded group
beyond its octets are ignored, and so are padding marks after a whole group. -/
def decodeFrom (first : Bool) : List Char → Option (List UInt8)
  | [] => some []
  | [a, b, '=', '='] => do
    if !first && a == '=' && b == '=' then return []
    let n := (← value? a) * 64 + (← value? b)
    return [UInt8.ofNat (n / 16)]
  | [a, b, c, '='] => do
    if !first && a == '=' && b == '=' && c == '=' then return []
    let n := ((← value? a) * 64 + (← value? b)) * 64 + (← value? c)
    return [UInt8.ofNat (n / 1024), UInt8.ofNat (n / 4 % 256)]
  | a :: b :: c :: d :: rest => do
    if !first && (a :: b :: c :: d :: rest).all (· == '=') then return []
    let n := (((← value? a) * 64 + (← value? b)) * 64 + (← value? c)) * 64 + (← value? d)
    return UInt8.ofNat (n / 65536) :: UInt8.ofNat (n / 256 % 256) :: UInt8.ofNat (n % 256) ::
      (← decodeFrom false rest)
  | cs => if !first && cs.all (· == '=') then some [] else none

/-- Reads octets. -/
def decode? (text : String) : Option (List UInt8) :=
  decodeFrom true text.toList

/-- Reads octets in the midst of other characters, which are skipped. A group that has been padded to
four characters ends the text. `value` and `count` are those of the group so far, and `marks` is the
number of padding marks in a row. -/
def decodeLooseFrom (value count marks : Nat) : List Char → Option (List UInt8)
  | [] => if count = 0 then some [] else none
  | '=' :: rest =>
    if count ≥ 2 then if count + marks + 1 ≥ 4 then some [] else decodeLooseFrom value count (marks + 1) rest
    else decodeLooseFrom value count marks rest
  | c :: rest =>
    match value? c with
    | none => decodeLooseFrom value count marks rest
    | some v =>
      match count with
      | 0 => decodeLooseFrom v 1 0 rest
      | 1 => (decodeLooseFrom (v % 16) 2 0 rest).map (UInt8.ofNat (value * 4 + v / 16) :: ·)
      | 2 => (decodeLooseFrom (v % 4) 3 0 rest).map (UInt8.ofNat (value * 16 + v / 4) :: ·)
      | _ => (decodeLooseFrom 0 0 0 rest).map (UInt8.ofNat (value * 64 + v) :: ·)

/-- Reads octets in the midst of other characters, which are skipped. -/
def decodeLoose? (text : String) : Option (List UInt8) :=
  decodeLooseFrom 0 0 0 text.toList

end ApiContract.Text.Base64
