import ApiContract.Text.Utf8

/-!
# Percent-encoding

Octets of a text may be written as a percent sign and two hexadecimal digits. A sign without digits
stands for itself. What stands between two characters beyond ASCII must encode whole characters.
-/

namespace ApiContract.Text.Percent

/-- The value of a hexadecimal digit. -/
def hexValue? (b : UInt8) : Option UInt8 :=
  if 48 ≤ b && b ≤ 57 then some (b - 48)
  else if 65 ≤ b && b ≤ 70 then some (b - 55)
  else if 97 ≤ b && b ≤ 102 then some (b - 87)
  else none

/-- Replaces percent signs with their digits by octets. -/
def decodeOctets : List UInt8 → List UInt8
  | 37 :: a :: b :: rest =>
    match hexValue? a, hexValue? b with
    | some x, some y => (16 * x + y) :: decodeOctets rest
    | _, _ => 37 :: decodeOctets (a :: b :: rest)
  | b :: rest => b :: decodeOctets rest
  | [] => []
termination_by bs => bs.length

/-- Cuts a text into runs of ASCII and of other characters; the mark tells whether a run is ASCII. -/
def runs : List Char → List (Bool × List Char)
  | [] => []
  | c :: rest =>
    let ascii := c.toNat < 128
    match runs rest with
    | (mark, run) :: more =>
      if mark == ascii then (mark, c :: run) :: more else (ascii, [c]) :: (mark, run) :: more
    | [] => [(ascii, [c])]

/-- The text that a percent-encoded text stands for, unless its octets are no characters. -/
def decode? (text : String) : Option String := do
  let parts ← (runs text.toList).mapM fun (ascii, run) =>
    if ascii then Utf8.decode? (decodeOctets (Utf8.encode (String.ofList run)))
    else some (String.ofList run)
  return String.join parts

end ApiContract.Text.Percent
