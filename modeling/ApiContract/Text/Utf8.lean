/-!
# UTF-8

Octets that encode characters: each character has one form, of one to four octets, and no form stands
for half of a pair of code units.
-/

namespace ApiContract.Text.Utf8

/-- An octet that goes on with a character. -/
def isTail (b : UInt8) : Bool := 0x80 ≤ b && b ≤ 0xBF

/-- Whether an octet may come second in a character of more than two. -/
def isSecond (lead second : UInt8) : Bool :=
  if lead == 0xE0 then 0xA0 ≤ second && second ≤ 0xBF
  else if lead == 0xED then 0x80 ≤ second && second ≤ 0x9F
  else if lead == 0xF0 then 0x90 ≤ second && second ≤ 0xBF
  else if lead == 0xF4 then 0x80 ≤ second && second ≤ 0x8F
  else isTail second

/-- The number of octets of the character that a text starts with. -/
def charSize? : List UInt8 → Option Nat
  | [] => none
  | a :: rest =>
    if a ≤ 0x7F then some 1
    else if 0xC2 ≤ a && a ≤ 0xDF then
      match rest with
      | b :: _ => if isTail b then some 2 else none
      | _ => none
    else if 0xE0 ≤ a && a ≤ 0xEF then
      match rest with
      | b :: c :: _ => if isSecond a b && isTail c then some 3 else none
      | _ => none
    else if 0xF0 ≤ a && a ≤ 0xF4 then
      match rest with
      | b :: c :: d :: _ => if isSecond a b && isTail c && isTail d then some 4 else none
      | _ => none
    else none

/-- The number of octets before the first that belongs to no character. -/
def soundSize (octets : List UInt8) : Nat :=
  match octets with
  | [] => 0
  | a :: rest =>
    match charSize? (a :: rest) with
    | some (n + 1) => n + 1 + soundSize (rest.drop n)
    | _ => 0
termination_by octets.length
decreasing_by simp only [List.length_drop, List.length_cons]; omega

/-- The number of octets of the character that an octet starts. -/
def width? (lead : UInt8) : Option Nat :=
  if lead ≤ 0x7F then some 1
  else if 0xC2 ≤ lead && lead ≤ 0xDF then some 2
  else if 0xE0 ≤ lead && lead ≤ 0xEF then some 3
  else if 0xF0 ≤ lead && lead ≤ 0xF4 then some 4
  else none

/-- The number of octets of a character that is broken off, and what is wrong with it. -/
def breakOf : List UInt8 → Nat × String
  | [] => (0, "")
  | a :: rest =>
    match width? a with
    | none => (1, "invalid start byte")
    | some width =>
      let second := (rest.take 1).takeWhile fun b => if width = 2 then isTail b else isSecond a b
      let tail := if second.isEmpty then [] else ((rest.take (width - 1)).drop 1).takeWhile isTail
      let size := second.length + tail.length
      (size + 1, if size = rest.length then "unexpected end of data" else "invalid continuation byte")

/-- Why octets encode no text, if they do not. -/
def fault? (octets : List UInt8) : Option String :=
  let start := soundSize octets
  match octets.drop start with
  | [] => none
  | a :: rest =>
    let (size, reason) := breakOf (a :: rest)
    let digits := Nat.toDigits 16 a.toNat
    some <| "'utf-8' codec can't decode " ++
      (if size = 1 then "byte 0x" ++ String.ofList (List.replicate (2 - digits.length) '0' ++ digits) ++
        " in position " ++ toString start
      else "bytes in position " ++ toString start ++ "-" ++ toString (start + size - 1)) ++
      ": " ++ reason

/-- The text that octets encode. -/
def decode? (octets : List UInt8) : Option String :=
  String.fromUTF8? ⟨octets.toArray⟩

/-- The octets of a text. -/
def encode (text : String) : List UInt8 :=
  text.toUTF8.toList

end ApiContract.Text.Utf8
