import ApiContract.Tree.Basic

/-!
# JSON printing

Writes a tree as JSON text in a given style.
-/

namespace ApiContract.Json

/-- How a tree is written. -/
structure Style where
  itemSeparator : String
  keySeparator : String
  asciiOnly : Bool
  indent : Option Nat
  layout : Decimal.Layout
  special : Decimal.Special
  /-- The text that stands for a scalar that the format has none for, unless there is none. -/
  foreign : Scalar → Option String

/-- The names of the numbers that no digits can write. -/
def Special.names : Decimal.Special := ⟨"NaN", "Infinity", "-Infinity"⟩

/-- On one line with a space after commas and colons, in ASCII alone. -/
def Style.spaced : Style :=
  ⟨", ", ": ", true, none, .wide, Special.names, fun _ => none⟩

/-- On one line without spaces. Numbers that no digits can write become `null`. -/
def Style.compact : Style :=
  ⟨",", ":", false, none, .compact, ⟨"null", "null", "null"⟩, fun _ => none⟩

/-- Indented by two spaces a level. Scalars of other formats are written as texts. -/
def Style.indented : Style :=
  ⟨",", ": ", false, some 2, .wide, Special.names, fun s => some s.display⟩

/-- The escape of a code unit. -/
def unitEscape (n : Nat) : List Char :=
  '\\' :: 'u' :: Text.hexPadded 4 n

/-- One character of a string, as it is written in every style. -/
def plainChar (c : Char) : List Char :=
  if c == '"' then ['\\', '"']
  else if c == '\\' then ['\\', '\\']
  else if c == '\n' then ['\\', 'n']
  else if c == '\r' then ['\\', 'r']
  else if c == '\t' then ['\\', 't']
  else if c.toNat == 8 then ['\\', 'b']
  else if c.toNat == 12 then ['\\', 'f']
  else if c.toNat < 32 then unitEscape c.toNat
  else [c]

/-- One character of a string in ASCII; characters beyond the basic plane become two code units. -/
def asciiChar (c : Char) : List Char :=
  if c.toNat < 127 then plainChar c
  else if c.toNat < 0x10000 then unitEscape c.toNat
  else
    let n := c.toNat - 0x10000
    unitEscape (0xD800 + n / 1024) ++ unitEscape (0xDC00 + n % 1024)

/-- A text as a JSON string. -/
def stringText (asciiOnly : Bool) (s : String) : String :=
  String.ofList ('"' :: s.toList.flatMap (if asciiOnly then asciiChar else plainChar) ++ ['"'])

/-- A scalar; nothing if the style has no text for it. -/
def scalarText (style : Style) : Scalar → Option String
  | .null => some "null"
  | .bool b => some (if b then "true" else "false")
  | .int n => some (toString n)
  | .float x => some (Decimal.render style.layout style.special x)
  | .text s => some (stringText style.asciiOnly s)
  | s => (style.foreign s).map (stringText style.asciiOnly)

/-- A key; scalars other than texts are written as texts. -/
def keyText (style : Style) : Scalar → Option String
  | .text s => some (stringText style.asciiOnly s)
  | .null => some "\"null\""
  | .bool b => some (if b then "\"true\"" else "\"false\"")
  | .int n => some (stringText style.asciiOnly (toString n))
  | .float x => some (stringText style.asciiOnly (Decimal.render style.layout style.special x))
  | _ => none

/-- Puts written parts between brackets, each on a line of its own if the style is indented. -/
def bracketed (style : Style) (depth : Nat) (opening closing : String) (parts : List String) :
    String :=
  if parts.isEmpty then opening ++ closing
  else match style.indent with
    | none => opening ++ style.itemSeparator.intercalate parts ++ closing
    | some n =>
      let line (d : Nat) := "\n" ++ String.ofList (List.replicate (n * d) ' ')
      opening ++ line (depth + 1) ++ (style.itemSeparator ++ line (depth + 1)).intercalate parts ++
        line depth ++ closing

/-- All values, or nothing if one is missing. -/
def allSome {α : Type} : List (Option α) → Option (List α)
  | [] => some []
  | a :: rest => do return (← a) :: (← allSome rest)

/-- Writes a tree at a depth; nothing if it holds a value that the style has no text for. -/
def printAt (style : Style) (t : Tree) : Nat → Option String :=
  t.para (β := Nat → Option String) {
    scalar s _ := scalarText style s
    list _ items := listText (items.map (·.2))
    map _ entries depth := do
      let parts ← allSome (entries.map fun (k, _, v) => do
        return (← keyText style k) ++ style.keySeparator ++ (← v (depth + 1)))
      return bracketed style depth "\x7b" "\x7d" parts
    set _ _ _ := none
    pair x y := listText [x.2, y.2]
    back _ _ _ := none }
where
  /-- Writes a list at a depth. -/
  listText (items : List (Nat → Option String)) (depth : Nat) : Option String := do
    return bracketed style depth "[" "]" (← allSome (items.map fun i => i (depth + 1)))

/-- Writes a tree. -/
def print? (style : Style) (t : Tree) : Option String :=
  printAt style t 0

end ApiContract.Json
