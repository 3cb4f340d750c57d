import ApiContract.Yaml.Scalar

/-!
# Styles of scalars

How the text of a scalar may be written: plain, in single quotes, in double quotes or as a literal
block. What a text holds decides which styles keep it as it is.
-/

namespace ApiContract.Yaml

/-- A style of a scalar. -/
inductive Style where
  | plain
  | single
  | double
  | literal
deriving DecidableEq, Repr

/-- A character that ends a line. -/
def isLineEnd (c : Char) : Bool :=
  c == '\n' || c.toNat == 0x85 || c.toNat == 0x2028 || c.toNat == 0x2029

/-- A character that separates tokens. -/
def separates (c : Char) : Bool :=
  c.toNat == 0 || c == ' ' || c == '\t' || c == '\r' || isLineEnd c

/-- A character that can be written as it is outside double quotes. -/
def isWritable (c : Char) : Bool :=
  let n := c.toNat
  c == '\n' || (0x20 ≤ n && n ≤ 0x7E) || n == 0x85 || (0xA0 ≤ n && n ≤ 0xD7FF) ||
    (0xE000 ≤ n && n ≤ 0xFFFD && n != 0xFEFF) || (0x10000 ≤ n && n < 0x10FFFF)

/-- A character that starts something other than plain text. -/
def isOpening (c : Char) : Bool :=
  "#,[]\x7b\x7d&*!|>'\"%@`".toList.contains c

/-- What a text holds. -/
structure Traits where
  empty : Bool
  multiline : Bool
  allowsPlain : Bool
  allowsSingle : Bool
  allowsLiteral : Bool
deriving DecidableEq, Repr

/-- The characters of a text with the ones before and after them. -/
def neighbours (previous : Option Char) : List Char → List (Option Char × Char × Option Char)
  | [] => []
  | c :: rest => (previous, c, rest.head?) :: neighbours (some c) rest

/-- Whether what stands on one side of a character separates; the ends of a text do. -/
def atEdge (c : Option Char) : Bool :=
  c.all separates

/-- Whether a character at its place is an indicator outside of flow collections. -/
def indicates : Option Char × Char × Option Char → Bool
  | (none, c, next) => isOpening c || ((c == '?' || c == ':' || c == '-') && atEdge next)
  | (previous, c, next) => (c == ':' && atEdge next) || (c == '#' && atEdge previous)

/-- Whether a text starts like a mark between documents. -/
def startsLikeMark (cs : List Char) : Bool :=
  "---".toList.isPrefixOf cs || "...".toList.isPrefixOf cs

/-- Whether some character satisfies a test and the next one another. -/
def hasPair (p q : Char → Bool) (places : List (Option Char × Char × Option Char)) : Bool :=
  places.any fun (_, c, next) => p c && next.any q

/-- What a text holds. -/
def traitsOf (text : String) : Traits :=
  let cs := text.toList
  if cs.isEmpty then
    { empty := true, multiline := false, allowsPlain := true, allowsSingle := true
      allowsLiteral := false }
  else
    let places := neighbours none cs
    let multiline := cs.any isLineEnd
    let loose (c : Option Char) := c.any fun c => c == ' ' || isLineEnd c
    let indented := hasPair isLineEnd (· == ' ') places
    let unkept := hasPair (· == ' ') isLineEnd places || !cs.all isWritable
    { empty := false
      multiline := multiline
      allowsPlain := !(loose cs.head? || loose cs.getLast? || indented || unkept || multiline ||
        startsLikeMark cs || places.any indicates)
      allowsSingle := !(indented || unkept)
      allowsLiteral := !(unkept || cs.getLast? == some ' ') }

/-- A scalar to be written: its text, its tag, the tag that its text has in plain style, and whether it
would rather be a literal block. -/
structure Written where
  text : String
  tag : String
  asBlock : Bool
deriving DecidableEq, Repr

/-- The style of a scalar; a simple key stands on one line. -/
def Written.style (w : Written) (simpleKey : Bool) : Style :=
  let traits := traitsOf w.text
  let cramped := simpleKey && (traits.empty || traits.multiline)
  if w.asBlock then
    if !simpleKey && traits.allowsLiteral then .literal else .double
  else if w.tag = resolve w.text && !cramped && traits.allowsPlain then .plain
  else if traits.allowsSingle && !(simpleKey && traits.multiline) then .single
  else .double

/-- The short form of a standard tag. -/
def shortTag (tag : String) : String :=
  "!!" ++ (tag.drop standard.length).toString

/-- The tag that must be written, unless the style implies it. -/
def Written.writtenTag (w : Written) (style : Style) : Option String :=
  let implied := if style = .plain then w.tag = resolve w.text else w.tag = Tag.text
  if implied then none else some (shortTag w.tag)

/-- The number of characters that a scalar takes as a key. -/
def Written.keyLength (w : Written) : Nat :=
  (shortTag w.tag).length + w.text.length

/-- The text of a number. -/
def realText (x : Float) : String :=
  let text := Decimal.render .wide ⟨".nan", ".inf", "-.inf"⟩ x
  let cs := text.toList
  if cs.contains 'e' && !cs.contains '.' then
    String.ofList (cs.flatMap fun c => if c == 'e' then ['.', '0', 'e'] else [c])
  else text

/-- Cuts characters into lines, each with a line end and with the given number of characters behind its
first. -/
def lines (more : Nat) : List Char → List Char
  | [] => []
  | c :: cs => c :: cs.take more ++ '\n' :: lines more (cs.drop more)
termination_by cs => cs.length
decreasing_by simp only [List.length_drop, List.length_cons]; omega

/-- A scalar to be written. -/
def Written.ofScalar : Scalar → Written
  | .null => ⟨"null", Tag.null, false⟩
  | .bool b => ⟨if b then "true" else "false", Tag.of "bool", false⟩
  | .int n => ⟨toString n, Tag.of "int", false⟩
  | .float x => ⟨realText x, Tag.of "float", false⟩
  | .text s => ⟨s, Tag.text, false⟩
  | .bytes bs => ⟨String.ofList (lines 75 (Text.Base64.encode bs).toList), Tag.of "binary", true⟩
  | .date _ d => ⟨d.isoText, Tag.of "timestamp", false⟩
  | .dateTime _ t => ⟨t.text " ", Tag.of "timestamp", false⟩

end ApiContract.Yaml
