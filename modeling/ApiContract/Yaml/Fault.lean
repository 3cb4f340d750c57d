import ApiContract.Text.Class
import ApiContract.Text.Literal

/-!
# Faults of YAML

Why a document cannot be read, in words for its writer: what was being read and where it began, what is
wrong, and where, each place with its line and a mark under the character. Readers know a place by the
number of characters from it to the end of the text.
-/

namespace ApiContract.Yaml

/-- A character that ends a line. -/
def isBreak (c : Char) : Bool :=
  c == '\n' || c == '\r' || c.toNat == 0x85 || c.toNat == 0x2028 || c.toNat == 0x2029

/-! ## Positions -/

/-- The line and the column of a character, both counted from zero. -/
structure Position where
  line : Nat
  column : Nat
deriving DecidableEq, Repr

namespace Position

/-- The position after a character. A return right before a line feed does not end the line, and a byte
order mark takes no room. -/
def after (p : Position) (c : Char) (next : Option Char) : Position :=
  if isBreak c && !(c == '\r' && next == some '\n') then ⟨p.line + 1, 0⟩
  else if c == '\uFEFF' then p
  else { p with column := p.column + 1 }

/-- The position after a number of characters. -/
def advance (p : Position) : Nat → List Char → Position
  | n + 1, c :: rest => (p.after c rest.head?).advance n rest
  | _, _ => p

end Position

/-! ## Problems -/

/-- What is wrong at a place. -/
inductive Problem where
  | startsNothing (c : Char)
  | noColon
  | entryHere
  | keyHere
  | valueHere
  | expected (what found : String)
  | expectedNext (what found : String)
  | unknownEscape (found : String)
  | textEnds
  | separatorInside
  | notText (reason : String)
  | duplicateVersion
  | otherVersion
  | duplicateHandle (handle : String)
  | unknownHandle (handle : String)
  | unknownAlias (name : String)
  | secondOccurrence
  | secondDocument
  | unknownTag (tag : String)
  | keyNotScalar
  | notAscii (reason : String)
  | notBase64 (reason : String)
deriving DecidableEq, Repr

/-- The wording of a problem. -/
def Problem.message : Problem → String
  | .startsNothing c =>
    "found character " ++ Text.quoted (String.singleton c) ++ " that cannot start any token"
  | .noColon => "could not find expected ':'"
  | .entryHere => "sequence entries are not allowed here"
  | .keyHere => "mapping keys are not allowed here"
  | .valueHere => "mapping values are not allowed here"
  | .expected what found => "expected " ++ what ++ ", but found " ++ found
  | .expectedNext what found => "expected " ++ what ++ ", but got " ++ found
  | .unknownEscape found => "found unknown escape character " ++ found
  | .textEnds => "found unexpected end of stream"
  | .separatorInside => "found unexpected document separator"
  | .notText reason => reason
  | .duplicateVersion => "found duplicate YAML directive"
  | .otherVersion => "found incompatible YAML document (version 1.* is required)"
  | .duplicateHandle handle => "duplicate tag handle " ++ Text.quoted handle
  | .unknownHandle handle => "found undefined tag handle " ++ Text.quoted handle
  | .unknownAlias name => "found undefined alias " ++ Text.quoted name
  | .secondOccurrence => "second occurrence"
  | .secondDocument => "but found another document"
  | .unknownTag tag => "could not determine a constructor for the tag " ++ Text.quoted tag
  | .keyNotScalar => "found unhashable key"
  | .notAscii reason => "failed to convert base64 data into ascii: " ++ reason
  | .notBase64 reason => "failed to decode base64 data: " ++ reason

/-- What was being read, and where it began unless that does not matter. -/
structure Inside where
  what : String
  left : Option Nat
deriving DecidableEq, Repr

/-- Why a document cannot be read: it breaks a rule of the format, it holds a character that no
document may hold, or a scalar stands for no value of its type. -/
inductive Fault where
  | broken (inside : Option Inside) (problem : Problem) (left : Nat)
  | character (c : Char) (left : Nat)
  | value
deriving DecidableEq, Repr

/-- The next character as a message shows it; the end of the text shows as the character zero. -/
def foundText (cs : List Char) : String :=
  Text.quoted (String.singleton (cs.head?.getD '\x00'))

/-! ## Wording -/

/-- The most characters of a line that are shown on one side of a place before the line is cut. -/
def shownSide : Nat := 36

/-- The characters that are left on one side of a place where the line is cut. -/
def cutSide : Nat := 32

/-- The line around a place, cut where it is long, and a mark under the place. -/
def snippet (before after : List Char) : String :=
  let before := (before.reverse.takeWhile (!isBreak ·)).reverse
  let after := after.takeWhile (!isBreak ·)
  let head := if before.length > shownSide then " ... ".toList ++ before.drop (before.length - cutSide)
    else before
  let tail := if after.length > shownSide then after.take cutSide ++ " ... ".toList else after
  "    " ++ String.ofList (head ++ tail) ++ "\n" ++
    String.ofList (List.replicate (4 + head.length) ' ' ++ ['^'])

/-- A place of a text. -/
def placeText (text : List Char) (left : Nat) : String :=
  let index := text.length - left
  let p := Position.advance ⟨0, 0⟩ index text
  "  in \"<unicode string>\", line " ++ toString (p.line + 1) ++ ", column " ++
    toString (p.column + 1) ++ ":\n" ++ snippet (text.take index) (text.drop index)

/-- The wording of a fault in a text. -/
def Fault.message (text : String) : Fault → String
  | .value => ""
  | .character c left =>
    "unacceptable character #x" ++ String.ofList (Text.hexPadded 4 c.toNat) ++
      ": special characters are not allowed\n  in \"<unicode string>\", position " ++
      toString (text.length - left)
  | .broken inside problem left =>
    let began := (inside.bind (·.left)).filter (· ≠ left)
    "\n".intercalate ((inside.map (·.what)).toList ++ (began.map (placeText text.toList)).toList ++
      [problem.message, placeText text.toList left])

end ApiContract.Yaml
