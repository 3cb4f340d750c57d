import ApiContract.Calendar.Reading
import ApiContract.Models
import ApiContract.Record
import ApiContract.Text.Utf8

/-!
# Values from texts

A parameter is one text, and its type says how to read it: numbers and truth values in the ways that
people write them, dates and times in their standard forms or as counts of seconds, and a literal of an
enumeration exactly. Lists, maps and records have no such form.
-/

namespace ApiContract.Models

/-- Why a text does not stand for a value. -/
inductive LexicalFault where
  /-- The text is no literal of the enumeration. -/
  | notAMember (text : String)
  /-- The text does not have the form of the type. -/
  | noForm
  /-- The type is none of the known ones. -/
  | unknownType
  /-- The type mentions an unknown one. -/
  | unknownPart (name : String)
deriving DecidableEq, Repr

/-- The scalar of a primitive type that a text stands for. -/
def scalarOf? (p : Primitive) (text : String) : Option Scalar :=
  match p with
  | .string | .any => some (.text text)
  | .bytes => some (.bytes (Text.Utf8.encode text))
  | .integer => (Decimal.lenientWhole text.toList).toOption.map .int
  | .number => (Decimal.lenientReal? text.toList).map .float
  | .boolean => (Record.truthOf? text).map .bool
  | .date => (Calendar.readDateLoosely (Text.Utf8.encode text)).toOption.map (.date Option.none)
  | .dateTime => (Calendar.readTimeLoosely (Text.Utf8.encode text)).toOption.map (.dateTime Option.none)
  | .empty => Option.none

/-- The value of a type that a text stands for. -/
def parse (m : Models) (type : TypeExpr) (text : String) : Except LexicalFault Value :=
  match type with
  | .primitive p _ _ =>
    match scalarOf? p text with
    | some s => .ok (.scalar s)
    | Option.none => .error .noForm
  | .named name _ =>
    let n := name.getD ""
    match m.find? n with
    | some ⟨_, _, _, .enumeration members⟩ =>
      match Member.ofWritten? members text with
      | some member => .ok (.member n member)
      | Option.none => .error (.notAMember text)
    | some _ => .error .noForm
    | Option.none => .error .unknownType
  | .array .. | .map .. =>
    match type.target? with
    | some n => if (m.find? n).isSome then .error .noForm else .error (.unknownPart n)
    | Option.none => .error .noForm

end ApiContract.Models
