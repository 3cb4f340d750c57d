import ApiContract.Calendar.Date
import ApiContract.Decimal.Shortest
import ApiContract.Text.Literal

/-!
# Scalars

The values without parts that a document can hold. Whole numbers and binary64 numbers are different
scalars that may still be the same number: `Scalar.same` compares what they stand for.
-/

namespace ApiContract

/-- Identifies the places that share one node. -/
abbrev Anchor := Option Nat

/-- A value without parts. A date or time may be shared by places of a document. -/
inductive Scalar where
  | null
  | bool (b : Bool)
  | int (n : Int)
  | float (x : Float)
  | text (s : String)
  | bytes (octets : List UInt8)
  | date (anchor : Anchor) (d : Calendar.Date)
  | dateTime (anchor : Anchor) (t : Calendar.DateTime)
deriving DecidableEq, Inhabited

namespace Scalar

/-- One spelling of each value: a truth value or an integral binary64 number is the whole number that
it equals, and a time with an offset is read in universal time. Anchors are dropped. -/
def canonical : Scalar → Scalar
  | .bool b => .int (if b then 1 else 0)
  | .float x => match Decimal.integer? x with
    | some n => .int n
    | none => .float x
  | .date _ d => .date none d
  | .dateTime _ t => .dateTime none <| match t.offset with
    | some _ => .ofInstant t.instant (some 0)
    | none => t
  | s => s

/-- Equality of what two scalars stand for. -/
def same (a b : Scalar) : Bool :=
  a.canonical == b.canonical

/-- Whether a scalar counts as true in a condition. -/
def truthy : Scalar → Bool
  | .null => false
  | .bool b => b
  | .int n => n != 0
  | .float x => x != 0.0
  | .text s => !s.isEmpty
  | .bytes bs => !bs.isEmpty
  | .date .. | .dateTime .. => true

/-- The name of a scalar's type in messages. -/
def typeName : Scalar → String
  | .null => "NoneType"
  | .bool _ => "bool"
  | .int _ => "int"
  | .float _ => "float"
  | .text _ => "str"
  | .bytes _ => "bytes"
  | .date .. => "date"
  | .dateTime .. => "datetime"

/-- A binary64 number in messages. -/
def floatText (x : Float) : String :=
  Decimal.render .wide .words x

/-- The arguments of a constructor call, without trailing zeros of the optional ones. -/
def clockArguments (t : Calendar.DateTime) : List Nat :=
  let fixed := [t.date.year, t.date.month, t.date.day, t.hour, t.minute]
  if t.micro != 0 then fixed ++ [t.second, t.micro]
  else if t.second != 0 then fixed ++ [t.second]
  else fixed

/-- The literal form of an offset. -/
def offsetLiteral (o : Int) : String :=
  if o == 0 then "datetime.timezone.utc"
  else
    let days := o / 86400
    let seconds := o % 86400
    let parts := (if days == 0 then [] else ["days=" ++ toString days]) ++
      (if seconds == 0 then [] else ["seconds=" ++ toString seconds])
    "datetime.timezone(datetime.timedelta(" ++ ", ".intercalate parts ++ "))"

/-- The literal form of a scalar in messages. -/
def literal : Scalar → String
  | .null => "None"
  | .bool b => if b then "True" else "False"
  | .int n => toString n
  | .float x => floatText x
  | .text s => Text.quoted s
  | .bytes bs => Text.quotedOctets bs
  | .date _ d => "datetime.date(" ++ ", ".intercalate ([d.year, d.month, d.day].map toString) ++ ")"
  | .dateTime _ t =>
    let zone := (t.offset.map fun o => ", tzinfo=" ++ offsetLiteral o).getD ""
    "datetime.datetime(" ++ ", ".intercalate ((clockArguments t).map toString) ++ zone ++ ")"

/-- A scalar as plain text: a text is itself, a time has its ISO form, all else is literal. -/
def display : Scalar → String
  | .text s => s
  | .date _ d => d.isoText
  | .dateTime _ t => t.text " "
  | s => s.literal

/-- The anchor of a scalar. -/
def anchor : Scalar → Anchor
  | .date a _ | .dateTime a _ => a
  | _ => none

/-- A scalar with its anchor changed. -/
def mapAnchor (f : Nat → Anchor) : Scalar → Scalar
  | .date a d => .date (a.bind f) d
  | .dateTime a t => .dateTime (a.bind f) t
  | s => s

end Scalar

end ApiContract
