import ApiContract.Tree.Basic

/-!
# Mismatches

What is wrong when a value does not have the shape that is asked of it: a place inside the value and
a cause. Causes have a code, for programs, and a wording, for readers.
-/

namespace ApiContract

/-- One step into a value: a field or key by name, or an item by index. -/
inductive Step where
  | name (s : String)
  | index (n : Int)
deriving DecidableEq, Repr

/-- Why a value does not fit. -/
inductive Mismatch.Cause where
  | missing
  | textType
  | textEncoding
  | truthType
  | truthParsing
  | wholeType
  | wholeParsing
  | wholeFromFraction
  | wholeTooLong
  | wholeFromNotFinite
  | realType
  | realParsing
  | octetsType
  | listType
  | mapType
  | arrayType
  | objectType
  | recordObjectType
  | recordType (record : String)
  | instanceType (record : String)
  | dateType
  | dateParsing (reason : String)
  | dateFromTimeParsing (reason : String)
  | dateFromTimeInexact
  | timeType
  | timeParsing (reason : String)
  | oneOf (choices : List String)
  | rule (message : String)
  | tagUnknown (tag : String) (expected : List String)
  | tagMissing
  | jsonSyntax (reason : String)
deriving DecidableEq, Repr

/-- A cause and the way to the value that it concerns. -/
structure Mismatch where
  path : List Step
  cause : Mismatch.Cause
deriving DecidableEq, Repr

namespace Mismatch

/-- Puts steps in front of the way. -/
def under (steps : List Step) (m : Mismatch) : Mismatch :=
  { m with path := steps ++ m.path }

/-- A way as text: names with points between them, and indices in brackets. -/
def pathText (steps : List Step) : String :=
  steps.foldl (fun path step => match step with
    | .index n => path ++ "[" ++ toString n ++ "]"
    | .name s => if path.isEmpty then s else path ++ "." ++ s) ""

/-- Names in quotes, separated by commas, the last one after `or`. -/
def alternatives : List String → String
  | [] => ""
  | [a] => "'" ++ a ++ "'"
  | [a, b] => "'" ++ a ++ "' or '" ++ b ++ "'"
  | a :: rest => "'" ++ a ++ "', " ++ alternatives rest

/-- The code of a cause. -/
def Cause.code : Cause → String
  | .missing => "missing"
  | .textType => "string_type"
  | .textEncoding => "string_unicode"
  | .truthType => "bool_type"
  | .truthParsing => "bool_parsing"
  | .wholeType => "int_type"
  | .wholeParsing => "int_parsing"
  | .wholeFromFraction => "int_from_float"
  | .wholeTooLong => "int_parsing_size"
  | .wholeFromNotFinite => "finite_number"
  | .realType => "float_type"
  | .realParsing => "float_parsing"
  | .octetsType => "bytes_type"
  | .listType => "list_type"
  | .mapType => "dict_type"
  | .arrayType => "list_type"
  | .objectType => "dict_type"
  | .recordObjectType => "model_type"
  | .recordType _ => "model_type"
  | .instanceType _ => "model_type"
  | .dateType => "date_type"
  | .dateParsing _ => "date_parsing"
  | .dateFromTimeParsing _ => "date_from_datetime_parsing"
  | .dateFromTimeInexact => "date_from_datetime_inexact"
  | .timeType => "datetime_type"
  | .timeParsing _ => "datetime_parsing"
  | .oneOf _ => "enum"
  | .rule _ => "value_error"
  | .tagUnknown .. => "union_tag_invalid"
  | .tagMissing => "union_tag_not_found"
  | .jsonSyntax _ => "json_invalid"

/-- The wording of a cause. -/
def Cause.message : Cause → String
  | .missing => "Field required"
  | .textType => "Input should be a valid string"
  | .textEncoding => "Input should be a valid string, unable to parse raw data as a unicode string"
  | .truthType => "Input should be a valid boolean"
  | .truthParsing => "Input should be a valid boolean, unable to interpret input"
  | .wholeType => "Input should be a valid integer"
  | .wholeParsing => "Input should be a valid integer, unable to parse string as an integer"
  | .wholeFromFraction => "Input should be a valid integer, got a number with a fractional part"
  | .wholeTooLong => "Unable to parse input string as an integer, exceeded maximum size"
  | .wholeFromNotFinite => "Input should be a finite number"
  | .realType => "Input should be a valid number"
  | .realParsing => "Input should be a valid number, unable to parse string as a number"
  | .octetsType => "Input should be a valid bytes"
  | .listType => "Input should be a valid list"
  | .mapType => "Input should be a valid dictionary"
  | .arrayType => "Input should be a valid array"
  | .objectType | .recordObjectType => "Input should be an object"
  | .recordType r => "Input should be a valid dictionary or instance of " ++ r
  | .instanceType r => "Input should be an instance of " ++ r
  | .dateType => "Input should be a valid date"
  | .dateParsing reason => "Input should be a valid date in the format YYYY-MM-DD, " ++ reason
  | .dateFromTimeParsing reason =>
    "Input should be a valid date or datetime, " ++ reason
  | .dateFromTimeInexact =>
    "Datetimes provided to dates should have zero time - e.g. be exact dates"
  | .timeType => "Input should be a valid datetime"
  | .timeParsing reason => "Input should be a valid datetime, " ++ reason
  | .oneOf choices => "Input should be " ++ alternatives choices
  | .rule message => "Value error, " ++ message
  | .tagUnknown tag expected =>
    "Input tag '" ++ tag ++ "' found using read_tag() does not match any of the expected tags: " ++
      ", ".intercalate (expected.map fun t => "'" ++ t ++ "'")
  | .tagMissing => "Unable to extract tag using discriminator read_tag()"
  | .jsonSyntax reason => "Invalid JSON: " ++ reason

end Mismatch

end ApiContract

/-!
## Reports on mismatches

A list of mismatches for readers: for each one the way to the value, the wording and the code of the
cause, the value itself, cut where it is long, and where the cause is explained.
-/

namespace ApiContract.Mismatch

/-- A step on a way. A name with a point in it is quoted. -/
def stepText : Step → String
  | .index n => toString n
  | .name s => if s.toList.contains '.' then "`" ++ s ++ "`" else s

/-- The part of a tree at the end of a way. -/
def partAt (t : Tree) : List Step → Tree
  | [] => t
  | .name s :: rest => partAt (t.getD s) rest
  | .index n :: rest => partAt (((t.items?.getD [])[n.toNat]?).getD .null) rest

/-- The value that a mismatch concerns: what is missing concerns the value that should hold it. -/
def concerned (m : Mismatch) (t : Tree) : Tree :=
  partAt t (if m.cause = .missing then m.path.dropLast else m.path)

/-- The first characters of a text that take no more than a number of octets. -/
def takeOctets : Nat → List Char → List Char
  | _, [] => []
  | room, c :: rest => if c.utf8Size ≤ room then c :: takeOctets (room - c.utf8Size) rest else []

/-- A text of at most fifty octets, or the beginning and the end of a longer one. -/
def shortened (text : String) : String :=
  if text.utf8ByteSize ≤ 50 then text
  else String.ofList (takeOctets 25 text.toList ++ "...".toList ++
    (takeOctets 24 text.toList.reverse).reverse)

/-- Where a cause is explained. -/
def page (c : Cause) : String :=
  "https:" ++ "//errors.pydantic.dev/2.14/v/" ++ c.code

/-- The lines on one mismatch in a tree. -/
def lines (t : Tree) (m : Mismatch) : List String :=
  let value := m.concerned t
  (if m.path.isEmpty then [] else [".".intercalate (m.path.map stepText)]) ++
    ["  " ++ m.cause.message ++ " [type=" ++ m.cause.code ++ ", input_value=" ++
        shortened value.literal ++ ", input_type=" ++ value.typeName ++ "]",
      "    For further information visit " ++ page m.cause]

/-- The report on the mismatches of a tree that should be a record. -/
def report (record : String) (t : Tree) (ms : List Mismatch) : String :=
  let count := toString ms.length ++ " validation error" ++ (if ms.length = 1 then "" else "s")
  "\n".intercalate ((count ++ " for " ++ record) :: ms.flatMap (lines t))

end ApiContract.Mismatch
