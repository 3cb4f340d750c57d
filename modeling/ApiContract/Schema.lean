import ApiContract.Failure
import ApiContract.Reference

/-!
# Schemas

The kind of a schema, decided in one way for every consumer. A `type` wins; a list of types must name
one besides `null`. Otherwise the first of `oneOf`, `allOf`, `anyOf`, `not` decides, then the
presence of properties. What is left is an *any* schema, which is trivial if it holds annotations
alone.
-/

namespace ApiContract

/-- The kinds of schema. -/
inductive SchemaKind where
  | object
  | array
  | string
  | number
  | integer
  | boolean
  | oneOf
  | allOf
  | anyOf
  | not
  | any
deriving DecidableEq, Repr

namespace SchemaKind

/-- The keyword or type name of a kind. -/
def name : SchemaKind → String
  | .object => "object"
  | .array => "array"
  | .string => "string"
  | .number => "number"
  | .integer => "integer"
  | .boolean => "boolean"
  | .oneOf => "oneOf"
  | .allOf => "allOf"
  | .anyOf => "anyOf"
  | .not => "not"
  | .any => "any"

/-- The kinds that a `type` can name. -/
def typed : List SchemaKind := [.object, .array, .string, .number, .integer, .boolean]

/-- The kinds that a keyword decides, in the order in which they are looked for. -/
def composite : List SchemaKind := [.oneOf, .allOf, .anyOf, .not]

/-- The kinds of single values. -/
def isScalar (k : SchemaKind) : Bool :=
  k == .string || k == .number || k == .integer || k == .boolean

end SchemaKind

namespace Schema

/-- The keywords that describe a schema without restricting it. -/
def annotations : List String := [
  "$comment", "$id", "$schema", "default", "deprecated", "description", "example", "examples",
  "externalDocs", "nullable", "readOnly", "title", "writeOnly", "xml"]

/-- The kind that a value of `type` names. -/
def typedKind (value : Tree) : Except Failure SchemaKind :=
  match value with
  | .scalar s =>
    match SchemaKind.typed.find? fun k => s = .text k.name with
    | some k => .ok k
    | none => .error (.unknownType value)
  | _ => .error (if value.isKey then .unknownType value else .malformed)

/-- The single kind that `type` names, besides `null`. -/
def declaredKind (schema : Entries) : Except Failure (Option SchemaKind) :=
  match schema.get? "type" with
  | none | some .null => .ok none
  | some (.list a types) =>
    match types.filter (· ≠ .text "null") with
    | [t] => some <$> typedKind t
    | _ => .error (.typeList (.list a types))
  | some t => some <$> typedKind t

/-- The kind of a schema. -/
def kind (schema : Entries) : Except Failure SchemaKind := do
  match ← declaredKind schema with
  | some k => return k
  | none =>
    match SchemaKind.composite.find? fun k => schema.has k.name with
    | some k => return k
    | none =>
      if schema.has "properties" || schema.has "additionalProperties" then return .object
      else return .any

/-- The kind of what stands where a schema should. -/
def kindOf (t : Tree) : Except Failure SchemaKind :=
  match t.entries? with
  | some schema => kind schema
  | none => .error .malformed

/-- Whether `null` is a value of the schema. -/
def isNullable (schema : Entries) : Bool :=
  (match schema.get? "type" with
    | some (.list _ types) => types.contains (.text "null")
    | _ => false) ||
  (((schema.get? "nullable").map Tree.truthy).getD false)

/-- Whether a key is an annotation or an extension. -/
def isAnnotation (key : String) : Bool :=
  annotations.contains key || "x-".toList.isPrefixOf key.toList

/-- Whether a schema holds annotations and extensions alone. Keys that are no texts are not
foreseen. -/
def isTrivial : Entries → Except Failure Bool
  | [] => .ok true
  | (.text key, _) :: rest => if isAnnotation key then isTrivial rest else .ok false
  | _ :: _ => .error .malformed

/-- The literals of an enumeration: those of `enum`, else the one of `const`. -/
def literals (schema : Entries) : List Tree :=
  match schema.get? "enum", schema.get? "const" with
  | some (.list _ values), _ => values
  | _, some value => [value]
  | _, none => []

/-- The most characters that a schema takes up in a message. -/
def briefLength : Nat := 120

/-- A text cut to a length, with an ellipsis if something was cut off. -/
def shorten (limit : Int) (text : String) : String :=
  let cs := text.toList
  if (cs.length : Int) > limit then
    let keep := limit - 3
    let kept := if keep < 0 then cs.length - keep.natAbs else keep.toNat
    String.ofList (cs.take kept ++ ['.', '.', '.'])
  else text

/-- A schema in a message. -/
def brief (t : Tree) : String :=
  shorten briefLength t.literal

/-- The formats of a string that leave it a plain string. -/
def isPlainFormat (format : Tree) : Bool :=
  format == .null || format == .text "byte" || format == .text "password"

/-- Whether what stands where a schema should is an inline string schema without literals and without
a format that changes its type. -/
def isPlainString (t : Tree) : Except Failure Bool :=
  match t with
  | .map _ schema =>
    if (Reference.ofEntries? schema).isSome then .ok false
    else do
      let k ← kind schema
      if k != .string || !(literals schema).isEmpty then return false
      match (Entries.get? schema "format").getD .null with
      | Tree.scalar s => return isPlainFormat (.scalar s)
      | _ => return false
  | _ => .ok false

end Schema

end ApiContract
