import ApiContract.Tree.Basic

/-!
# Types

What named schemas compile to: records, unions of records and closed enumerations, and the type
expressions that their fields are made of.
-/

namespace ApiContract

/-- The types without parts. -/
inductive Primitive where
  | string
  | integer
  | number
  | boolean
  | bytes
  | date
  | dateTime
  | any
  | empty
deriving DecidableEq, Repr

/-- A type expression. A nullable one also has the absent value. The format of a primitive is the one
that its schema names. A description from elsewhere may miss the name of a named type. -/
inductive TypeExpr where
  | primitive (p : Primitive) (format : Option String) (nullable : Bool)
  | array (item : TypeExpr) (unique nullable : Bool)
  | map (value : TypeExpr) (nullable : Bool)
  | named (name : Option String) (nullable : Bool)
deriving DecidableEq, Repr

namespace Primitive

/-- The code of a primitive. -/
def code : Primitive → String
  | .string => "string"
  | .integer => "integer"
  | .number => "number"
  | .boolean => "boolean"
  | .bytes => "bytes"
  | .date => "date"
  | .dateTime => "datetime"
  | .any => "any"
  | .empty => "empty"

/-- The spelling of a primitive in generated code. -/
def spelling : Primitive → String
  | .string => "str"
  | .integer => "int"
  | .number => "float"
  | .boolean => "bool"
  | .bytes => "bytes"
  | .date => "date"
  | .dateTime => "datetime"
  | .any => "Any"
  | .empty => "EmptyModel"

/-- Every primitive. -/
def all : List Primitive :=
  [.string, .integer, .number, .boolean, .bytes, .date, .dateTime, .any, .empty]

end Primitive

namespace TypeExpr

/-- The type of every value. -/
def any : TypeExpr := .primitive .any none false

/-- The type of plain strings. -/
def string : TypeExpr := .primitive .string none false

/-- Whether the absent value belongs to the type. -/
def nullable : TypeExpr → Bool
  | .primitive _ _ n => n
  | .array _ _ n => n
  | .map _ n => n
  | .named _ n => n

/-- The one named type that an expression mentions, if it does. -/
def name? : TypeExpr → Option String
  | .named n _ => n
  | .array item _ _ => item.name?
  | .map value _ => value.name?
  | .primitive .. => none

/-- The name under which the named type of an expression is looked up. -/
def target? : TypeExpr → Option String
  | .named n _ => some (n.getD "")
  | .array item _ _ => item.target?
  | .map value _ => value.target?
  | .primitive .. => none

/-- The primitives that an expression mentions. -/
def primitives : TypeExpr → List Primitive
  | .primitive p _ _ => [p]
  | .array item _ _ => item.primitives
  | .map value _ => value.primitives
  | .named .. => []

/-- Marks a spelling as optional. -/
def optionalText (nullable : Bool) (text : String) : String :=
  if nullable then "Optional[" ++ text ++ "]" else text

/-- The spelling of an expression in generated code. -/
def spelling : TypeExpr → String
  | .primitive p _ n => optionalText n p.spelling
  | .array item _ n => optionalText n ("list[" ++ item.spelling ++ "]")
  | .map value n => optionalText n ("dict[str, " ++ value.spelling ++ "]")
  | .named name n => optionalText n (if name.getD "" = "" then "Any" else name.getD "")

end TypeExpr

/-- A field of a record. Its name stands in generated code, its wire name in documents. A field that is
not required may be absent and is then not written. -/
structure Field where
  name : String
  wireName : String
  type : TypeExpr
  required : Bool
  description : Option String
deriving DecidableEq, Repr

/-- What a record holds: fields, and the type of further entries if there may be any. -/
structure Body where
  fields : List Field
  extra : Option TypeExpr
deriving DecidableEq, Repr

/-- A case of a union. The tag is the discriminator's value that selects it. -/
structure Variant where
  name : String
  tag : Option String
  schemaName : String
  body : Body
  description : Option String
deriving DecidableEq, Repr

/-- A literal of an enumeration and its name. -/
structure Member where
  name : String
  value : Tree
deriving DecidableEq

/-- The shapes of named types. -/
inductive TypeShape where
  | record (body : Body)
  | tagged (discriminator : Option String) (variants : List Variant)
  | untagged (variants : List Variant)
  | enumeration (members : List Member)
deriving DecidableEq

/-- A named type. -/
structure NamedType where
  name : String
  schemaName : String
  description : Option String
  shape : TypeShape
deriving DecidableEq

namespace Body

/-- The type expressions of a record. -/
def types (b : Body) : List TypeExpr :=
  b.fields.map (·.type) ++ b.extra.toList

end Body

namespace NamedType

/-- The code of a type's shape. -/
def kind (t : NamedType) : String :=
  match t.shape with
  | .record _ => "struct"
  | .tagged .. => "tagged_union"
  | .untagged _ => "untagged_union"
  | .enumeration _ => "enum"

/-- The variants of a union. -/
def variants (t : NamedType) : List Variant :=
  match t.shape with
  | .tagged _ vs | .untagged vs => vs
  | _ => []

/-- The members of an enumeration. -/
def members (t : NamedType) : List Member :=
  match t.shape with
  | .enumeration ms => ms
  | _ => []

/-- Whether the type is an enumeration. -/
def isEnumeration (t : NamedType) : Bool :=
  match t.shape with
  | .enumeration _ => true
  | _ => false

/-- The names of the types that a type is made of. -/
def dependencies (t : NamedType) : List String :=
  let types := match t.shape with
    | .record body => body.types
    | .tagged _ vs | .untagged vs => vs.flatMap fun (v : Variant) => v.body.types
    | .enumeration _ => []
  (types.filterMap TypeExpr.name?).eraseDups

end NamedType

end ApiContract
