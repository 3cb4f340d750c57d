import ApiContract.Calendar.Reading
import ApiContract.Models
import ApiContract.Record

/-!
# Values of a type

`Models.conform` checks a value against a type expression and gives the value of that type that it
stands for, or everything that is wrong with it. Nothing is converted from one kind to another, with
these exceptions: a whole number is also a number; a literal of an enumeration becomes its member; a map
becomes the record whose fields it has, by their wire names or else by their own; and in a text that
has been read as JSON a date, a time or octets stand as a string, except within records.

The recursion follows the value, so types need no measure: a type that is mentioned is checked against
a part of the value, and a union against the same value as one of its records.
-/

namespace ApiContract.Models

open Record

/-- Where a value comes from, which decides whether strings stand for dates, times and octets. -/
inductive Origin where
  /-- From the text of a body, outside records. -/
  | text
  /-- From a program, or from within a record. -/
  | program
deriving DecidableEq, Repr

/-- A check of a value that is given its origin and the type that is asked for. -/
abbrev Conform := Origin → TypeExpr → Check Value

/-- The type with the absent value. -/
def orAbsent : TypeExpr → TypeExpr
  | .primitive p f _ => .primitive p f true
  | .array i u _ => .array i u true
  | .map v _ => .map v true
  | .named n _ => .named n true

/-! ## Scalars -/

/-- A whole number as a number. A program's must be small enough. -/
def realOfInt (origin : Origin) (n : Int) : Check Value :=
  let x := Decimal.ofInt n
  if origin = .program ∧ Decimal.integer? x = Option.none then wrong .realType
  else .ok (.scalar (.float x))

/-- A text as a date. -/
def dateOfText (s : String) : Check Value :=
  match Calendar.readDate s.toUTF8.toList with
  | .ok d => .ok (.scalar (.date Option.none d))
  | .error f => wrong (.dateParsing f.message)

/-- A text as a time. -/
def timeOfText (s : String) : Check Value :=
  match Calendar.readTime s.toUTF8.toList with
  | .ok t => .ok (.scalar (.dateTime Option.none t))
  | .error f => wrong (.timeParsing f.message)

/-- What is wrong with a value that is not of a primitive type. -/
def expected : Primitive → Mismatch.Cause
  | .string => .textType
  | .integer => .wholeType
  | .number => .realType
  | .boolean => .truthType
  | .bytes => .octetsType
  | .date => .dateType
  | .dateTime => .timeType
  | .any | .empty => .recordObjectType

/-- Checks a scalar against a primitive type. -/
def conformPrimitive (origin : Origin) (p : Primitive) (s : Scalar) : Check Value :=
  match p, s, origin with
  | .any, s, _ => .ok (.scalar s)
  | .string, .text t, _ => .ok (.text t)
  | .integer, .int n, _ => .ok (.scalar (.int n))
  | .number, .float x, _ => .ok (.scalar (.float x))
  | .number, .int n, _ => realOfInt origin n
  | .boolean, .bool b, _ => .ok (.scalar (.bool b))
  | .bytes, .bytes bs, _ => .ok (.scalar (.bytes bs))
  | .bytes, .text t, .text => .ok (.scalar (.bytes t.toUTF8.toList))
  | .date, .date _ d, _ => .ok (.scalar (.date Option.none d))
  | .date, .text t, .text => dateOfText t
  | .dateTime, .dateTime _ t, _ => .ok (.scalar (.dateTime Option.none t))
  | .dateTime, .text t, .text => timeOfText t
  | p, _, _ => wrong (expected p)

/-! ## Enumerations -/

/-- The wording of a value that is no literal of an enumeration. -/
def notAMemberMessage (v : Value) : String :=
  "invalid enum variant `" ++ v.written ++ "`"

/-- The member that a value is, or whose literal it is. -/
def memberOf? (enumeration : String) (members : List Member) (v : Value) : Option Value :=
  match v with
  | .member e _ => if e = enumeration then some v else Option.none
  | v => (v.toTree?.bind (Member.ofLiteral? members)).map (.member enumeration)

/-- Checks a value against an enumeration: its own members and its literals fit. -/
def conformMember (enumeration : String) (members : List Member) (v : Value) : Check Value :=
  match memberOf? enumeration members v with
  | some v => .ok v
  | Option.none => wrong (.rule (notAMemberMessage v))

/-! ## Records -/

/-- The parts of a map, with their checks. -/
abbrev Parts := List (String × Value × Conform)

/-- The key under which a map holds a field: the wire name, or else the field's own name. -/
def keyOf? (parts : Parts) (f : Field) : Option (String × Value × Conform) :=
  (parts.find? fun p => p.1 = f.wireName).or (parts.find? fun p => p.1 = f.name)

/-- Checks a field. One that is not required may be absent, which is its value then. -/
def conformField (parts : Parts) (f : Field) : Check (String × Value) :=
  match keyOf? parts f with
  | some (key, _, check) =>
    field key ((check .program (if f.required then f.type else orAbsent f.type)).map (f.name, ·))
  | Option.none => if f.required then field f.wireName (wrong .missing) else .ok (f.name, .null)

/-- Checks what no field has taken; where no further entries are allowed, it is left out. -/
def conformExtra (parts : Parts) (body : Body) : Check (List (String × Value)) :=
  match body.extra with
  | Option.none => .ok []
  | some type =>
    let taken := body.fields.filterMap fun f => (keyOf? parts f).map (·.1)
    each ((parts.filter fun p => !taken.contains p.1).map fun (key, _, check) =>
      field key ((check .program type).map (key, ·)))

/-- Makes a record of a map. The property of the tag is no field. -/
def conformParts (type : RecordType) (parts : Parts) : Check Value := do
  let parts := match type.discriminator with
    | some key => parts.filter fun p => p.1 ≠ key
    | Option.none => parts
  let (fields, extra) ←
    both (each (type.body.fields.map (conformField parts))) (conformExtra parts type.body)
  return .record type fields extra

/-- What a value has that a record could be made of. -/
inductive Content where
  /-- A record already. -/
  | record (type : RecordType)
  | parts (ps : Parts)
  | other

/-- Checks a value against a type of records. -/
def conformRecord (type : RecordType) (v : Value) : Content → Check Value
  | .record t => if t.name = type.name then .ok v else wrong .recordObjectType
  | .parts ps => conformParts type ps
  | .other => wrong .recordObjectType

/-! ## Unions -/

/-- The tag that selects a case. -/
def selector (v : Variant) : String :=
  match v.tag with
  | some t => if t.isEmpty then v.name else t
  | Option.none => v.name

/-- The tags of a union. -/
def selectors (variants : List Variant) : List String :=
  (variants.map selector).eraseDups

/-- The tag that a value carries. -/
def tagOf (discriminator : String) : Content → Option String
  | .record t => t.tag
  | .parts ps => match ps.find? fun p => p.1 = discriminator with
    | some (_, .text s, _) => some s
    | _ => Option.none
  | .other => Option.none

/-- Checks a value against a union with tags: the tag alone selects the case. -/
def conformTagged (union : String) (discriminator : Option String) (variants : List Variant)
    (v : Value) (content : Content) : Check Value :=
  match tagOf (discriminator.getD "") content with
  | Option.none => wrong .tagMissing
  | some tag =>
    match variants.reverse.find? fun c => selector c = tag with
    | Option.none => wrong (.tagUnknown tag (selectors variants))
    | some c => field tag (conformRecord (.ofVariant union discriminator c.tag c) v content)

/-- Checks a value against the cases of a union one by one: the first that fits is its own. -/
def conformFirst (union : String) (v : Value) (content : Content) :
    List Variant → Check Value
  | [] => .error []
  | c :: rest =>
    match field c.name (conformRecord (.ofVariant union Option.none Option.none c) v content) with
    | .ok v => .ok v
    | .error e => (conformFirst union v content rest).mapError (e ++ ·)

/-- Checks a value against a named type. -/
def conformNamed (t : NamedType) (v : Value) (content : Content) : Check Value :=
  match t.shape with
  | .enumeration members => conformMember t.name members v
  | .record body => conformRecord (.ofNamed t.name body) v content
  | .tagged d [c] => conformRecord (.ofVariant t.name d c.tag c) v content
  | .untagged [c] => conformRecord (.ofVariant t.name Option.none Option.none c) v content
  | .tagged d variants => conformTagged t.name d variants v content
  | .untagged variants => conformFirst t.name v content variants

/-! ## All values -/

/-- Checks a value that is no list and no map against an expression of one level. -/
def conformLeaf (m : Models) (v : Value) (content : Content) (type : TypeExpr) : Check Value :=
  match type with
  | .primitive .any _ _ => .ok v
  | .primitive .empty _ _ => conformRecord .empty v content
  | .primitive p _ _ => wrong (expected p)
  | .array .. => wrong .arrayType
  | .map .. => wrong .objectType
  | .named n _ => match m.find? (n.getD "") with
    | some t => conformNamed t v content
    | Option.none => wrong .recordObjectType

/-- Checks a scalar. -/
def conformScalar (m : Models) (s : Scalar) : Conform := fun origin type =>
  if s = .null ∧ type.nullable then .ok .null
  else match type with
    | .primitive .empty _ _ => wrong .recordObjectType
    | .primitive p _ _ => conformPrimitive origin p s
    | type => conformLeaf m (.scalar s) .other type

/-- Checks the items of a list. -/
def conformList (m : Models) (items : List (Value × Conform)) : Conform := fun origin type =>
  match type with
  | .array item _ _ =>
    (each (items.mapIdx fun i (_, check) => at_ [.index i] (check origin item))).map .list
  | type => conformLeaf m (Value.list (items.map (·.1))).merged .other type

/-- Checks the entries of a map, where a text may give a key more than once: every value has to fit, and
the last one counts. -/
def conformMap (m : Models) (parts : Parts) : Conform := fun origin type =>
  match type with
  | .map value _ =>
    (each (parts.map fun (k, _, check) => field k ((check origin value).map (k, ·)))).map fun es =>
      .map (Value.mergeKeys es)
  | type =>
    conformLeaf m (Value.map (parts.map fun (k, v, _) => (k, v))).merged
      (.parts (Value.mergeKeys parts)) type

/-- Checks a value against a type expression. -/
def conform (m : Models) : Value → Conform :=
  Value.para (conformScalar m) (conformList m) (conformMap m)
    (fun type fields extra _ =>
      let v := .record type (fields.map fun (k, v, _) => (k, v)) (extra.map fun (k, v, _) => (k, v))
      conformLeaf m v (.record type))
    (fun e member _ => conformLeaf m (.member e member) .other)
    (fun n _ => conformLeaf m (.foreign n) .other)

end ApiContract.Models
