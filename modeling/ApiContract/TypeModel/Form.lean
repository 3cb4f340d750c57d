import ApiContract.Record
import ApiContract.TypeModel.Basic

/-!
# The form of types

Types in the form of trees, in which tools hand them on: `toTree` leaves out what is absent, and
`ofTree` takes it as absent.
-/

namespace ApiContract

open Record

namespace Tree

/-- A record of the fields that are present. -/
def fields (fs : List (String × Option Tree)) : Tree :=
  .object (fs.filterMap fun (k, v) => v.map fun t => (k, t))

/-- A flag, present only if it is set. -/
def flag (b : Bool) : Option Tree :=
  if b then some (.scalar (.bool true)) else none

/-- A text, if there is one. -/
def textField (s : Option String) : Option Tree :=
  s.map Tree.text

/-- A list, present only if it has items. -/
def many (items : List Tree) : Option Tree :=
  if items.isEmpty then none else some (.array items)

end Tree

namespace TypeExpr

/-- The form of a type expression. -/
def toTree : TypeExpr → Tree
  | .primitive p format n => Tree.fields [
      ("kind", some (.text p.code)), ("format", Tree.textField format), ("nullable", Tree.flag n)]
  | .array item u n => Tree.fields [
      ("kind", some (.text "array")), ("item", some item.toTree), ("unique", Tree.flag u),
      ("nullable", Tree.flag n)]
  | .map v n => Tree.fields [
      ("kind", some (.text "map")), ("item", some v.toTree), ("nullable", Tree.flag n)]
  | .named name n => Tree.fields [
      ("kind", some (.text "named")), ("name", Tree.textField name), ("nullable", Tree.flag n)]

/-- The codes of all kinds of type expressions. -/
def codes : List String :=
  ["string", "integer", "number", "boolean", "bytes", "date", "datetime", "array", "map", "any",
    "empty", "named"]

/-- The type expression of a kind with its parts. -/
def ofParts (kind : String) (format : Option String) (item : Option TypeExpr) (unique : Bool)
    (name : Option String) (nullable : Bool) : TypeExpr :=
  let item := item.getD .any
  match kind with
  | "array" => .array item unique nullable
  | "map" => .map item nullable
  | "named" => .named name nullable
  | code => .primitive ((Primitive.all.find? fun p => p.code = code).getD .any) format nullable

/-- The type expression of entries; `item` is the one under the key of that name. -/
def ofEntries (es : Entries) (item : Option (Check TypeExpr)) : Check TypeExpr := do
  let item := match es.get? "item", item with
    | some .null, _ | none, _ | _, none => .ok none
    | _, some c => field "item" (c.map some)
  let (kind, (format, item), (unique, name), nullable) ←
    both (required es "kind" (choice codes))
      (both (both (withDefault es "format" none textOrNone) item)
        (both (both (withDefault es "unique" false looseTruth) (withDefault es "name" none textOrNone))
          (withDefault es "nullable" false looseTruth)))
  return ofParts kind format item unique name nullable

/-- The type expression that a tree is. -/
def ofTree : Tree → Check TypeExpr :=
  Tree.para {
    scalar _ := wrong (.recordType "TypeRef")
    list _ _ := wrong (.recordType "TypeRef")
    map _ entries := ofEntries (entries.map fun (k, t, _) => (k, t))
      ((entries.find? fun e => e.1 = .text "item").map fun e => e.2.2)
    set _ _ := wrong (.recordType "TypeRef")
    pair _ _ := wrong (.recordType "TypeRef")
    back _ _ := wrong (.recordType "TypeRef") }

end TypeExpr

/-- The form of a field. -/
def Field.toTree (f : Field) : Tree := Tree.fields [
  ("name", some (.text f.name)), ("json_name", some (.text f.wireName)),
  ("type", some f.type.toTree), ("required", some (.scalar (.bool f.required))),
  ("description", Tree.textField f.description)]

/-- The field that a tree is. -/
def Field.ofTree (t : Tree) : Check Field := do
  let es ← entriesOf "FieldDef" t
  let ((name, wireName), type, required, description) ←
    both (both (Record.required es "name" text) (Record.required es "json_name" text))
      (both (Record.required es "type" TypeExpr.ofTree)
        (both (Record.required es "required" looseTruth) (withDefault es "description" none textOrNone)))
  return { name, wireName, type, required, description }

/-- The body of a record that entries hold. -/
def Body.ofEntries (es : Entries) : Check Body := do
  let (fields, extra) ← both (withDefault es "fields" [] (listOf Field.ofTree))
    (withDefault es "extra" none (optional TypeExpr.ofTree))
  return ⟨fields, extra⟩

/-- The fields of the form of a record's body. -/
def Body.toFields (b : Body) : List (String × Option Tree) :=
  [("fields", Tree.many (b.fields.map Field.toTree)), ("extra", b.extra.map TypeExpr.toTree)]

/-- The form of a case of a union. -/
def Variant.toTree (v : Variant) : Tree := Tree.fields ([
  ("name", some (.text v.name)), ("tag", Tree.textField v.tag),
  ("schema_name", some (.text v.schemaName))] ++ v.body.toFields ++
  [("description", Tree.textField v.description)])

/-- The case of a union that a tree is. -/
def Variant.ofTree (t : Tree) : Check Variant := do
  let es ← entriesOf "VariantDef" t
  let ((name, tag), schemaName, body, description) ←
    both (both (required es "name" text) (withDefault es "tag" none textOrNone))
      (both (required es "schema_name" text)
        (both (Body.ofEntries es) (withDefault es "description" none textOrNone)))
  return { name, tag, schemaName, body, description }

/-- The form of a member of an enumeration. -/
def Member.toTree (m : Member) : Tree :=
  .object [("name", .text m.name), ("value", m.value)]

/-- The member of an enumeration that a tree is. -/
def Member.ofTree (t : Tree) : Check Member := do
  let es ← entriesOf "EnumMember" t
  let (name, value) ← both (required es "name" text) (required es "value" .ok)
  return ⟨name, value⟩

namespace NamedType

/-- The fields of the form of a named type. -/
def toFields (t : NamedType) : List (String × Option Tree) :=
  [("name", some (.text t.name)), ("kind", some (.text t.kind)),
    ("schema_name", some (.text t.schemaName)), ("description", Tree.textField t.description)] ++
  match t.shape with
  | .record b => b.toFields
  | .tagged d vs =>
    [("discriminator", Tree.textField d), ("variants", Tree.many (vs.map Variant.toTree))]
  | .untagged vs => [("variants", Tree.many (vs.map Variant.toTree))]
  | .enumeration ms => [("members", Tree.many (ms.map Member.toTree))]

/-- The codes of all kinds of named types. -/
def codes : List String := ["struct", "tagged_union", "untagged_union", "enum"]

/-- The shape of a kind with its parts. -/
def shapeOf (kind : String) (body : Body) (discriminator : Option String) (variants : List Variant)
    (members : List Member) : TypeShape :=
  match kind with
  | "enum" => .enumeration members
  | "struct" => .record body
  | "tagged_union" => .tagged discriminator variants
  | _ => .untagged variants

/-- The named type that a tree is. -/
def ofTree (t : Tree) : Check NamedType := do
  let es ← entriesOf "CompiledType" t
  let ((name, kind), (schemaName, description), body, discriminator, variants, members) ←
    both (both (required es "name" text) (required es "kind" (choice codes)))
      (both (both (required es "schema_name" text) (withDefault es "description" none textOrNone))
        (both (Body.ofEntries es)
          (both (withDefault es "discriminator" none textOrNone)
            (both (withDefault es "variants" [] (listOf Variant.ofTree))
              (withDefault es "members" [] (listOf Member.ofTree))))))
  return { name, schemaName, description
           shape := shapeOf kind body discriminator variants members }

end NamedType

end ApiContract
