import ApiContract.MediaType
import ApiContract.Record
import ApiContract.Schema
import ApiContract.TypeModel.Basic
import ApiContract.TypeModel.Literal
import ApiContract.Unvisited

/-!
# Compiling schemas to types

Each entry of a table of schemas compiles to at most one named type: an object with properties or an
`allOf` to a record, a `oneOf` to a union, an enumerated scalar to an enumeration. Every other schema
stands for a type expression wherever it is referred to.

A named type is compiled after the types that its fields mention, so that the compiled types are in
dependency order. What is being compiled is known by its path from outside; meeting it again is a
cycle, and since the path can only grow by entries of the table, compilation ends.
-/

namespace ApiContract.Compile

/-- What has been compiled so far. -/
structure State where
  /-- The named types, in dependency order. -/
  types : List NamedType
  /-- The schemas without a type of their own, with their type expressions. -/
  inlines : List (String × TypeExpr)
  /-- The schema that each type name belongs to. -/
  owners : List (String × String)
  notices : List Notice

/-- Nothing compiled yet. -/
def State.start : State := ⟨[], [], [], []⟩

/-- Steps that may fail and keep their state then. -/
abbrev RunOn (σ : Type) := ExceptT Failure (StateM σ)

/-- Steps of the compiler. -/
abbrev Run := RunOn State

/-- A state that takes notices. -/
class Noting (σ : Type) where
  note : List Notice → σ → σ

instance : Noting State := ⟨fun notices s => { s with notices := s.notices ++ notices }⟩

-- Reading schemas changes no state but for notices, so that it is defined over any.
variable {σ : Type}

/-- A result that needs no state. -/
def lift {α : Type} (r : Except Failure α) : RunOn σ α := fun s => (r, s)

/-! ## Looking up schemas -/

/-- An entry of the table that a reference leads to. -/
structure Found (table : Entries) where
  name : String
  schema : Tree
  found : table.get? name = some schema

/-- The entry that a reference leads to; it must not be a reference itself. -/
def find (table : Entries) (reference : String) : Except Failure (Found table) := do
  let name ← Reference.schemaName reference
  match h : table.get? name with
  | none => throw (.schemaMissing reference)
  | some .null => throw (.schemaMissing reference)
  | some schema =>
    match Reference.ofTree? schema with
    | some target => throw (.schemaReferenceChain reference target)
    | none => return ⟨name, schema, h⟩

/-- The schema that a tree stands for: the target of a reference, else the tree itself. -/
def resolve (table : Entries) (t : Tree) : Except Failure Tree :=
  match Reference.ofTree? t with
  | some reference => do return (← find table reference).schema
  | none => return t

/-- The names in the table. -/
def names (table : Entries) : List String :=
  table.filterMap fun e => match e.1 with
    | .text s => some s
    | _ => none

theorem mem_names {n : String} {t : Tree} :
    ∀ {table : Entries}, table.get? n = some t → n ∈ names table
  | [], h => by simp [Entries.get?, Entries.at?] at h
  | (k, v) :: rest, h => by
    by_cases hk : k = .text n
    · subst hk; simp [names]
    · have ih := @mem_names n t rest (by simpa [Entries.get?, Entries.at?, hk] using h)
      cases k <;> simp_all [names]

/-- The type names of the entries. -/
def typeNames (table : Entries) : List String :=
  (names table).map Text.typeIdentifier

theorem mem_typeNames {table : Entries} {n : String} {t : Tree} (h : table.get? n = some t) :
    Text.typeIdentifier n ∈ typeNames table :=
  List.mem_map_of_mem (mem_names h)

/-! ## Reading schemas -/

/-- The parts of a tree that is gone through one by one: the items of a list, the keys of a map, the
characters of a text. -/
def iterate : Tree → Except Failure (List Tree)
  | .list _ ts => .ok ts
  | .map _ es => .ok (es.map fun e => .scalar e.1)
  | .set _ ms => .ok (ms.map Tree.scalar)
  | .pair x y => .ok [x, y]
  | .scalar (.text s) => .ok (s.toList.map fun c => .text (String.ofList [c]))
  | .scalar (.bytes bs) => .ok (bs.map fun b => .int b.toNat)
  | .scalar _ | .back .. => .error .malformed

/-- The parts under a key; nothing there, and what is empty, has none. -/
def partsOf (schema : Entries) (key : String) : Except Failure (List Tree) :=
  let t := schema.orNull key
  if t.truthy then iterate t else .ok []

/-- The entries of the map under a key; nothing there, and what is empty, has none. -/
def entriesOf (schema : Entries) (key : String) : Except Failure Entries :=
  let t := schema.orNull key
  if !t.truthy then .ok []
  else match t.entries? with
    | some es => .ok es
    | none => .error .malformed

/-- An optional text; anything else has the wrong shape for the field of that name. -/
def optionalText (field : String) (t : Tree) : Except Mismatch (Option String) :=
  match t with
  | .null => .ok none
  | .scalar s => match Record.textOf s with
    | .ok s => .ok (some s)
    | .error cause => .error ⟨[.name field], cause⟩
  | _ => .error ⟨[.name field], .textType⟩

/-- The optional text of a field, as the only thing that can have the wrong shape. -/
def textField (field : String) (t : Tree) : Except Failure (Option String) :=
  (optionalText field t).mapError fun m => .shape [m]

/-! ## Type expressions -/

/-- The formats that change the type of a string. -/
def stringFormat : Tree → Primitive
  | .text "date" => .date
  | .text "date-time" => .dateTime
  | .text "binary" => .bytes
  | _ => .string

/-- The type of a scalar schema. -/
def scalarType (kind : SchemaKind) (format : Tree) (nullable : Bool) : Except Failure TypeExpr := do
  if kind == .string then
    match format with
    | .scalar _ => pure ()
    | other => if other.truthy then throw .malformed
  let primitive := match kind with
    | .string => stringFormat format
    | .integer => .integer
    | .number => .number
    | _ => .boolean
  return .primitive primitive (← textField "format" format) nullable

/-- The type of what `additionalProperties` says, if there may be further properties. -/
def additionalType (additional : Option (Tree × RunOn σ TypeExpr)) : RunOn σ (Option TypeExpr) :=
  match additional with
  | none | some (.null, _) | some (.bool false, _) => return none
  | some (.bool true, _) => return some .any
  | some (_, type) => some <$> type

/-- The type expression of a schema that has no named type. -/
def inlineSchema (schema : Entries) (tree : Tree)
    (children : List (Scalar × Tree × RunOn σ TypeExpr)) : RunOn σ TypeExpr := do
  let kind ← lift (Schema.kind schema)
  let nullable := Schema.isNullable schema
  match kind with
  | .string | .number | .integer | .boolean =>
    if !(Schema.literals schema).isEmpty then throw (.inlineEnum (Schema.brief tree))
    lift (scalarType kind (schema.orNull "format") nullable)
  | .object =>
    if (schema.orNull "properties").truthy then throw (.inlineObject (Schema.brief tree))
    match ← additionalType (children.lookup (.text "additionalProperties")) with
    | none => return .primitive .empty none nullable
    | some value => return .map value nullable
  | .array =>
    let item ← match children.lookup (.text "items") with
      | some (.map .., type) => type
      | _ => return .array .any (schema.orNull "uniqueItems").truthy nullable
    return .array item (schema.orNull "uniqueItems").truthy nullable
  | .any =>
    if !(← lift (Schema.isTrivial schema)) then throw (.inlineAny (Schema.brief tree))
    return .any
  | _ => throw (.inlineComposition (Schema.brief tree))

/-- The type expression of a schema or reference, given the one of every reference. -/
def typeWith (follow : String → RunOn σ TypeExpr) : Tree → RunOn σ TypeExpr :=
  Tree.para (β := RunOn σ TypeExpr) {
    scalar _ := throw .malformed
    list _ _ := throw .malformed
    map a children :=
      let schema : Entries := children.map fun c => (c.1, c.2.1)
      match Reference.ofEntries? schema with
      | some reference => follow reference
      | none => inlineSchema schema (.map a schema) children
    set _ _ := throw .malformed
    pair _ _ := throw .malformed
    back _ _ := throw .malformed }

/-! ## Compositions -/

/-- The roles of the parts of a composition. -/
inductive Role where
  | component
  | list

/-- What a part of a composition gives in each role, given the object schemas of every reference. -/
def leafCases (follow : String → Except Failure (List Entries)) (owner : String) :
    Tree.Cases (Role → Except Failure (List Entries)) where
  scalar s role := match role with
    | .component => .error .malformed
    | .list => do
      for part in ← (if s.truthy then iterate (.scalar s) else .ok []) do
        let _ ← Schema.kindOf part
      return []
  list _ items role := match role with
    | .component => .error .malformed
    | .list => do return (← items.mapM fun i => i.2 .component).flatten
  map a children role :=
    let schema : Entries := children.map fun c => (c.1, c.2.1)
    match role with
    | .list => if schema.isEmpty then .ok [] else .error .malformed
    | .component =>
      match Reference.ofEntries? schema with
      | some reference => follow reference
      | none => do
        match ← Schema.kind schema with
        | .object => return [schema]
        | .allOf =>
          match children.lookup (.text "allOf") with
          | some (_, leaves) => leaves .list
          | none => return []
        | _ => throw (.allOfComponent owner (Schema.brief (.map a schema)))
  set _ members role := match role with
    | .component => .error .malformed
    | .list => if members.isEmpty then .ok [] else .error .malformed
  pair _ _ _ := .error .malformed
  back _ _ _ := .error .malformed

/-- The object schemas that a part of a composition is made of, given those of every reference. -/
def leavesWith (follow : String → Except Failure (List Entries)) (owner : String) (t : Tree) :
    Except Failure (List Entries) :=
  t.para (leafCases follow owner) .component

/-- The object schemas behind a reference in a composition. `path` holds the references that led
here. -/
def leavesOf (table : Entries) (owner : String) (path : List String) (reference : String) :
    Except Failure (List Entries) :=
  match find table reference with
  | .error f => .error f
  | .ok found =>
    if _h : found.name ∈ path then .error (.dependencyCycle (owner :: path ++ [found.name]))
    else leavesWith (fun r => leavesOf table owner (path ++ [found.name]) r) owner found.schema
termination_by unvisited (names table) path
decreasing_by exact unvisited_append_lt (mem_names found.found) _h

/-- The object schemas at the leaves of a composition, from left to right. -/
def leaves (table : Entries) (owner : String) (schema : Tree) : Except Failure (List Entries) :=
  leavesWith (leavesOf table owner []) owner schema

/-- What a map says beside a reference, if it is one. -/
def besideReference : Tree → Tree
  | .map a es => .map a (if (Reference.ofEntries? es).isSome then Entries.erase es "$ref" else es)
  | t => t

theorem besideReference_of_direct {t : Tree} (h : Reference.ofTree? t = none) :
    besideReference t = t := by
  cases t with
  | map a es => rw [besideReference, show Reference.ofEntries? es = none from h]; rfl
  | _ => rfl

/-! ## Records -/

/-- The properties, required names and further properties of several object schemas together. -/
structure Merged where
  properties : List (Scalar × Tree)
  required : List String
  additional : Tree

/-- Adds a property. One that is there already must have the same schema. -/
def Merged.addProperty (owner : String) (m : Merged) (key : Scalar) (schema : Tree) :
    Except Failure Merged :=
  match Entries.at? key m.properties with
  | some existing =>
    if existing ≠ .null ∧ !existing.same schema then
      .error (.propertyConflict key.display owner)
    else .ok { m with properties := Entries.put key schema m.properties }
  | none => .ok { m with properties := Entries.put key schema m.properties }

/-- The names among the parts of `required`; parts that cannot be compared are not foreseen. -/
def requiredNames (parts : List Tree) : Except Failure (List String) :=
  parts.filterMapM fun t => match t with
    | .scalar (.text s) => .ok (some s)
    | t => if t.isKey then .ok none else .error .malformed

/-- Adds an object schema. -/
def Merged.add (owner : String) (m : Merged) (object : Entries) : Except Failure Merged := do
  let properties ← entriesOf object "properties"
  let m ← properties.foldlM (fun m (key, schema) => m.addProperty owner key schema) m
  let m := { m with required := m.required ++ (← requiredNames (← partsOf object "required")) }
  match object.orNull "additionalProperties" with
  | .null => return m
  | additional =>
    if m.additional ≠ .null then throw (.additionalConflict owner)
    return { m with additional := additional }

/-- Several object schemas as one. -/
def merge (owner : String) (objects : List Entries) : Except Failure Merged :=
  objects.foldlM (Merged.add owner) ⟨[], [], .null⟩

/-- The fields of a record, in the order of the properties. A field's name is made different from the
names before it. -/
def fieldsOf (table : Entries) (typeOf : Tree → RunOn σ TypeExpr) (required : List String)
    (exclude : Tree) : List String → List (Scalar × Tree) → RunOn σ (List Field)
  | _, [] => return []
  | taken, (key, schema) :: rest => do
    if Tree.scalar key == exclude then fieldsOf table typeOf required exclude taken rest
    else
      let .text wireName := key | throw .malformed
      let name := Text.uniqueName (Text.fieldIdentifier wireName) taken
      let type ← typeOf schema
      let target ← lift (resolve table schema)
      if !target.isMap then throw .malformed
      let description ← lift (textField "description" (target.getD "description"))
      let field : Field := ⟨name, wireName, type, required.contains wireName, description⟩
      return field :: (← fieldsOf table typeOf required exclude (name :: taken) rest)

/-- The record that object schemas make together. The property that tells the variants of a union
apart is left out. -/
def body (table : Entries) (typeOf : Tree → RunOn σ TypeExpr) (owner : String) (objects : List Entries)
    (exclude : Tree) : RunOn σ Body := do
  let merged ← lift (merge owner objects)
  let fields ← fieldsOf table typeOf merged.required exclude [] merged.properties
  let extra ← additionalType (some (merged.additional, typeOf merged.additional))
  return ⟨fields, extra⟩

/-! ## Unions -/

/-- A mapping target as a reference; a name alone is one of a schema in the table. -/
def mappingReference (target : String) : String :=
  if target.toList.contains '#' || target.toList.contains '/' then target
  else Reference.schemaTable ++ target

/-- The branches of a union by name, each name once. -/
def branchesFrom (table : Entries) (union : String) :
    List (String × Tree) → List Tree → Except Failure (List (String × Tree))
  | done, [] => .ok done
  | done, t :: rest =>
    match Reference.ofTree? t with
    | none => .error (.inlineBranch union (Schema.brief t))
    | some reference => do
      let found ← find table reference
      let done := if done.any (·.1 == found.name) then done else done ++ [(found.name, found.schema)]
      branchesFrom table union done rest

/-- The branches of a union by name. -/
def branches (table : Entries) (union : String) (schema : Entries) :
    Except Failure (List (String × Tree)) := do
  branchesFrom table union [] (← partsOf schema "oneOf")

/-- The tags that a mapping gives to branches. -/
def mappedTags (union : String) (branches : List (String × Tree)) (mapping : Entries) :
    Except Failure (List (String × String)) :=
  mapping.mapM fun (tag, target) => do
    let name ← Reference.schemaName (mappingReference target.display)
    if branches.any (·.1 == name) then return (tag.display, name)
    else throw (.unknownMappingTarget union tag.display name)

/-- Every branch with its tags: those of the mapping, then its own name for each branch that the
mapping leaves out. -/
def tagBranches (mapped : List (String × String)) (branches : List (String × Tree)) :
    List (String × String) :=
  mapped ++ (branches.filter fun b => !mapped.any (·.2 == b.1)).map fun b => (b.1, b.1)

/-- The object schemas of a branch. -/
def branchObjects (table : Entries) (union branch : String) (schema : Tree) :
    Except Failure (List Entries) := do
  match ← Schema.kindOf schema with
  | .object => return schema.entries?.toList
  | .allOf => leaves table union schema
  | _ => throw (.branchNotObject branch union (Schema.brief schema))

/-- One variant of a union. -/
def variant (table : Entries) (typeOf : Tree → RunOn σ TypeExpr) (union : String) (exclude : Tree)
    (taken : List String) (tag : Option String) (branch : String) (schema : Tree) :
    RunOn σ Variant := do
  let objects ← lift (branchObjects table union branch schema)
  let body ← body table typeOf union objects exclude
  let description ← lift (textField "description" (schema.getD "description"))
  return ⟨Text.uniqueName (Text.typeIdentifier branch) taken, tag, branch, body, description⟩

/-- Variants in order, each with a name of its own. -/
def variantsFrom (table : Entries) (typeOf : Tree → RunOn σ TypeExpr) (union : String) (exclude : Tree) :
    List String → List (Option String × String × Tree) → RunOn σ (List Variant)
  | _, [] => return []
  | taken, (tag, branch, schema) :: rest => do
    let v ← variant table typeOf union exclude taken tag branch schema
    return v :: (← variantsFrom table typeOf union exclude (v.name :: taken) rest)

/-- Whether whatever the later variant accepts might be taken by the earlier one: the later one has all
fields that the earlier one requires. -/
def overlaps (earlier later : Variant) : Bool :=
  earlier.body.fields.all fun f =>
    !f.required || later.body.fields.any fun g => g.wireName == f.wireName

/-- The pairs of variants that overlap. -/
def overlapNotices (union : String) : List Variant → List Notice
  | [] => []
  | v :: rest =>
    (rest.filter (overlaps v)).map (fun w => .overlap union v.name w.name) ++
      overlapNotices union rest

/-! ## Named types -/

/-- Several optional texts of one record; all that have the wrong shape are reported together. -/
def textFields (fields : List (String × Tree)) : Except Failure (List (Option String)) :=
  let results := fields.map fun (name, t) => optionalText name t
  let wrong := results.filterMap fun r => match r with
    | .error m => some m
    | .ok _ => none
  if wrong.isEmpty then
    .ok (results.map fun r => match r with
      | .ok s => s
      | .error _ => none)
  else .error (.shape wrong)

/-- An enumeration, if the schema has literals. -/
def enumeration (name schemaName : String) (schema : Entries) (kind : SchemaKind) :
    Except Failure (Option NamedType) := do
  let values := Schema.literals schema
  if values.isEmpty then return none
  if values.contains .null then
    throw (.nullableEnum schemaName (Tree.array values).literal)
  let values := if kind == .string then values.map fun v => Tree.text v.display else values
  let members := ((Literal.memberNames values).zip values).map fun (n, v) => Member.mk n v
  let description ← textField "description" (schema.orNull "description")
  return some ⟨name, schemaName, description, .enumeration members⟩

/-- A union whose variants a property tells apart. -/
def taggedUnion (table : Entries) (typeOf : Tree → RunOn σ TypeExpr) (name schemaName : String)
    (schema discriminator : Entries) : RunOn σ NamedType := do
  let tagField := discriminator.orNull "propertyName"
  if !tagField.truthy then throw (.emptyDiscriminator schemaName)
  let branches ← lift (branches table name schema)
  let mapping ← lift (entriesOf discriminator "mapping")
  let mapped ← lift (mappedTags name branches mapping)
  let tagged := (tagBranches mapped branches).map fun (tag, branch) =>
    (some tag, branch, (branches.lookup branch).getD .null)
  let variants ← variantsFrom table typeOf name tagField [] tagged
  let texts ← lift (textFields
    [("description", schema.orNull "description"), ("discriminator", tagField)])
  let [description, some field] := texts | throw .malformed
  return ⟨name, schemaName, description, .tagged (some field) variants⟩

/-- A union whose variants are tried in order. -/
def untaggedUnion [Noting σ] (table : Entries) (typeOf : Tree → RunOn σ TypeExpr)
    (name schemaName : String) (schema : Entries) : RunOn σ NamedType := do
  let branches ← lift (branches table name schema)
  let variants ← variantsFrom table typeOf name .null [] (branches.map fun (n, t) => (none, n, t))
  modify (Noting.note (overlapNotices name variants))
  let description ← lift (textField "description" (schema.orNull "description"))
  return ⟨name, schemaName, description, .untagged variants⟩

/-- A record. -/
def record (table : Entries) (typeOf : Tree → RunOn σ TypeExpr) (name schemaName : String)
    (schema : Entries) (objects : List Entries) : RunOn σ NamedType := do
  let body ← body table typeOf name objects .null
  let description ← lift (textField "description" (schema.orNull "description"))
  return ⟨name, schemaName, description, .record body⟩

/-- The named type of a schema, if it has one. -/
def schemaType [Noting σ] (table : Entries) (typeOf : Tree → RunOn σ TypeExpr)
    (name schemaName : String) (tree : Tree) : RunOn σ (Option NamedType) := do
  let some schema := tree.entries? | throw .malformed
  match ← lift (Schema.kind schema) with
  | .object =>
    if !(schema.orNull "properties").truthy then return none
    some <$> record table typeOf name schemaName schema [schema]
  | .array => return none
  | .oneOf =>
    match schema.get? "discriminator" with
    | some (.map _ discriminator) =>
      some <$> taggedUnion table typeOf name schemaName schema discriminator
    | _ => some <$> untaggedUnion table typeOf name schemaName schema
  | .allOf =>
    let objects ← lift (leaves table name (besideReference tree))
    some <$> record table typeOf name schemaName schema objects
  | .anyOf => throw (.anyOfNamed schemaName (Schema.brief tree))
  | .not => throw (.notNamed schemaName (Schema.brief tree))
  | .any =>
    if !(← lift (Schema.isTrivial schema)) then throw (.anyNamed schemaName (Schema.brief tree))
    return none
  | kind => lift (enumeration name schemaName schema kind)

/-! ## Following references -/

/-- Makes a schema the owner of a type name; another owner is a clash. -/
def claim (name schemaName : String) : Run Unit := do
  match (← get).owners.lookup name with
  | none => modify fun s => { s with owners := s.owners ++ [(name, schemaName)] }
  | some owner => if owner ≠ schemaName then throw (.typeNameClash owner schemaName name)

/-- Compiles the schema of a name, unless that has been done. `path` holds the type names on the way
here; what is compiled further in may rely on this one not being among them. -/
def named (table : Entries) (path : List String) (schemaName : String) (schema : Tree)
    (follow : Text.typeIdentifier schemaName ∉ path → String → Run TypeExpr) :
    Run (Option NamedType) := do
  let name := Text.typeIdentifier schemaName
  let s ← get
  if let some type := s.types.find? (·.name == name) then
    claim name schemaName
    return some type
  if (s.inlines.lookup schemaName).isSome then return none
  if h : name ∈ path then throw (.dependencyCycle (path ++ [name]))
  else
    match ← schemaType table (typeWith (follow h)) name schemaName schema with
    | none => return none
    | some type =>
      claim name schemaName
      modify fun s => { s with types := s.types ++ [type] }
      return some type

/-- What is being compiled: type names, and names of schemas that stand for type expressions. -/
structure Path where
  types : List String
  inlines : List String

/-- The type expression of a reference. -/
def typeOfReference (table : Entries) (path : Path) (reference : String) : Run TypeExpr := do
  let found ← lift (find table reference)
  let type ← named table path.types found.name found.schema fun _h r =>
    typeOfReference table ⟨path.types ++ [Text.typeIdentifier found.name], path.inlines⟩ r
  if type.isSome then
    let nullable := (found.schema.entries?.map Schema.isNullable).getD false
    return .named (some (Text.typeIdentifier found.name)) nullable
  if let some type := (← get).inlines.lookup found.name then return type
  if _h : found.name ∈ path.inlines then throw (.dependencyCycle (path.inlines ++ [found.name]))
  else
    let type ← typeWith (fun r =>
      typeOfReference table ⟨path.types, path.inlines ++ [found.name]⟩ r) found.schema
    modify fun s => { s with inlines := s.inlines ++ [(found.name, type)] }
    return type
termination_by unvisited (typeNames table) path.types + unvisited (names table) path.inlines
decreasing_by
  · have := unvisited_append_lt (mem_typeNames found.found) _h; omega
  · have := unvisited_append_lt (mem_names found.found) _h; omega

/-! ## The table -/

/-- The type expression of a schema or reference. -/
def typeOf (table : Entries) (t : Tree) : Run TypeExpr :=
  typeWith (typeOfReference table ⟨[], []⟩) t

/-- Compiles one entry of the table. -/
def entry (table : Entries) (name : String) (schema : Tree) : Run (Option NamedType) :=
  named table [] name schema fun _ r =>
    typeOfReference table ⟨[Text.typeIdentifier name], []⟩ r

/-- Compiles every entry that is no reference, in order. -/
def entries (table : Entries) : Entries → Run Unit
  | [] => return ()
  | (key, schema) :: rest => do
    if !Reference.isReference schema then
      let .text name := key | throw .malformed
      let _ ← entry table name schema
    entries table rest

/-- Compiles the whole table: the named types, in dependency order. -/
def all (table : Entries) : Run (List NamedType) := do
  entries table table
  return (← get).types

end ApiContract.Compile
