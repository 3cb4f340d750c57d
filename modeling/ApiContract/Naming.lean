import ApiContract.Edit
import ApiContract.MediaType
import ApiContract.Method
import ApiContract.Schema
import ApiContract.Text.Identifier

/-!
# Naming anonymous schemas

Some schemas can only be represented by a type with a name: objects with properties or with nothing at
all, enumerations and compositions. Where such a schema stands inline, it moves into the table of
schemas under a name made of the words on the way to it, and a reference takes its place.

A name that is taken gets the smallest number from 2 on that makes it free. Branches of an `allOf` are
visited but never named, since they fold into the composed type.
-/

namespace ApiContract.Naming

/-- What a document has under `components`: nothing, a map, or something that no schema can be added
to. -/
inductive Home where
  | absent
  | map
  | other
deriving DecidableEq

/-- What naming knows while it goes through a document. -/
structure State where
  home : Home
  /-- The table of schemas, if there is one. -/
  table : Option Tree
  /-- The names given so far, last one first. -/
  created : List String
  notices : List Notice
  /-- The present form of shared nodes. -/
  records : List (Nat × Tree)
  /-- A bound for the shared nodes that lie within each other. -/
  sharedDepth : Nat

/-- Naming runs with that state. -/
abbrev Run := StateM State

instance : Sharing Run where
  recorded? a := do return (← get).records.lookup a
  record _ t := modify fun s => { s with records := t.recordIn s.records }

/-- Reports something. -/
def report (n : Option Notice) : Run Unit :=
  modify fun s => { s with notices := s.notices ++ n.toList }

/-- The table of schemas in its present form. -/
def presentTable : Run (Option Tree) := do
  let s ← get
  return s.table.map fun t => (t.anchor.bind (List.lookup · s.records)).getD t

/-- Changes the table of schemas. -/
def setTable (t : Tree) : Run Unit :=
  modify fun s => { s with table := some t, records := t.recordIn s.records }

/-- The text keys of a table. -/
def namesIn (table : Entries) : List String :=
  table.filterMap fun (k, _) => match k with
    | .text s => some s
    | _ => none

/-- Adds a schema to the table under a free name made from a wish, and returns the name. The table is
created where it is missing. -/
def addSchema (wish : String) (schema : Tree) : Run (Except Failure String) := do
  if (← get).home = .other then return .error .malformed
  let table := (← presentTable).getD (.map none [])
  modify fun s => { s with home := .map, table := some table }
  match table with
  | .map a entries =>
    let name := Text.uniqueName wish (namesIn entries)
    setTable (.map a (Entries.set entries name schema))
    modify fun s => { s with created := name :: s.created }
    return .ok name
  | _ => return .error .malformed

/-! ## Schemas -/

/-- The roles in which the parts of a schema are visited. -/
inductive Role where
  /-- A schema; the answer says whether it needs a name. -/
  | schema
  /-- A map of properties; the answer says whether there are any. -/
  | properties
  /-- A list of alternatives, with the word that is added to the names of each. -/
  | alternatives (suffix : String)
  /-- A list of parts that are folded into one type. -/
  | parts

/-- A visit of a tree in a role, with the words on the way to it. -/
abbrev Visit := Role → String → Run (Edited Bool)

/-- The words on the way, or the document itself. -/
def place (context : String) : String :=
  Text.orElseText context "document"

/-- Ends a visit with an answer. -/
def answer (t : Tree) (b : Bool) : Run (Edited Bool) := pure (t, .ok b)

/-- Ends a visit with a failure. -/
def refuse (t : Tree) (f : Failure) : Run (Edited Bool) := pure (t, .error f)

/-- Visits what stands where a schema without a name may stand: a schema that needs a name is moved
into the table and its reference takes its place. -/
def named (t : Tree) (visit : Visit) (context : String) : Run (Edited Unit) :=
  if !t.isMap || Reference.isReference t then pure (t, .ok ())
  else do
    let (t, r) ← visit .schema context
    match r with
    | .error f => pure (t, .error f)
    | .ok false => pure (t, .ok ())
    | .ok true =>
      match ← addSchema context t with
      | .error f => pure (t, .error f)
      | .ok name => pure (Reference.asTree (Reference.toSchema name), .ok ())

/-- The visit of a part of a schema under a key. -/
def childOf (children : List (Scalar × Tree × Visit)) (key : String) : Option (Tree × Visit) :=
  children.lookup (.text key)

/-- Visits properties in order, each with its name added to the words on the way. -/
def eachProperty (context : String) :
    List (Scalar × Tree × Visit) → Run (Entries × Except Failure Unit)
  | [] => pure ([], .ok ())
  | (.text key, t, visit) :: rest => do
    let (t, r) ← named t visit (context ++ Text.pascal key)
    match r with
    | .error f => pure ((.text key, t) :: rest.map fun c => (c.1, c.2.1), .error f)
    | .ok _ =>
      let (rest, r) ← eachProperty context rest
      pure ((.text key, t) :: rest, r)
  | (key, t, _) :: rest =>
    pure ((key, t) :: rest.map fun c => (c.1, c.2.1), .error .malformed)

/-- Visits alternatives in order. -/
def eachAlternative (context : String) :
    List (Tree × Visit) → Run (List Tree × Except Failure Unit)
  | [] => pure ([], .ok ())
  | (t, visit) :: rest => do
    let (t, r) ← named t visit context
    match r with
    | .error f => pure (t :: rest.map (·.1), .error f)
    | .ok _ =>
      let (rest, r) ← eachAlternative context rest
      pure (t :: rest, r)

/-- Visits alternatives that a map holds under their numbers, in order. -/
def eachNumbered (context : String) (children : List (Scalar × Tree × Visit)) :
    List Nat → Entries → Run (Entries × Except Failure Unit)
  | [], entries => pure (entries, .ok ())
  | n :: rest, entries =>
    match children.find? fun c => c.1.same (.int n) with
    | none => pure (entries, .error .malformed)
    | some (key, t, visit) => do
      let (t, r) ← named t visit context
      match r with
      | .error f => pure (Entries.put key t entries, .error f)
      | .ok _ => eachNumbered context children rest (Entries.put key t entries)

/-- Visits the parts of a composition in order. -/
def eachPart (context : String) : List (Tree × Visit) → Run (List Tree × Except Failure Unit)
  | [] => pure ([], .ok ())
  | (t, visit) :: rest => do
    let (t, r) ←
      if !t.isMap || Reference.isReference t then answer t false else visit .schema context
    match r with
    | .error f => pure (t :: rest.map (·.1), .error f)
    | .ok _ =>
      let (rest, r) ← eachPart context rest
      pure (t :: rest, r)

/-- Visits the list under a keyword in a role. Nothing there, and what is empty, has no parts; the
other shapes are not foreseen, except that a map may hold alternatives under their numbers, and that
parts may also be given as keys or characters. -/
def visitList (children : List (Scalar × Tree × Visit)) (entries : Entries) (keyword : String)
    (role : Role) (context : String) (lenient : Bool) : Run (Entries × Except Failure Unit) :=
  match childOf children keyword with
  | none => pure (entries, .ok ())
  | some (t, visit) =>
    if !t.truthy then pure (entries, .ok ())
    else if t.isList || (t.isMap && !lenient) then do
      let (t, r) ← visit role context
      pure (entries.set keyword t, r.map fun _ => ())
    else
      match t with
      | .scalar (.text _) | .scalar (.bytes _) => pure (entries, .ok ())
      | .scalar _ => pure (entries, .error .malformed)
      | _ => pure (entries, if lenient then .ok () else .error .malformed)

/-- Whether `additionalProperties` leaves an object without further properties. -/
def isClosed (additional : Tree) : Bool :=
  additional.same .null || additional.same (.bool false)

/-- Visits an object schema: its properties, then the schema of further properties. Only a map from
any key to one kind of value needs no name. -/
def visitObject (a : Anchor) (children : List (Scalar × Tree × Visit)) (entries : Entries)
    (context : String) : Run (Edited Bool) := do
  let properties := entries.orNull "properties"
  let (entries, r) ←
    if !properties.truthy then pure (entries, .ok ())
    else match childOf children "properties" with
      | some (.map .., visit) => do
        let (t, r) ← visit .properties context
        pure (entries.set "properties" t, r.map fun _ => ())
      | _ => pure (entries, .error .malformed)
  match r with
  | .error f => refuse (.map a entries) f
  | .ok _ =>
    match childOf children "additionalProperties" with
    | some (.map b es, visit) =>
      let (t, r) ← named (.map b es) visit (context ++ "Value")
      let rebuilt := Tree.map a (entries.set "additionalProperties" t)
      match r with
      | .error f => refuse rebuilt f
      | .ok _ => answer rebuilt properties.truthy
    | other =>
      answer (.map a entries) (properties.truthy || isClosed ((other.map (·.1)).getD .null))

/-- A tree in its present form. -/
def present (t : Tree) : Run Tree := do return t.settle (← get).records

/-- Visits a schema by its kind. -/
def visitSchema (a : Anchor) (children : List (Scalar × Tree × Visit)) (context : String) :
    Run (Edited Bool) := do
  let entries : Entries := children.map fun c => (c.1, c.2.1)
  let tree := Tree.map a entries
  if (Reference.ofEntries? entries).isSome then answer tree false
  else match Schema.kind entries with
    | .error f => refuse tree f
    | .ok .object => visitObject a children entries context
    | .ok .array =>
      match childOf children "items" with
      | some (.map b es, visit) =>
        let (t, r) ← named (.map b es) visit (context ++ "Item")
        let rebuilt := Tree.map a (entries.set "items" t)
        match r with
        | .error f => refuse rebuilt f
        | .ok _ => answer rebuilt false
      | _ => answer tree false
    | .ok .oneOf => composed entries "oneOf" (.alternatives "OneOf") false
    | .ok .anyOf => composed entries "anyOf" (.alternatives "AnyOf") false
    | .ok .allOf => composed entries "allOf" .parts true
    | .ok .not => do refuse tree (.notSchema (place context) (Schema.brief (← present tree)))
    | .ok .any =>
      match Schema.isTrivial entries with
      | .error f => refuse tree f
      | .ok false => do refuse tree (.freeForm (place context) (Schema.brief (← present tree)))
      | .ok true => answer tree false
    | .ok _ => answer tree (!(Schema.literals entries).isEmpty)
where
  /-- A composition always needs a name. -/
  composed (entries : Entries) (keyword : String) (role : Role) (lenient : Bool) :
      Run (Edited Bool) := do
    let (entries, r) ← visitList children entries keyword role context lenient
    match r with
    | .error f => refuse (.map a entries) f
    | .ok _ => answer (.map a entries) true

/-- The visits of a tree, and with them those that do not ask whether the tree itself has been visited
before. A node within itself has no end. -/
def cases (again : Tree → Visit) : Tree.Cases (Visit × Visit) where
  scalar s := twice fun _ _ => answer (.scalar s) false
  list a items :=
    shared a fun role context => do
      let children := items.map fun (t, visit, _) => (t, visit)
      let (ts, r) ← match role with
        | .alternatives suffix => eachAlternative (context ++ suffix) children
        | _ => eachPart context children
      pure (.list a ts, r.map fun _ => false)
  map a entries :=
    shared a fun role context => do
      let children := entries.map fun (k, t, visit, _) => (k, t, visit)
      match role with
      | .properties =>
        let (es, r) ← eachProperty context children
        pure (.map a es, r.map fun _ => !es.isEmpty)
      | .alternatives suffix =>
        let (es, r) ← eachNumbered (context ++ suffix) children (List.range children.length)
          (children.map fun c => (c.1, c.2.1))
        pure (.map a es, r.map fun _ => false)
      | _ => visitSchema a children context
  set a members := twice fun _ _ => answer (.set a members) false
  pair x y := twice fun _ _ => answer (.pair x.1 y.1) false
  back a isMap := twice fun _ _ => refuse (.back a isMap) .malformed
where
  /-- A visit that asks nothing. -/
  twice (visit : Visit) : Visit × Visit := (visit, visit)
  /-- The visits of a node that may be shared. -/
  shared (a : Anchor) (visit : Visit) : Visit × Visit :=
    (fun role context => Edit.visitShared a (again · role context) (visit role context), visit)

/-- The visits of a tree that has been visited before, without asking for its own present form. The
first argument bounds how many shared nodes lie within each other. -/
def revisit : Nat → Tree → Visit
  | 0, t => fun _ _ => refuse t .malformed
  | bound + 1, t => (t.para (cases (revisit bound))).2

/-- The visits of a tree. -/
def visit (t : Tree) : Visit := fun role context => do
  (t.para (cases (revisit (← get).sharedDepth))).1 role context

/-! ## The document -/

open Edit

/-- Names the schema that stands inline at a place. -/
def schemaAt (context : String) : Edit Run := fun t => named t (visit t) context

/-- Names the schema of a media type. -/
def mediaType (context : String) : Edit Run :=
  value "schema" (whenMap (schemaAt context))

/-- Every value of a map that is itself a map, with its key as text. -/
def eachMap (e : String → Edit Run) : Edit Run :=
  entries fun k => whenMap (e k.display)

/-- Every media type under `content`, with its word between the words on the way and a suffix. -/
def contents (context suffix : String) : Edit Run :=
  value "content" <| eachMap fun type t => do
    let (word, notice) := MediaType.word type
    report notice
    mediaType (context ++ word ++ suffix) t

/-- A parameter or header: the schema it has, and those of its content, under the same words. -/
def schemaOrContent (context : String) : Edit Run :=
  andThen (mediaType context) (value "content" (eachMap fun _ => mediaType context))

/-- A parameter. -/
def parameter (context : String) : Edit Run := choose fun t =>
  let name := (((t.get? "name").map Tree.display).getD "")
  schemaOrContent (context ++ Text.pascal name ++ "Param")

/-- An edit of maps that are no references. -/
def unlessReference (e : Edit Run) : Edit Run :=
  whenMap (choose fun t => if Reference.isReference t then skip else e)

/-- The parameters under a key, if they can be gone through one by one. -/
def parameters (context : String) : Edit Run :=
  value "parameters" <| choose fun t =>
    if t.isIterable then items (unlessReference (parameter context)) else fail .malformed

/-- A response: its headers, then its contents. -/
def response (context : String) : Edit Run :=
  andThen
    (value "headers" (eachMap fun name =>
      unlessReference (schemaOrContent (context ++ Text.pascal name ++ "Header"))))
    (contents context "ResponseBody")

/-- The responses of an operation, the default one first. -/
def responses (context : String) : Edit Run :=
  value "responses" <| choose fun t =>
    if !t.truthy then skip
    else if !t.isMap then fail .malformed
    else andThen
      (value "default" (unlessReference (response (context ++ "DefaultResponse"))))
      (entries fun k => if k = .text "default" then skip
        else unlessReference (response (context ++ Text.pascal k.display ++ "Response")))

/-- An operation. Without an identifier it is left alone, since nothing can be generated for it. -/
def operation : Edit Run := choose fun t =>
  match t.getD "operationId" with
  | .scalar (.text id) =>
    if id.isEmpty then skip
    else
      let context := Text.pascal id
      all [parameters context, value "requestBody" (unlessReference (contents context "RequestBody")),
        responses context]
  | other => if other.truthy then fail .malformed else skip

/-- A path item: its operations, then the parameters that they share. -/
def pathItem : Edit Run :=
  andThen (all (Method.all.map fun m => value m.key (whenMap operation))) (parameters "")

/-- The table of schemas that the state holds, one entry after the other. Entries added on the way are
not visited. -/
def schemasFrom : List Scalar → Run (Except Failure Unit)
  | [] => pure (.ok ())
  | key :: rest => do
    match ((← presentTable).bind Tree.entries?).bind (Entries.at? key) with
    | some (.map a es) =>
      let (t, r) ← Edit.shared (fun t => do
        let (t, r) ← visit t .schema (Text.pascal key.display)
        pure (t, r.map fun _ => ())) (.map a es)
      match ← presentTable with
      | some (.map b entries) => setTable (.map b (Entries.put key t entries))
      | _ => pure ()
      match r with
      | .error f => pure (.error f)
      | .ok _ => schemasFrom rest
    | _ => schemasFrom rest

/-- The components of a document, except the schemas. -/
def components : Edit Run :=
  all [
    value "responses" (eachMap fun name => response (Text.pascal name ++ "Response")),
    value "parameters" (eachMap fun _ => parameter ""),
    value "requestBodies" (eachMap fun name => contents (Text.pascal name) "RequestBody"),
    value "headers" (eachMap fun name => schemaOrContent (Text.pascal name ++ "Header"))]

/-- The schemas that are in the table when their turn comes. -/
def schemas : Edit Run := fun t => do
  let keys := match ← presentTable with
    | some (.map _ entries) => entries.map (·.1)
    | _ => []
  let r ← schemasFrom keys
  pure (t, r)

/-- A document: its components, then its paths. -/
def document : Edit Run :=
  andThen (value "components" (whenMap (andThen components schemas))) <|
    value "paths" <| choose fun t =>
      if !t.truthy then skip
      else if t.isMap then entries fun _ => unlessReference pathItem
      else fail .malformed

/-- What naming a document's schemas gives. The document is what has become of it, also where naming
stopped with a failure. -/
structure Outcome where
  document : Tree
  /-- The names given, in order. -/
  created : List String
  notices : List Notice
  result : Except Failure Unit

/-- Puts the table of schemas into a document, at the end where it is new. -/
def withTable (home : Home) (table : Option Tree) (t : Tree) : Tree :=
  match t with
  | .map a entries =>
    match home, Entries.get? entries "components" with
    | .map, some (.map b components) =>
      match table with
      | some table =>
        .map a (Entries.set entries "components" (.map b (Entries.set components "schemas" table)))
      | none => t
    | .map, none =>
      .map a (Entries.set entries "components" (.object ((table.map fun s => ("schemas", s)).toList)))
    | _, _ => t
  | t => t

/-- Names every anonymous schema of a document that needs a name. -/
def nameSchemas (t : Tree) : Outcome :=
  let components := t.get? "components"
  let home := match components with
    | none => Home.absent
    | some c => if c.isMap then .map else .other
  let start : State := {
    home := home
    table := components.bind (Tree.get? · "schemas")
    created := []
    notices := []
    records := []
    sharedDepth := t.anchorBound }
  let (((t, result), table), s) := (do return (← document t, ← presentTable) : Run _).run start
  let t := withTable s.home table t
  let components := t.getD "components"
  { document := t.settle ((components.getD "schemas").recordIn (components.recordIn s.records))
    created := s.created.reverse
    notices := s.notices
    result := result }

end ApiContract.Naming
