import ApiContract.Deployment
import ApiContract.Document.Walk
import ApiContract.Notice

/-!
# The gateway's description

What the gateway is told of an API: a copy of the description in which every operation of a unit names
the function that requests are passed to. Operations without a unit are left out, and so are path items
without operations. Discriminators are left out too, after the property that they name has been made a
required one.
-/

namespace ApiContract.Gateway

open Walk

/-- What the preparation of a description knows. -/
structure State where
  /-- The identifiers of the operations so far. -/
  seen : List Scalar
  records : List (Nat × Tree)
  notices : List Notice

/-- Preparation runs with that state. -/
abbrev Run := StateM State

instance : Sharing Run where
  recorded? a := do return (← get).records.lookup a
  record _ t := modify fun s => { s with records := t.recordIn s.records }

/-! ## Discriminators -/

/-- The keys that lead on from an object. -/
def edges : Kind → List (String × Kind)
  | .components =>
    [("responses", .mapOf .response), ("parameters", .mapOf .parameter),
      ("requestBodies", .mapOf .requestBody), ("headers", .mapOf .parameter),
      ("schemas", .mapOf .schema), ("callbacks", .mapOf .callback)]
  | .pathItem => operationEdges ++ [("parameters", .listOf .parameter)]
  | .operation =>
    [("parameters", .listOf .parameter), ("requestBody", .requestBody),
      ("responses", .mapOf .response)]
  | .parameter => [("schema", .schema), ("content", .mapOf .mediaType)]
  | .requestBody => [("content", .mapOf .mediaType)]
  | .response => [("headers", .mapOf .parameter), ("content", .mapOf .mediaType)]
  | .mediaType => [("schema", .schema)]
  | .schema => schemaEdges
  | _ => []

/-- Whether a value is among the parts of a tree: the keys of a map, the items of a list, the parts of
a text. Other trees have no parts. -/
def isPart (value t : Tree) : Except Failure Bool :=
  match t, value with
  | .map _ es, .scalar s => .ok (es.any fun e => e.1.same s)
  | .set _ ms, .scalar s => .ok (ms.any s.same)
  | .list _ ts, v => .ok (ts.any v.same)
  | .pair x y, v => .ok (v.same x || v.same y)
  | .scalar (.text s), .scalar (.text v) => .ok (v.isEmpty || (s.splitOn v).length > 1)
  | _, _ => .error .malformed

/-- The names of properties in a message, sorted. Names of several types have no order. -/
def sortedNames (properties : Tree) : Except Failure String := do
  let keys := match properties with
    | .map _ es => es.map fun e => Tree.scalar e.1
    | .list _ ts => ts
    | .set _ ms => ms.map Tree.scalar
    | .pair x y => [x, y]
    | .scalar (.text s) => s.toList.map fun c => .text (String.ofList [c])
    | _ => []
  let texts := keys.filterMap Tree.text?
  if texts.length = keys.length then
    return (Tree.array ((texts.mergeSort fun a b => a ≤ b).map Tree.text)).literal
  let numbers : List Int := keys.filterMap fun t => match t with
    | .scalar (.int n) => some n
    | _ => none
  if numbers.length = keys.length then
    return (Tree.array ((numbers.mergeSort fun a b => a ≤ b).map Tree.int)).literal
  if keys.length = 1 then return (Tree.array keys).literal
  throw .malformed

/-- Puts the name of a property at the end of the required ones, unless it is there. -/
def require (name : Tree) : Edit Run := fun t =>
  match isPart name t, t with
  | .error f, t => pure (t, .error f)
  | .ok true, t => pure (t, .ok ())
  | .ok false, .list a names => pure (.list a (names ++ [name]), .ok ())
  | .ok false, t => pure (t, .error .malformed)

/-- Checks that an object schema has the property that its discriminator names. -/
def checkDiscriminator (schema : Entries) (name type : Tree) : Except Failure Unit := do
  if type ≠ .text "object" then throw (.discriminatorOnScalar type.display)
  let properties := schema.orNull "properties"
  let properties := if properties.truthy then properties else .object []
  if !(← isPart name properties) then
    throw (.discriminatorProperty name.display (← sortedNames properties))

/-- Takes the discriminator away from a schema and makes its property a required one. -/
def dropDiscriminator : Edit Run := fun t =>
  match t with
  | .map a schema =>
    let rest := Entries.erase schema "discriminator"
    match Entries.get? schema "discriminator", rest.get? "type" with
    | some (.map _ discriminator), some type => do
      let name := Entries.orNull discriminator "propertyName"
      match checkDiscriminator rest name type with
      | .error f => pure (.map a rest, .error f)
      | .ok _ =>
        let rest := if rest.has "required" then rest else rest.set "required" (.array [])
        Edit.value "required" (require name) (.map a rest)
    | _, _ => pure (.map a rest, .ok ())
  | t => pure (t, .ok ())

/-- A walk that takes discriminators away and leaves references alone. -/
def visitor : Visitor Run where
  edges := edges
  onReference _ t _ := pure (t, .ok ())
  onOther kind t := match kind with
    | .listOf _ => if t.truthy && !t.isIterable then .error .malformed else .ok ()
    | _ => .ok ()
  after kind t := if kind = .schema then dropDiscriminator t else pure (t, .ok ())

/-! ## Integrations -/

/-- The key under which an operation names its function. -/
def integrationKey : String := "x-amazon-apigateway-integration"

/-- Reports something. -/
def report (n : Notice) : Run Unit :=
  modify fun s => { s with notices := s.notices ++ [n] }

/-- Names the function of an operation. -/
def integrate (target : Target) : Edit Run := fun t =>
  match t with
  | .map a operation => pure (.map a (Entries.set operation integrationKey target.integration), .ok ())
  | t => pure (t, .ok ())

/-- Integrates the operation of one method of a path item, or takes it away. -/
def placeMethod (targets : List (String × Target)) (path : Scalar) (item : Entries)
    (method : Method) : Run (Entries × Except Failure Unit) := do
  let some operation := (item.get? method.key).bind Tree.entries? | return (item, .ok ())
  let label := Operation.endpointText method path.display
  match operation.orNull "operationId" with
  | .null =>
    report (.endpointWithoutId label)
    return (item.erase method.key, .ok ())
  | .scalar id =>
    if (← get).seen.any id.same then return (item, .error (.duplicateOperationId id.display))
    modify fun s => { s with seen := id :: s.seen }
    let target := match id with
      | .text id => targets.lookup id
      | _ => none
    match target with
    | none =>
      report (.endpointUnmapped label id.display)
      return (item.erase method.key, .ok ())
    | some target => Edit.valueIn (.text method.key) (integrate target) item
  | _ => return (item, .error .malformed)

/-- Integrates the operations of a path item, method by method. -/
def placeMethods (targets : List (String × Target)) (path : Scalar) :
    List Method → Entries → Run (Entries × Except Failure Unit)
  | [], item => pure (item, .ok ())
  | method :: rest, item => do
    let (item, r) ← placeMethod targets path item method
    match r with
    | .error f => pure (item, .error f)
    | .ok _ => placeMethods targets path rest item

/-- Prepares a path item that is no reference. At most `depth` shared nodes lie within each other. -/
def pathItem (depth : Nat) (targets : List (String × Target)) (path : Scalar) : Edit Run :=
  Edit.andThen (fun t => walk visitor depth t .pathItem) fun t =>
    match t with
    | .map a item => do
      let (item, r) ← placeMethods targets path Method.all item
      pure (.map a item, r)
    | t => pure (t, .ok ())

/-- Whether a path item has any operation. -/
def hasOperations (item : Entries) : Bool :=
  Method.all.any fun m => item.has m.key

/-- Prepares the paths in order and leaves out those without operations. -/
def pathsOf (depth : Nat) (targets : List (String × Target)) :
    Entries → Run (Entries × Except Failure Unit)
  | [] => pure ([], .ok ())
  | (path, t) :: rest => do
    if !t.isMap || Reference.isReference t then
      let (rest, r) ← pathsOf depth targets rest
      return ((path, t) :: rest, r)
    let (t, r) ← Edit.shared (pathItem depth targets path) t
    match r with
    | .error f => pure ((path, t) :: rest, .error f)
    | .ok _ =>
      let (rest, r) ← pathsOf depth targets rest
      pure (if hasOperations (t.entries?.getD []) then ((path, t) :: rest, r) else (rest, r))

/-- Prepares a description: components, then paths. At most `depth` shared nodes lie within each other. -/
def document (depth : Nat) (targets : List (String × Target)) : Edit Run :=
  Edit.andThen
    (Edit.value "components" <| Edit.whenMap fun t => walk visitor depth t .components)
    (Edit.value "paths" <| Edit.whenMap fun t =>
      match t with
      | .map a paths => do
        let (paths, r) ← pathsOf depth targets paths
        pure (.map a paths, r)
      | t => pure (t, .ok ()))

/-- The gateway's description, with what was reported on the way. `targets` holds the function of each
operation, by identifier. -/
def describe (t : Tree) (targets : List (String × Target)) : Except Failure Tree × List Notice :=
  let ((t, r), s) := (document (t.anchorBound + 1) targets t).run ⟨[], [], []⟩
  (r.map fun _ => t.settle s.records, s.notices)

end ApiContract.Gateway
