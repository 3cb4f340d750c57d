import ApiContract.Document.Library
import ApiContract.Document.Walk
import ApiContract.Unvisited

/-!
# Inlining

Makes a description self-contained: every reference into another document is replaced, so that the
references that are left lead into the description itself.

A schema of another document joins the table of schemas under its own name, the last key on the way to
it. If the name is taken by the same schema, the reference leads there; if it is taken by another
one, the schema is copied to the place. Everything else is copied. A reference back into the
description becomes a local one. What a reference leads to is inlined before it is put anywhere, with
its references read from the document that holds it, and a target that is met again inside itself is
a cycle.
-/

namespace ApiContract.Inline

open Walk

/-- What a foreign reference leads to: a document and a pointer into it. -/
structure Marker where
  path : Place
  pointer : String
deriving DecidableEq

/-- What inlining knows while it goes through a description. -/
structure State where
  /-- What the description has under `components`, where that is something else than a map. -/
  components : Option Tree
  /-- The table of schemas in its present form. -/
  table : Option Tree
  /-- The schemas that join the table, in order. -/
  added : List (String × Tree)
  records : List (Nat × Tree)
  /-- A number above all anchors in use. -/
  nextAnchor : Nat

/-- Inlining runs with that state. -/
abbrev Run := StateM State

instance : Sharing Run where
  recorded? a := do return (← get).records.lookup a
  record _ t := modify fun s => { s with records := t.recordIn s.records }

/-! ## Copies -/

/-- A copy of a tree that shares no node with any other. -/
def copy (t : Tree) : Run Tree := do
  let bound := t.anchorBound
  if bound = 0 then return t
  let offset := (← get).nextAnchor
  modify fun s => { s with nextAnchor := s.nextAnchor + bound }
  return t.mapAnchors fun a => some (a + offset)

/-! ## Targets -/

/-- The texts of a tree, those of its keys apart. -/
def texts : Tree → List String :=
  Tree.para {
    scalar s := match s with
      | .text t => [t]
      | _ => []
    list _ items := items.flatMap (·.2)
    map _ entries := entries.flatMap fun (_, _, ts) => ts
    set _ _ := []
    pair x y := x.2 ++ y.2
    back _ _ := [] }

/-- The pointers of a reference and of the one to the schema of that name, which may take its place. -/
def pointersOf (fragment : String) : List String :=
  let keys := (Reference.segments fragment).map Reference.unescape
  [Reference.relative fragment, Reference.schemaPointer (keys.getLast?.getD "")]

/-- The pointers of all references that a document could come to hold. A node that several places share is
visited at each, so that what has taken the place of a reference may be followed, too. -/
def pointers (t : Tree) : List String :=
  (texts t).flatMap fun text => match Reference.split text with
    | .ok (_, fragment) => pointersOf fragment
    | .error _ => []

/-- Everything that a reference of a library's documents can lead to. -/
def candidates (library : Library) : List Marker :=
  let all := (library.documents.flatMap fun d => pointers d.2).eraseDups
  library.documents.flatMap fun d => all.map fun pointer => ⟨d.1, pointer⟩

/-! ## References -/

/-- The keys that lead on from an object. -/
def edges : Kind → List (String × Kind)
  | .schema => schemaEdges
  | .parameter =>
    [("schema", .schema), ("content", .mapOf .mediaType), ("examples", .mapOf .opaqueObject)]
  | .requestBody => [("content", .mapOf .mediaType)]
  | .response =>
    [("headers", .mapOf .parameter), ("content", .mapOf .mediaType), ("links", .mapOf .opaqueObject)]
  | .mediaType =>
    [("schema", .schema), ("examples", .mapOf .opaqueObject), ("encoding", .mapOf .encoding)]
  | .encoding => [("headers", .mapOf .parameter)]
  | .pathItem => ("parameters", .listOf .parameter) :: operationEdges
  | .operation =>
    [("parameters", .listOf .parameter), ("requestBody", .requestBody),
      ("responses", .mapOf .response), ("callbacks", .mapOf .callback)]
  | .components =>
    [("securitySchemes", .mapOf .opaqueObject), ("responses", .mapOf .response),
      ("parameters", .mapOf .parameter), ("examples", .mapOf .opaqueObject),
      ("requestBodies", .mapOf .requestBody), ("headers", .mapOf .parameter),
      ("links", .mapOf .opaqueObject), ("callbacks", .mapOf .callback)]
  | _ => []

/-- A reference into the description itself. -/
def localReference (pointer : String) : Tree :=
  Reference.asTree ("#/" ++ pointer)

/-- The table of schemas in its present form. -/
def presentTable : Run (Option Tree) := do
  let s ← get
  return s.table.map fun t => ((t.anchor.bind (List.lookup · s.records)).getD t)

/-- Changes the table of schemas. -/
def setTable (t : Tree) : Run Unit :=
  modify fun s => { s with table := some t, records := t.recordIn s.records }

/-- The schema that has a name at present, added ones first. -/
def schemaNamed (name : String) : Run (Except Failure (Option Tree)) := do
  let s ← get
  match s.added.lookup name, s.components with
  | some t, _ => return .ok (some t)
  | none, some _ => return .error .malformed
  | none, none =>
    return .ok <| match (← presentTable).bind (Tree.get? · name) with
      | some .null => none
      | found => found

/-- A tree in its present form. -/
def present (t : Tree) : Run Tree := do
  return t.settle (← get).records

/-- Puts an inlined schema where its name says: into the table if the name is free, and nowhere if it
is there already. The answer is what takes the reference's place. -/
def placeSchema (name : String) (schema : Tree) : Run (Except Failure Tree) := do
  match ← schemaNamed name with
  | .error f => return .error f
  | .ok none =>
    modify fun s => { s with added := s.added ++ [(name, schema)] }
    return .ok (Reference.asTree (Reference.toSchema name))
  | .ok (some existing) =>
    let same := (← present existing).same (← present schema)
    return .ok (if same then Reference.asTree (Reference.toSchema name) else schema)

/-- Rewrites the mapping of a discriminator: targets with a `#` are references. A target that cannot
keep its name has none that the mapping could give. -/
def mappingTargets (follow : String → Run (Except Failure Tree)) :
    Entries → Run (Entries × Except Failure Unit)
  | [] => pure ([], .ok ())
  | (tag, .scalar (.text target)) :: rest =>
    if !target.toList.contains '#' then do
      let (rest, r) ← mappingTargets follow rest
      pure ((tag, .text target) :: rest, r)
    else do
      match ← follow target with
      | .error f => pure ((tag, .text target) :: rest, .error f)
      | .ok t =>
        match Reference.ofTree? t with
        | none => pure ((tag, .text target) :: rest, .error (.mappingTargetRenamed tag.display target))
        | some reference =>
          let (rest, r) ← mappingTargets follow rest
          pure ((tag, .text reference) :: rest, r)
  | (tag, t) :: rest => do
    let (rest, r) ← mappingTargets follow rest
    pure ((tag, t) :: rest, r)

/-- Rewrites the mapping of a schema's discriminator. -/
def rewriteMapping (follow : String → Run (Except Failure Tree)) : Edit Run :=
  Edit.value "discriminator" <| Edit.value "mapping" <| fun t =>
    match t with
    | .map a entries => do
      let (es, r) ← mappingTargets follow entries
      pure (.map a es, r)
    | t => pure (t, .ok ())

/-- A walk that replaces references by what `follow` makes of them. -/
def visitor (follow : Kind → String → Run (Except Failure Tree)) : Visitor Run where
  edges := edges
  onReference kind t reference := do
    match ← follow kind reference with
    | .ok t' => pure (t', .ok ())
    | .error f => pure (t, .error f)
  onOther _ _ := .ok ()
  after kind t := if kind = .schema then rewriteMapping (follow .schema) t else pure (t, .ok ())

/-- The documents, the place of the description among them, everything that references can lead to, and a
bound for the shared nodes that lie within each other: those of the documents, once for each target
that may have been copied around them. -/
structure Setting where
  library : Library
  root : Place
  targets : List Marker
  sharedDepth : Nat

/-- The chain of targets of a cycle, each with the name of its file. -/
def chainOf (path : List Marker) : List (String × String) :=
  path.map fun t => (t.path.name, t.pointer)

/-- What takes the place of a reference to an object of a kind, in the document at `doc`. `path` holds
the targets that are being inlined. -/
def follow (s : Setting) (path : List Marker) (doc : Place) (kind : Kind) (reference : String) :
    Run (Except Failure Tree) :=
  match s.library.resolve doc reference with
  | .error f => pure (.error f)
  | .ok resolved =>
    if resolved.path = s.root then pure (.ok (localReference resolved.pointer))
    else
      let marker := Marker.mk resolved.path resolved.pointer
      if _h : marker ∈ path then pure (.error (.inliningCycle (chainOf (path ++ [marker]))))
      else if _h' : marker ∈ s.targets then do
        let target ← copy resolved.target.tree
        let (t, r) ← walk (visitor fun k r =>
          follow s (path ++ [marker]) resolved.path k r) s.sharedDepth target kind
        match r, kind with
        | .error f, _ => return .error f
        | .ok _, .schema => placeSchema resolved.target.name t
        | .ok _, _ => return .ok t
      else pure (.error .malformed)
termination_by unvisited s.targets path
decreasing_by exact unvisited_append_lt _h' _h

/-! ## The description -/

section

variable (v : Visitor Run) (bound : Nat)

/-- Inlines the schemas of the table one after the other; the state holds those that are done. -/
def schemasFrom : List Scalar → Run (Except Failure Unit)
  | [] => pure (.ok ())
  | key :: rest => do
    match ((← presentTable).bind Tree.entries?).bind (Entries.at? key) with
    | none => schemasFrom rest
    | some t =>
      let (t, r) ← slot v .schema t (walk v bound t)
      match ← presentTable with
      | some (.map a entries) => setTable (.map a (Entries.put key t entries))
      | _ => pure ()
      match r with
      | .error f => pure (.error f)
      | .ok _ => schemasFrom rest

/-- Inlines the table of schemas. -/
def schemas : Edit Run := fun t => do
  let keys := match ← presentTable with
    | some (.map _ entries) => entries.map (·.1)
    | _ => []
  let r ← schemasFrom v bound keys
  pure (t, r)

/-- Inlines a description in place: its components, then its paths. -/
def document : Edit Run :=
  Edit.andThen
    (Edit.value "components" <| Edit.whenMap <|
      Edit.andThen (fun t => walk v bound t .components) (schemas v bound))
    (Edit.value "paths" <| Edit.whenMap fun t => walk v bound t (.mapOf .pathItem))

end

/-- Puts the added schemas into a table, except under names that are there already. -/
def joinTable (added : List (String × Tree)) (table : Entries) : Entries :=
  added.foldl (fun entries (name, t) => if entries.has name then entries else entries.set name t) table

/-- Puts the table of schemas with the added ones into the description. -/
def withSchemas (table : Option Tree) (added : List (String × Tree)) (t : Tree) :
    Except Failure Tree :=
  match t with
  | .map a entries =>
    match Entries.get? entries "components", added with
    | none, [] => .ok t
    | none, added =>
      .ok (.map a (Entries.set entries "components" (.object [("schemas", .object added)])))
    | some (.map b components), added =>
      match table, added with
      | none, [] => .ok t
      | none, added =>
        .ok (.map a (Entries.set entries "components"
          (.map b (Entries.set components "schemas" (.object added)))))
      | some (.map c schemas), added =>
        .ok (.map a (Entries.set entries "components"
          (.map b (Entries.set components "schemas" (.map c (joinTable added schemas))))))
      | some _, [] => .ok t
      | some _, _ => .error .malformed
    | some _, [] => .ok t
    | some _, _ => .error .malformed
  | t => .ok t

/-- Inlines the description at a path, given the other documents and what is done to it in place. -/
def inlineWith (edit : Setting → Edit Run) (library : Library) (root : Place) (t : Tree) :
    Except Failure Tree :=
  let library := library.add root t
  let targets := candidates library
  let shared := (library.documents.map fun d => d.2.anchorBound).foldl (· + ·) 1
  let setting : Setting := ⟨library, root, targets, shared * (targets.length + 1)⟩
  let components := t.get? "components"
  let start : State := {
    components := components.filter fun c => !c.isMap
    table := components.bind (Tree.get? · "schemas")
    added := []
    records := []
    nextAnchor := t.anchorBound }
  let (((t, r), table), s) := (do return (← edit setting t, ← presentTable) : Run _).run start
  match r with
  | .error f => .error f
  | .ok _ => do
    let t ← withSchemas table s.added t
    let components := t.getD "components"
    return t.settle ((components.getD "schemas").recordIn (components.recordIn s.records))

/-- Inlines the description at a path, given the other documents. -/
def inlineReferences (library : Library) (root : Place) (t : Tree) : Except Failure Tree :=
  inlineWith (fun s => document (visitor (follow s [] s.root)) s.sharedDepth) library root t

end ApiContract.Inline
