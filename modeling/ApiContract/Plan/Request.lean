import ApiContract.Plan.Body

/-!
# Plans of requests

Where the values of an operation's parameters come from and how they are read. Parameters are scalars
or enumerations, and in the query also lists of these; a plain string is handed on as it is.
-/

namespace ApiContract

/-- The part of a request that carries a parameter. -/
inductive ParameterPlace where
  | path
  | query
  | header
  | cookie
deriving DecidableEq, Repr

namespace ParameterPlace

/-- The word for a place. -/
def name : ParameterPlace → String
  | .path => "path"
  | .query => "query"
  | .header => "header"
  | .cookie => "cookie"

/-- Every place. -/
def all : List ParameterPlace := [.path, .query, .header, .cookie]

/-- The place of a word. -/
def ofName? (name : String) : Option ParameterPlace :=
  all.find? fun p => p.name = name

end ParameterPlace

/-- A parameter of an operation: `argument` is its name in generated code. Unless it is parsed, the
text in the request is the value. -/
structure ParameterPlan where
  name : String
  argument : String
  place : ParameterPlace
  required : Bool
  type : TypeExpr
  parsed : Bool
  isArray : Bool
  description : Option String
deriving DecidableEq, Repr

/-- The body of an operation's requests. -/
structure RequestBodyPlan where
  body : BodyPlan
  required : Bool
  description : Option String
deriving DecidableEq, Repr

namespace ParameterPlan

/-- The arguments that every handler has besides its parameters. -/
def handlerArguments : List String :=
  ["self", "request_body", "headers", "request_context", "context", "auth_ok"]

/-- Refuses types of parameters that no text stands for. -/
def ensureScalar (types : List NamedType) (type : TypeExpr) (name label : String) :
    Except Failure Unit :=
  match type with
  | .array .. | .map .. | .primitive .any _ _ | .primitive .empty _ _ =>
    .error (.parameterNotScalar name label)
  | .primitive .. => .ok ()
  | .named n _ =>
    let typeName := n.getD ""
    match types.find? fun t => t.name = typeName with
    | some t =>
      if t.isEnumeration then .ok () else .error (.parameterNotEnum name label typeName)
    | none => .error (.parameterNotEnum name label typeName)

/-- Whether values of a schema have to be parsed, for one that stands directly in a parameter. -/
def needsParsing (schema : Tree) : Except Failure Bool :=
  (Schema.isPlainString schema).map (!·)

/-- The items of an array schema, or of the one that it refers to. -/
def itemSchema (table : Entries) (schema : Tree) : Except Failure Tree := do
  let some entries := (← Compile.resolve table schema).entries? | throw .malformed
  return entries.orNull "items"

/-- Whether the texts of a parameter are parsed; refuses what cannot be. -/
def parsing (table : Entries) (schema : Tree) (type : TypeExpr) (place : ParameterPlace)
    (name label : String) : Compile.Run Bool := do
  match type with
  | .array item _ _ =>
    if place ≠ .query then throw (.arrayParameter name label)
    let parsed ← Compile.lift (itemSchema table schema >>= needsParsing)
    Compile.lift (ensureScalar (← get).types item name label)
    return parsed
  | _ =>
    let parsed ← Compile.lift (needsParsing schema)
    Compile.lift (ensureScalar (← get).types type name label)
    return parsed

/-- Whether a type is a list. -/
def isArrayType : TypeExpr → Bool
  | .array .. => true
  | _ => false

/-- The plan of one parameter of the operation with a label. -/
def of (table : Entries) (label : String) (parameter : Tree) : Compile.Run ParameterPlan := do
  let some entries := parameter.entries? | throw .malformed
  let name := ((entries.get? "name").getD (.text "")).display
  let location := entries.orNull "in"
  let some place := location.text?.bind ParameterPlace.ofName?
    | throw (.parameterLocation name label location.literal)
  if place = .cookie then throw (.cookieParameter name label)
  if entries.has "content" then throw (.contentParameter name label)
  let schema := entries.orNull "schema"
  if !schema.isMap then throw (.parameterWithoutSchema name label)
  let type ← Compile.typeOf table schema
  let parsed ← parsing table schema type place name label
  if place = .header ∧ parsed then throw (.headerParameter name label)
  let description ← Compile.lift (Compile.textField "description" (entries.orNull "description"))
  return {
    name, place, type, parsed, description
    argument := Text.identifier name handlerArguments
    required := (entries.orNull "required").truthy || place == .path
    isArray := isArrayType type }

/-- The plans of all parameters of an operation, each with an argument of its own. -/
def all (table : Entries) (label : String) (parameters : List Tree) :
    Compile.Run (List ParameterPlan) := do
  let plans ← parameters.mapM (of table label)
  let arguments := Text.uniqueNames handlerArguments (plans.map (·.argument))
  return (plans.zip arguments).map fun (p, a) => { p with argument := a }

end ParameterPlan

namespace RequestBodyPlan

/-- The plan of a request body, if it declares a content. -/
def of (table : Entries) (label : String) (requestBody : Tree) :
    Compile.Run (Option RequestBodyPlan) := do
  let some entries := requestBody.entries? | throw .malformed
  match ← BodyPlan.ofContent table (entries.orNull "content") ("the request body of " ++ label) with
  | none => return none
  | some body =>
    let description ← Compile.lift (Compile.textField "description" (entries.orNull "description"))
    return some ⟨body, (entries.orNull "required").truthy, description⟩

end RequestBodyPlan

end ApiContract
