import ApiContract.Operation.Basic
import ApiContract.Text.NameChar

/-!
# Deployment units

A unit is a module that serves some of the operations, and the function that requests to them are
passed to. Its filter picks operations, and a unit without a filter serves all; settings can name
identifiers, tags and beginnings of paths to pick by. No operation may be served twice.
-/

namespace ApiContract

/-- The function behind a unit: one of a deployment template by its name there, or an existing one by
its coordinates. -/
inductive Target where
  | template (name : String)
  | function (gatewayRegion account region name : String) (qualifier : Option String)
deriving DecidableEq, Repr

/-- What operations are picked by: one of the lists has to speak of them. -/
structure Filter where
  operationIds : List String
  tags : List String
  pathPrefixes : List String
deriving DecidableEq, Repr

/-- A unit. -/
structure Deployment where
  name : String
  target : Option Target
  filter : Option (Operation → Bool)

/-- A unit as settings describe it. -/
structure Deployment.Configured where
  name : String
  target : Target
  lists : Filter
deriving DecidableEq, Repr

namespace Target

/-- What every invocation address has between the gateway's region and the function. -/
def functionsPath : String := "lambda:path/2015-03-31/functions/"

/-- The address under which the gateway invokes the function: a text, or a substitution that the
deployment makes. -/
def invocationUri : Target → Tree
  | .template name => .object [("Fn::Sub", .text ("arn:aws:apigateway:$\x7bAWS::Region\x7d:" ++
      functionsPath ++ "$\x7b" ++ name ++ "\x7d/invocations"))]
  | .function gatewayRegion account region name qualifier =>
    let suffix := match qualifier with
      | some a => if a.isEmpty then "" else ":" ++ a
      | none => ""
    .text ("arn:aws:apigateway:" ++ gatewayRegion ++ ":" ++ functionsPath ++ "arn:aws:lambda:" ++
      region ++ ":" ++ account ++ ":function:" ++ name ++ suffix ++ "/invocations")

/-- How the gateway passes requests to the function. -/
def integration (t : Target) : Tree :=
  .object [("httpMethod", .text "POST"), ("type", .text "aws_proxy"), ("uri", t.invocationUri)]

open Record in
/-- Reads a target from settings: a name in the template, or all coordinates, never both. -/
def ofSettings (t : Tree) : Check Target := do
  let es ← entriesOf "LambdaArnConfig" t
  let names := ["logical_id", "apigw_region", "account_id", "function_region", "function_name",
    "alias"]
  match ← each (names.map fun n => field n (textOrNone (es.orNull n))) with
  | [some logical, none, none, none, none, none] => return .template logical
  | some _ :: _ => wrong (.rule "logical_id cannot be combined with known ARN fields")
  | [none, some gateway, some account, some region, some name, qualifier] =>
    return .function gateway account region name qualifier
  | _ => wrong (.rule ("either logical_id or all of apigw_region, account_id, function_region " ++
      "and function_name are required"))

end Target

namespace Filter

/-- Whether a filter picks an operation. -/
def picks (f : Filter) (o : Operation) : Bool :=
  o.id.any f.operationIds.contains || o.tags.any f.tags.contains ||
    f.pathPrefixes.any fun p => p.toList.isPrefixOf o.path.toList

/-- Whether there is nothing to pick by. -/
def isEmpty (f : Filter) : Bool :=
  f.operationIds.isEmpty && f.tags.isEmpty && f.pathPrefixes.isEmpty

end Filter

namespace Deployment

/-- Whether a unit serves an operation. -/
def serves (d : Deployment) (o : Operation) : Bool :=
  match d.filter with
  | none => true
  | some picks => picks o

/-- A unit whose name can be a module's and that picks its operations by lists. -/
def make (name : String) (target : Option Target) (filter : Option Filter) :
    Except Failure Deployment :=
  if Text.isIdentifier name then .ok ⟨name, target, filter.map Filter.picks⟩ else .error (.unitName name)

open Record in
/-- Reads a unit's description from settings. -/
def Configured.ofSettings (t : Tree) : Check Configured := do
  let es ← entriesOf "DeployableUnitConfig" t
  let ((name, target), ids, tags, prefixes) ←
    both (both (required es "name" text) (required es "lambda_arn" Target.ofSettings))
      (both (withDefault es "operation_ids" [] (listOf text))
        (both (withDefault es "tags" [] (listOf text))
          (withDefault es "path_prefixes" [] (listOf text))))
  if !Text.isIdentifier name then
    wrong (.rule ("unit name `" ++ name ++ "` is not a valid identifier"))
  return ⟨name, target, ⟨ids, tags, prefixes⟩⟩

/-- The unit that settings describe. Without anything to pick by it serves all operations. -/
def ofConfigured (c : Configured) : Deployment :=
  ⟨c.name, some c.target, if c.lists.isEmpty then none else some c.lists.picks⟩

/-- Reads a unit from settings. -/
def ofSettings (t : Tree) : Record.Check Deployment :=
  ofConfigured <$> Configured.ofSettings t

/-- Puts an operation at the end of a unit's list. -/
def addTo (assigned : List (String × List Operation)) (unit : String) (o : Operation) :
    List (String × List Operation) :=
  assigned.map fun (n, os) => if n = unit then (n, os ++ [o]) else (n, os)

/-- Adds an operation to the one unit that serves it, if there is one. -/
def assignOne (units : List Deployment) (assigned : List (String × List Operation))
    (o : Operation) : Except Failure (List (String × List Operation)) :=
  match (units.filter (·.serves o)).map (·.name) with
  | [] => .ok assigned
  | [unit] => if o.id.isNone then .error (.noOperationId o.label) else .ok (addTo assigned unit o)
  | several => .error (.severalUnits o.label several)

/-- The operations of every unit, in order. -/
def assign (operations : List Operation) (units : List Deployment) :
    Except Failure (List (String × List Operation)) :=
  operations.foldlM (assignOne units) ((units.map (·.name)).eraseDups.map fun n => (n, []))

end Deployment

end ApiContract
