import ApiContract.Http.Headers
import ApiContract.Record
import ApiContract.Text.Base64
import ApiContract.Text.Utf8
import ApiContract.TypeModel.Form

/-!
# Requests

A request as the gateway hands it on: parameters are split already, and a body is text, or octets in
base 64. Every part may be left out, and the maps may also be null. Each part goes by its wire name, or
else by its own.
-/

namespace ApiContract.Http

open Record

/-- What the gateway knows about a request. -/
structure Context where
  operationName : Option String
  requestId : Option String
  accountId : Option String
  apiId : Option String
  stage : Option String
  resourcePath : Option String
  httpMethod : Option String
  identity : Entries
  authorizer : Option Entries
  /-- Everything else. -/
  extra : Entries
deriving DecidableEq, Inhabited

/-- A request. -/
structure Request where
  resource : Option String
  path : Option String
  httpMethod : Option String
  headers : List (String × String)
  multiValueHeaders : List (String × List String)
  query : List (String × String)
  multiValueQuery : List (String × List String)
  pathParameters : List (String × String)
  stageVariables : List (String × String)
  context : Context
  body : Option String
  isBase64 : Bool
deriving DecidableEq, Inhabited

/-! ## Reading events -/

/-- The name under which a part is given, and its value. -/
def given? (es : Entries) (wireName name : String) : Option (String × Tree) :=
  ((es.get? wireName).map (wireName, ·)).or ((es.get? name).map (name, ·))

/-- Checks a part, if it is given. -/
def part {α : Type} (es : Entries) (wireName name : String) (absent : α) (check : Tree → Check α) :
    Check α :=
  match given? es wireName name with
  | some (key, t) => field key (check t)
  | none => .ok absent

/-- Null stands for nothing. -/
def orEmpty {α : Type} (check : Tree → Check (List α)) : Tree → Check (List α)
  | .null => .ok []
  | t => check t

/-- The fields of a context by wire name and name. -/
def Context.names : List (String × String) := [
  ("operationName", "operation_name"), ("requestId", "request_id"), ("accountId", "account_id"),
  ("apiId", "api_id"), ("stage", "stage"), ("resourcePath", "resource_path"),
  ("httpMethod", "http_method"), ("identity", "identity"), ("authorizer", "authorizer")]

/-- What no field of a context takes. -/
def Context.extraOf (es : Entries) : Entries :=
  let taken := Context.names.filterMap fun (w, n) => (given? es w n).map (·.1)
  es.filter fun (k, _) => match k with
    | .text s => !taken.contains s
    | _ => true

/-- The context of entries. -/
def Context.ofEntries (es : Entries) : Check Context := do
  let text (wireName name : String) := part es wireName name none textOrNone
  let ((operationName, requestId), (accountId, apiId), (stage, resourcePath), httpMethod, identity,
      authorizer) ←
    both (both (text "operationName" "operation_name") (text "requestId" "request_id"))
      (both (both (text "accountId" "account_id") (text "apiId" "api_id"))
        (both (both (text "stage" "stage") (text "resourcePath" "resource_path"))
          (both (text "httpMethod" "http_method")
            (both (part es "identity" "identity" [] map)
              (part es "authorizer" "authorizer" none (optional map))))))
  return { operationName, requestId, accountId, apiId, stage, resourcePath, httpMethod, identity,
           authorizer, extra := extraOf es }

/-- The context that an event holds. -/
def Context.ofTree (t : Tree) : Check Context :=
  match t with
  | .null => ofEntries []
  | t => match t.entries? with
    | some es => ofEntries es
    | none => wrong (.recordType "ProxyRequestContext")

/-- The context of a request without one. -/
def Context.empty : Context :=
  ⟨none, none, none, none, none, none, none, [], none, []⟩

/-- The request of an event's entries. -/
def Request.ofEntries (es : Entries) : Check Request := do
  let text (wireName name : String) := part es wireName name none textOrNone
  let texts (wireName name : String) := part es wireName name [] (orEmpty (mapOf Record.text))
  let lists (wireName name : String) :=
    part es wireName name [] (orEmpty (mapOf (listOf Record.text)))
  let ((resource, path), (httpMethod, headers), (multiValueHeaders, query),
      (multiValueQuery, pathParameters), (stageVariables, context), body, isBase64) ←
    both (both (text "resource" "resource") (text "path" "path"))
      (both (both (text "httpMethod" "http_method") (texts "headers" "headers"))
        (both (both (lists "multiValueHeaders" "multi_value_headers")
            (texts "queryStringParameters" "query_string_parameters"))
          (both (both (lists "multiValueQueryStringParameters" "multi_value_query_string_parameters")
              (texts "pathParameters" "path_parameters"))
            (both (both (texts "stageVariables" "stage_variables")
                (part es "requestContext" "request_context" Context.empty Context.ofTree))
              (both (text "body" "body")
                (part es "isBase64Encoded" "is_base64_encoded" false looseTruth))))))
  return { resource, path, httpMethod, headers, multiValueHeaders, query, multiValueQuery,
           pathParameters, stageVariables, context, body, isBase64 }

/-- The request that an event is. -/
def Request.ofTree (t : Tree) : Check Request :=
  match t.entries? with
  | some es => ofEntries es
  | none => wrong (.recordType "ProxyRequest")

/-! ## Parts of requests -/

namespace Request

/-- Every header field, repeated ones included. -/
def headerItems (r : Request) : List (String × String) :=
  if r.multiValueHeaders.isEmpty then r.headers
  else r.multiValueHeaders.flatMap fun (name, values) => values.map (name, ·)

/-- The header fields of a request. Names must be ASCII; the first that is not is reported. -/
def headerFields (r : Request) : Except String Headers :=
  match r.headerItems.find? fun i => !isAscii i.1 with
  | some (name, _) => .error name
  | none => .ok (.ofList r.headerItems)

/-- The one value of a query parameter. -/
def queryValue (r : Request) (name : String) : Option String :=
  (r.query.lookup name).or ((r.multiValueQuery.lookup name).bind List.head?)

/-- All values of a query parameter. -/
def queryValues (r : Request) (name : String) : Option (List String) :=
  (r.multiValueQuery.lookup name).or ((r.query.lookup name).map ([·]))

/-- The octets of the body: nothing if there is no body, and an inner nothing if it is no base 64. -/
def bodyOctets (r : Request) : Option (Option (List UInt8)) :=
  r.body.map fun s =>
    if r.isBase64 then Text.Base64.decode? s else some (Text.Utf8.encode s)

end Request

/-! ## The form of requests -/

/-- A map of texts, present only if it has entries. -/
def textsField (items : List (String × String)) : Option Tree :=
  if items.isEmpty then none else some (.object (items.map fun (k, v) => (k, .text v)))

/-- A map of lists of texts, present only if it has entries. -/
def listsField (items : List (String × List String)) : Option Tree :=
  if items.isEmpty then none
  else some (.object (items.map fun (k, vs) => (k, .array (vs.map Tree.text))))

/-- The form of a context, by the fields' own names. -/
def Context.toTree (c : Context) : Tree :=
  let base := Tree.fields [
    ("operation_name", Tree.textField c.operationName), ("request_id", Tree.textField c.requestId),
    ("account_id", Tree.textField c.accountId), ("api_id", Tree.textField c.apiId),
    ("stage", Tree.textField c.stage), ("resource_path", Tree.textField c.resourcePath),
    ("http_method", Tree.textField c.httpMethod),
    ("identity", if c.identity.isEmpty then none else some (.map none c.identity)),
    ("authorizer", c.authorizer.map (Tree.map none))]
  .map none (base.entries?.getD [] ++ c.extra)

/-- The form of a request, by the parts' own names. What is as by default is left out. -/
def Request.toTree (r : Request) : Tree :=
  let context := r.context.toTree
  Tree.fields [
    ("resource", Tree.textField r.resource), ("path", Tree.textField r.path),
    ("http_method", Tree.textField r.httpMethod), ("headers", textsField r.headers),
    ("multi_value_headers", listsField r.multiValueHeaders),
    ("query_string_parameters", textsField r.query),
    ("multi_value_query_string_parameters", listsField r.multiValueQuery),
    ("path_parameters", textsField r.pathParameters),
    ("stage_variables", textsField r.stageVariables),
    ("request_context", if context.truthy then some context else none),
    ("body", Tree.textField r.body), ("is_base64_encoded", Tree.flag r.isBase64)]

end ApiContract.Http
