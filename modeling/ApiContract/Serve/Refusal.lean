import ApiContract.Failure
import ApiContract.Http.Response

/-!
# Refusals

Why a request is not served. A refusal has a status; the client's own mistakes are told to the client,
and of everything else the response says nothing.
-/

namespace ApiContract.Serve

/-- Why a request is not served. A note is for logs; without one the refusal's name stands there. -/
inductive Refusal where
  | bodyBase64 (note : String)
  | bodyJson (reason path : String)
  | bodyText (note : String)
  | headerText (header : String)
  | pathParameter (parameter note : String)
  | queryParameter (parameter note : String)
  | noBody (note : String)
  | noHeader (header : String)
  | noParameter (parameter : String)
  | mediaType (given : String)
  | unknownOperation (id : String)
  | fault (note : String)
  | unwritable (note : String)
  | other (note : String)
deriving DecidableEq, Repr

namespace Refusal

/-- The name of a refusal in logs. -/
def name : Refusal → String
  | .bodyBase64 _ => "InvalidBodyBase64"
  | .bodyJson .. => "InvalidBodyJson"
  | .bodyText _ => "InvalidBodyUtf8"
  | .headerText _ => "InvalidHeaderEncoding"
  | .pathParameter .. => "InvalidRequestPathParam"
  | .queryParameter .. => "InvalidRequestQueryParam"
  | .noBody _ => "MissingRequestBody"
  | .noHeader _ => "MissingRequestHeader"
  | .noParameter _ => "MissingRequestParam"
  | .mediaType _ => "UnexpectedContentType"
  | .unknownOperation _ => "UnexpectedOperationId"
  | .fault _ => "UnhandledFault"
  | .unwritable _ => "ResponseSerializationError"
  | .other _ => "EventError"

/-- The refusal of a name, with what it is about and a note. -/
def ofName? (name : String) (arguments : List String) : Option Refusal :=
  match name, arguments with
  | "InvalidBodyJson", [reason] => some (.bodyJson reason "")
  | "InvalidBodyJson", [reason, path] => some (.bodyJson reason path)
  | "InvalidHeaderEncoding", [header] => some (.headerText header)
  | "InvalidRequestPathParam", [p] => some (.pathParameter p "")
  | "InvalidRequestPathParam", [p, note] => some (.pathParameter p note)
  | "InvalidRequestQueryParam", [p] => some (.queryParameter p "")
  | "InvalidRequestQueryParam", [p, note] => some (.queryParameter p note)
  | "MissingRequestHeader", [header] => some (.noHeader header)
  | "MissingRequestParam", [p] => some (.noParameter p)
  | "UnexpectedContentType", [given] => some (.mediaType given)
  | "UnexpectedOperationId", [id] => some (.unknownOperation id)
  | name, [] => ofNote? name ""
  | name, [note] => ofNote? name note
  | _, _ => none
where
  /-- The refusals that are about nothing more than a note says. -/
  ofNote? (name note : String) : Option Refusal :=
    [Refusal.bodyBase64 note, .bodyText note, .noBody note, .fault note, .unwritable note,
      .other note].find? fun r => r.name = name

/-- What the client is told, if it is told anything. -/
def clientText : Refusal → Option String
  | .bodyJson reason path =>
    if path.isEmpty then some ("Invalid request body: " ++ reason)
    else some ("Invalid request body (path: `" ++ path ++ "`): " ++ reason)
  | .bodyText _ => some "Request body must be UTF-8 encoded"
  | .noBody _ => some "Missing request body"
  | .mediaType given => some ("Unexpected content type `" ++ given ++ "`")
  | .headerText header =>
    some ("Invalid value for header `" ++ header ++ "`: must be UTF-8 encoded")
  | .noHeader header => some ("Missing request header `" ++ header ++ "`")
  | .pathParameter p _ => some ("Invalid `" ++ p ++ "` request path parameter")
  | .queryParameter p _ => some ("Invalid `" ++ p ++ "` query parameter")
  | .noParameter p => some ("Missing required parameter `" ++ p ++ "`")
  | .bodyBase64 _ | .unknownOperation _ | .fault _ | .unwritable _ | .other _ => none

/-- The status of the response: the client is told of its own mistakes only. -/
def status (r : Refusal) : Int :=
  if r.clientText.isSome then 400 else 500

/-- What logs say. -/
def note : Refusal → String
  | .bodyBase64 n | .bodyText n | .noBody n | .fault n | .unwritable n | .other n => n
  | .bodyJson reason path => if path.isEmpty then reason else path ++ ": " ++ reason
  | .headerText header => "header `" ++ header ++ "` is not UTF-8 encoded"
  | .pathParameter p n => "invalid path parameter `" ++ p ++ "`: " ++ n
  | .queryParameter p n => "invalid query parameter `" ++ p ++ "`: " ++ n
  | .noHeader header => "missing request header `" ++ header ++ "`"
  | .noParameter p => "missing required parameter `" ++ p ++ "`"
  | .mediaType given => "unexpected content type `" ++ given ++ "`"
  | .unknownOperation id => "unexpected operation `" ++ id ++ "`"

/-- The wording of a refusal. -/
def message (r : Refusal) : String :=
  if r.note.isEmpty then r.name else r.note

/-- The response to a refused request. -/
def response (r : Refusal) : Http.Response :=
  match r.clientText with
  | none => .bare r.status
  | some text => ⟨r.status, Http.Headers.empty.set "content-type" "text/plain", .text text⟩

end Refusal

/-! ## Causes -/

/-- What led to a refusal. -/
inductive Cause where
  /-- A value that does not fit. -/
  | mismatch (mismatches : List Mismatch)
  /-- Octets or characters that encode nothing. -/
  | encoding
  /-- A text that is no literal of an enumeration. -/
  | notAMember (text : String)
  /-- A text that is no JSON. -/
  | syntaxFault (reason : String)
  /-- A value that has no JSON form. -/
  | noForm
  /-- What a hook raised. -/
  | raised (kind text : String)
  /-- What no rule foresees. -/
  | unforeseen
deriving DecidableEq, Repr

/-- A refusal and what led to it. -/
structure Refused where
  refusal : Refusal
  cause : Option Cause
deriving DecidableEq, Repr

/-- What a hook gives as a response. -/
inductive Reply where
  | response (r : Http.Response)
  /-- Something that the gateway cannot take. -/
  | unsendable
deriving DecidableEq, Repr

/-- What interrupts the serving of a request. -/
inductive Raised where
  /-- A failure that the implementation of an operation reports. -/
  | handlerError (text : String)
  /-- A request that is not authenticated, and what is given as its response. -/
  | rejection (text : String) (reply : Reply)
  | refused (r : Refused)
  /-- A type that cannot be read or written by. -/
  | failure (f : Failure)
  /-- Anything else that a hook raises. -/
  | other (kind text : String)
  /-- What no rule foresees. -/
  | unforeseen
deriving DecidableEq

namespace Raised

/-- A rejection with a response. -/
def rejected (r : Http.Response) : Raised :=
  .rejection ("authentication rejected with status " ++ toString r.status) (.response r)

/-- A refusal without a cause. -/
def refusal (r : Refusal) : Raised := .refused ⟨r, none⟩

/-- A refusal with a cause. -/
def refusalFrom (cause : Cause) (r : Refusal) : Raised := .refused ⟨r, some cause⟩

/-- The kind of what is raised and its wording. -/
def wording : Raised → String × String
  | .handlerError text => ("HandlerError", text)
  | .rejection text _ => ("AuthenticationRejected", text)
  | .refused r => (r.refusal.name, r.refusal.message)
  | .failure f => ("GenerationError", f.message)
  | .other kind text => (kind, text)
  | .unforeseen => ("Exception", "")

/-- The refusal of a request that something raised interrupts. -/
def fault (r : Raised) : Refused :=
  let (kind, text) := r.wording
  { refusal := .fault ("unhandled " ++ kind ++ ": " ++ text)
    cause := match r with
      | .failure _ | .unforeseen => some .unforeseen
      | _ => some (.raised kind text) }

end Raised

end ApiContract.Serve
