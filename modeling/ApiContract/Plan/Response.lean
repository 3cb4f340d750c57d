import ApiContract.Plan.Body
import ApiContract.Text.Class

/-!
# Plans of responses

The responses that an operation may give: one case for each status, in the order of the description,
and after them one whose status is chosen when it is given.
-/

namespace ApiContract

/-- A case of an operation's responses. Without a status it is the default. -/
structure ResponsePlan where
  name : String
  status : Option Nat
  body : Option BodyPlan
  description : Option String
deriving DecidableEq, Repr

namespace ResponsePlan

/-- The statuses that have names. -/
def statusNames : List (Nat × String) := [
  (100, "Continue"), (101, "SwitchingProtocols"), (102, "Processing"), (200, "Ok"),
  (201, "Created"), (202, "Accepted"), (203, "NonAuthoritativeInformation"), (204, "NoContent"),
  (205, "ResetContent"), (206, "PartialContent"), (207, "MultiStatus"), (208, "AlreadyReported"),
  (226, "ImUsed"), (300, "MultipleChoices"), (301, "MovedPermanently"), (302, "Found"),
  (303, "SeeOther"), (304, "NotModified"), (305, "UseProxy"), (307, "TemporaryRedirect"),
  (308, "PermanentRedirect"), (400, "BadRequest"), (401, "Unauthenticated"),
  (402, "PaymentRequired"), (403, "Forbidden"), (404, "NotFound"), (405, "MethodNotAllowed"),
  (406, "NotAcceptable"), (407, "ProxyAuthenticationRequired"), (408, "RequestTimeout"),
  (409, "Conflict"), (410, "Gone"), (411, "LengthRequired"), (412, "PreconditionFailed"),
  (413, "PayloadTooLarge"), (414, "UriTooLong"), (415, "UnsupportedMediaType"),
  (416, "RangeNotSatisfiable"), (417, "ExpectationFailed"), (418, "ImATeapot"),
  (421, "MisdirectedRequest"), (422, "UnprocessableEntity"), (423, "Locked"),
  (424, "FailedDependency"), (426, "UpgradeRequired"), (428, "PreconditionRequired"),
  (429, "TooManyRequests"), (431, "RequestHeaderFieldsTooLarge"),
  (451, "UnavailableForLegalReasons"), (500, "InternalServerError"), (501, "NotImplemented"),
  (502, "BadGateway"), (503, "ServiceUnavailable"), (504, "GatewayTimeout"),
  (505, "HttpVersionNotSupported"), (506, "VariantAlsoNegotiates"), (507, "InsufficientStorage"),
  (508, "LoopDetected"), (510, "NotExtended"), (511, "NetworkAuthenticationRequired")]

/-- The name of the case of a status; one without a name goes by its number. -/
def statusName (status : Int) : String :=
  ((statusNames.find? fun n => n.1 = status).map (·.2)).getD ("HttpStatus" ++ toString status)

/-- Whether a key stands for all statuses of a class: a digit and two crosses. -/
def isRange (key : String) : Bool :=
  match key.toList with
  | [c, x, y] => '1' ≤ c && c ≤ '5' && x.toUpper == 'X' && y.toUpper == 'X'
  | _ => false

/-- The status that a key stands for. Characters with a digit's value that are no digits of a number
are not foreseen. -/
def statusOf (key label : String) : Except Failure Nat :=
  if isRange key then .error (.statusRange key label)
  else if key.isEmpty || !key.toList.all Text.isDigitLike then .error (.statusInvalid key label)
  else if 4300 < key.length then .error .malformed
  else match Text.digitsValue? key.toList with
    | none => .error .malformed
    | some n => if 100 ≤ n ∧ n ≤ 599 then .ok n else .error (.statusInvalid key label)

/-- The plan of one case. -/
def of (table : Entries) (label name : String) (status : Option Nat) (response : Tree) :
    Compile.Run ResponsePlan := do
  let some entries := response.entries? | throw .malformed
  let body ← BodyPlan.ofContent table (entries.orNull "content")
    ("the `" ++ name ++ "` response of " ++ label)
  let description ← Compile.lift (Compile.textField "description" (entries.orNull "description"))
  return ⟨name, status, body, description⟩

/-- The plans of the cases with a status, in order. -/
def ofStatuses (table : Entries) (label : String) : Entries → Compile.Run (List ResponsePlan)
  | [] => return []
  | (key, response) :: rest => do
    if key = .text "default" then ofStatuses table label rest
    else
      let status ← Compile.lift (statusOf key.display label)
      let plan ← of table label (statusName status) (some status) response
      return plan :: (← ofStatuses table label rest)

/-- The plans of an operation's responses. -/
def all (table : Entries) (label : String) (responses : Entries) :
    Compile.Run (List ResponsePlan) := do
  let plans ← ofStatuses table label responses
  match responses.orNull "default" with
  | .null => return plans
  | response => return plans ++ [← of table label "Default" none response]

end ResponsePlan

end ApiContract
