import ApiContract.Http.Headers
import ApiContract.Record
import ApiContract.Text.Base64

/-!
# Responses

A response as handlers make it, and the envelope in which the gateway takes it: header values by name,
and octets in base 64.
-/

namespace ApiContract.Http

/-- What a response carries. -/
inductive Payload where
  | none
  | text (s : String)
  | octets (bs : List UInt8)
deriving DecidableEq, Repr, Inhabited

/-- A response. -/
structure Response where
  status : Int
  headers : Headers
  body : Payload
deriving DecidableEq, Repr, Inhabited

/-- A response as the gateway takes it. -/
structure Envelope where
  status : Int
  headers : List (String × List String)
  body : Option String
  isBase64 : Bool
deriving DecidableEq, Repr

namespace Response

/-- A response of a status, and nothing more. -/
def bare (status : Int) : Response := ⟨status, .empty, .none⟩

/-- The envelope of a response. -/
def envelope (r : Response) : Envelope :=
  { status := r.status
    headers := r.headers.grouped
    body := match r.body with
      | .none => Option.none
      | .text s => some s
      | .octets bs => some (Text.Base64.encode bs)
    isBase64 := match r.body with
      | .octets _ => true
      | _ => false }

/-- A body that a program gives. -/
def payload : Tree → Record.Check Payload
  | .null => .ok .none
  | .text s => .ok (.text s)
  | .scalar (.bytes bs) => .ok (.octets bs)
  | _ => Record.wrong .textType

/-- The response of a status and a body that a program gives. -/
def ofGiven (status : Tree) (headers : Headers) (body : Tree) : Record.Check Response := do
  let (status, body) ← Record.both (Record.field "status_code" (Record.looseWhole status))
    (Record.field "body" (payload body))
  return ⟨status, headers, body⟩

end Response

namespace Envelope

/-- The fields of an envelope. An empty body is left out. -/
def toTree (e : Envelope) : Tree :=
  .object ([("statusCode", .scalar (.int e.status)), ("headers", .object []),
    ("multiValueHeaders", .object (e.headers.map fun (name, values) =>
      (name, .array (values.map Tree.text))))] ++
    (e.body.map fun s => ("body", Tree.text s)).toList ++
    [("isBase64Encoded", .scalar (.bool e.isBase64))])

end Envelope

end ApiContract.Http
