import ApiContract.Json.Octets
import ApiContract.Json.Text
import ApiContract.Http.Request
import ApiContract.Plan.Request
import ApiContract.Serve.Refusal
import ApiContract.Value.Conform
import ApiContract.Value.Written

/-!
# Bodies

Reads the octets of a request body as its plan says, and writes the value of a response body. A body of a
type is checked against it both ways, and only the first thing that is wrong is reported.
-/

namespace ApiContract.Serve

/-! ## Reading -/

/-- The refusal of a body that does not have the shape of its type. -/
def bodyRefusal (mismatches : List Mismatch) : Raised :=
  let first := mismatches.head?.getD ⟨[], .recordObjectType⟩
  .refusalFrom (.mismatch mismatches) (.bodyJson first.cause.message (Mismatch.pathText first.path))

/-- The value of a type that JSON octets hold. -/
def readTyped (m : Models) (type : TypeExpr) (octets : List UInt8) : Except Raised Value := do
  (m.ensureKnown type).mapError Raised.failure
  let tree ← (Json.Octets.read octets).mapError fun e =>
    bodyRefusal [⟨[], .jsonSyntax (e.message octets)⟩]
  (m.conform (Value.ofTree tree) .text type).mapError bodyRefusal

/-- The text that octets encode. -/
def readText (octets : List UInt8) : Except Raised String :=
  match Text.Utf8.decode? octets with
  | some s => .ok s
  | none => .error (.refusalFrom .encoding (.bodyText "octets that are no UTF-8"))

/-- The JSON value of a text. -/
def readValue (text : String) : Except Raised Value :=
  match Json.read text with
  | .ok t => .ok (.ofTree t)
  | .error e =>
    if e.fault.isLimit then .error .unforeseen
    else
      let reason := e.message text
      .error (.refusalFrom (.syntaxFault reason) (.bodyJson reason ""))

/-- The type of the values of a plan that needs one. -/
def bodyType (plan : BodyPlan) : Except Raised TypeExpr :=
  match plan.type with
  | some type => .ok type
  | none => .error .unforeseen

/-- The value of a body. -/
def readBody (m : Models) (plan : BodyPlan) (octets : List UInt8) : Except Raised Value :=
  match plan.format with
  | .jsonTyped => do readTyped m (← bodyType plan) octets
  | .jsonValue => do readValue (← readText octets)
  | .jsonText | .text => .text <$> readText octets
  | .jsonOctets | .octets => .ok (.scalar (.bytes octets))

/-- Refuses a request whose media type is not that of its operation's body. -/
def ensureMediaType (plan : BodyPlan) (headers : Http.Headers) : Except Raised Unit := do
  let some given := headers.get? "content-type" | throw (.refusal (.noHeader "content-type"))
  if MediaType.essence given ≠ MediaType.essence plan.mediaType then
    throw (.refusal (.mediaType given))

/-- The octets of a request's body, if it has one. -/
def bodyOctets (request : Http.Request) : Except Raised (Option (List UInt8)) :=
  match request.bodyOctets with
  | none => .ok none
  | some none => .error (.refusalFrom .encoding (.bodyBase64 "invalid base64 request body"))
  | some (some octets) => .ok (some octets)

/-- The value of a request's body. The media type is checked first, even where no body follows. -/
def readRequestBody (m : Models) (plan : RequestBodyPlan) (request : Http.Request)
    (headers : Http.Headers) : Except Raised Value := do
  ensureMediaType plan.body headers
  match ← bodyOctets request with
  | some octets => readBody m plan.body octets
  | none => if plan.required then throw (.refusal (.noBody "")) else return .null

/-! ## Writing -/

/-- The JSON text of a value of a type. -/
def writeTyped (m : Models) (type : TypeExpr) (v : Value) : Except Raised String := do
  (m.ensureKnown type).mapError Raised.failure
  let v ← (m.conform v .program type).mapError fun mismatches =>
    .refusalFrom (.mismatch mismatches) (.unwritable ("response body is not a " ++ type.spelling))
  match v.jsonText? with
  | some text => .ok text
  | none => .error (.refusalFrom .noForm
      (.unwritable ("failed to serialize " ++ type.spelling ++ " response body")))

/-- The refusal of a body that has no JSON text. -/
def valueRefusal : Raised :=
  .refusalFrom .noForm (.unwritable "failed to serialize JSON response body")

/-- A whole number that is too long to be written. -/
def isTooLong : Scalar → Bool
  | .int n => Json.digitLimit < (Nat.toDigits 10 n.natAbs).length
  | _ => false

/-- Meets the parts of a tree in the order of writing, at a depth, and stops at the first that cannot be
written. Containers too deep within each other are not foreseen. -/
def ensureWritable (t : Tree) : Nat → Except Raised Unit :=
  t.para (β := Nat → Except Raised Unit) {
    scalar s _ :=
      if isTooLong s || (Json.scalarText .spaced s).isNone then .error valueRefusal else .ok ()
    list _ items := within (items.map (·.2))
    map _ entries := within (entries.map fun (k, _, v) depth => do
      if isTooLong k || (Json.keyText .spaced k).isNone then throw valueRefusal
      v depth)
    set _ _ _ := .error valueRefusal
    pair x y := within [x.2, y.2]
    back _ _ _ := .error valueRefusal }
where
  /-- Meets the parts of a container at a depth. -/
  within (parts : List (Nat → Except Raised Unit)) (depth : Nat) : Except Raised Unit :=
    if depth < Json.Reader.depthLimit then parts.forM fun part => part (depth + 1)
    else .error .unforeseen

/-- The JSON text of any value. -/
def writeValue (v : Value) : Except Raised String :=
  match v.toTree? with
  | none => .error valueRefusal
  | some t => do
    ensureWritable t 0
    match Json.print? .spaced t with
    | some text => .ok text
    | none => .error valueRefusal

/-- The refusal of a body that is not of the kind that its format asks for. -/
def kindRefusal (kind : String) (v : Value) : Raised :=
  .refusal (.unwritable ("expected a " ++ kind ++ " response body, got " ++ v.typeName))

/-- What a response with a value as its body carries. -/
def writeBody (m : Models) (plan : BodyPlan) (v : Value) : Except Raised Http.Payload :=
  match plan.format with
  | .jsonTyped => do .text <$> writeTyped m (← bodyType plan) v
  | .jsonValue => .text <$> writeValue v
  | .jsonText | .text =>
    match v with
    | .text s => .ok (.text s)
    | v => .error (kindRefusal "str" v)
  | .jsonOctets | .octets =>
    match v with
    | .scalar (.bytes octets) => .ok (.octets octets)
    | v => .error (kindRefusal "bytes" v)

end ApiContract.Serve
