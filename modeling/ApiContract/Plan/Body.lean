import ApiContract.TypeModel.Compile

/-!
# Body formats

How the octets of a request or response body stand for a value. The media type decides; for JSON the
schema does too: without one a body is any JSON value, with a string schema it is the raw text or the
raw octets, and with every other schema it is a value of the schema's type.
-/

namespace ApiContract

/-- What a body holds. -/
inductive BodyFormat where
  /-- Any JSON value. -/
  | jsonValue
  /-- The text of a JSON document, not read any further. -/
  | jsonText
  /-- The octets of a JSON document, not read any further. -/
  | jsonOctets
  /-- A JSON value of the plan's type. -/
  | jsonTyped
  | octets
  | text
deriving DecidableEq, Repr

/-- A media type and what bodies of it hold. -/
structure BodyPlan where
  mediaType : String
  format : BodyFormat
  type : Option TypeExpr
deriving DecidableEq, Repr

namespace BodyPlan

/-- What a JSON body with a schema holds, and its type. -/
def jsonFormat (table : Entries) (schema : Tree) : Compile.Run (BodyFormat × Option TypeExpr) := do
  let resolved ← Compile.lift (Compile.resolve table schema)
  let kind ← Compile.lift (Schema.kindOf resolved)
  if kind != .string then return (.jsonTyped, some (← Compile.typeOf table schema))
  let entries := resolved.entries?.getD []
  if !(Schema.literals entries).isEmpty then throw (.enumBody (Schema.brief resolved))
  return (if entries.orNull "format" == .text "binary" then .jsonOctets else .jsonText, none)

/-- The plan of a body of a media type, with or without a schema. -/
def of (table : Entries) (mediaType : String) (schema : Option Tree) : Compile.Run BodyPlan := do
  if MediaType.essence mediaType = MediaType.json then
    match schema with
    | none => return ⟨mediaType, .jsonValue, none⟩
    | some schema =>
      let (format, type) ← jsonFormat table schema
      return ⟨mediaType, format, type⟩
  return ⟨mediaType, if MediaType.isText mediaType then .text else .octets, none⟩

/-- Texts that are joined in a message; what is no text is not foreseen. -/
def joinable (parts : List Tree) : Except Failure (List String) :=
  parts.mapM fun t => match t with
    | .text s => .ok s
    | _ => .error .malformed

/-- The one media type of a `content` and its entry. More than one is refused. -/
def singleMediaType (content : Tree) (what : String) : Except Failure (Option (String × Tree)) :=
  if !content.truthy then .ok none
  else match content.entries? with
    | some [(type, entry)] => .ok (some (type.display, entry))
    | _ => do
      if content.typeName = "bytes" then throw .malformed
      let parts ← Compile.iterate content
      if parts.length ≤ 1 then throw .malformed
      throw (.severalMediaTypes what (← joinable parts))

/-- The plan of the body that a `content` declares, if it declares one. -/
def ofContent (table : Entries) (content : Tree) (what : String) :
    Compile.Run (Option BodyPlan) := do
  match ← Compile.lift (singleMediaType content what) with
  | none => return none
  | some (type, entry) =>
    let schema := match entry.getD "schema" with
      | .null => none
      | t => some t
    return some (← of table type schema)

end BodyPlan

end ApiContract
