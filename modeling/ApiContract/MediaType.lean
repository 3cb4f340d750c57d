import ApiContract.Notice
import ApiContract.Text.Class
import ApiContract.Text.Lower

/-!
# Media types

The essence of a media type, without parameters and in lower case, and the word that stands for it in
generated names.
-/

namespace ApiContract.MediaType

/-- The type without its parameters, in lower case. -/
def essence (type : String) : String :=
  Text.lower (Text.trim (String.ofList (type.toList.takeWhile (· != ';'))))

/-- The words of the known media types. -/
def knownWords : List (String × String) := [
  ("application/json", "Json"), ("application/octet-stream", "Binary"), ("application/xml", "Xml"),
  ("text/xml", "Xml"), ("image/gif", "Gif"), ("image/jpeg", "Jpeg"), ("image/png", "Png"),
  ("image/svg+xml", "Svg"), ("image/webp", "Webp"), ("text/csv", "Csv"), ("text/html", "Html"),
  ("text/plain", "PlainText")]

/-- The word for a media type in generated names. An unknown type has none and is reported. -/
def word (type : String) : String × Option Notice :=
  let e := (essence type).toList
  if e.count '/' != 1 || e.contains '*' then ("", some (.invalidMediaType type))
  else match knownWords.lookup (essence type) with
    | some w => (w, none)
    | none => ("", some (.unknownMediaType type))

/-- The essence of JSON bodies. -/
def json : String := "application/json"

/-- Whether a type is a kind of text. -/
def isText (type : String) : Bool :=
  "text/".toList.isPrefixOf (essence type).toList

end ApiContract.MediaType
