import ApiContract.Failure
import ApiContract.Json.Text
import ApiContract.Text.Class
import ApiContract.Yaml.Value

/-!
# Reading documents

The text of a document is JSON or YAML, as its name says; if the name does not say, JSON is tried first.
A document is a map. Descriptions are accepted if they are of the third major version of the format. A
description of the older format says so under a key of its own, which is refused whatever else there is.
-/

namespace ApiContract.Document

/-- The formats of documents. -/
inductive Format where
  | json
  | yaml
deriving DecidableEq, Repr

/-- The format that the end of a file's name stands for. -/
def Format.ofSuffix? (suffix : String) : Option Format :=
  match Text.lower suffix with
  | ".json" => some .json
  | ".yaml" | ".yml" => some .yaml
  | _ => none

/-- Reads a value as YAML. -/
def readYaml (origin text : String) : Except Failure Tree :=
  match Yaml.read text with
  | .ok t => .ok t
  | .error .value => .error .malformed
  | .error f => .error (.yamlSyntax origin (f.message text))

/-- Reads a value. -/
def readValue (format : Option Format) (origin text : String) : Except Failure Tree :=
  match format with
  | some .yaml => readYaml origin text
  | _ =>
    match Json.read text with
    | .ok t => .ok t
    | .error e =>
      if e.fault.isLimit then .error .malformed
      else if format = some .json then .error (.jsonSyntax origin (e.message text))
      else readYaml origin text

/-- What stands at the top of a document that is no map, in a message. -/
def kindText : Tree → String
  | .null => "an empty document"
  | t => "a " ++ t.typeName

/-- Reads a document. -/
def parse (format : Option Format) (origin text : String) : Except Failure Tree := do
  let t ← readValue format origin text
  if t.isMap then return t else throw (.notAMapping origin (kindText t))

end ApiContract.Document

namespace ApiContract.Version

/-- The version of a description. -/
def check (document : Entries) : Except Failure String :=
  match document.get? "swagger" with
  | some old => .error (.oldVersion old.display)
  | none =>
    match document.orNull "openapi" with
    | .null => .error .noVersion
    | t =>
      let version := t.display
      if "3.".toList.isPrefixOf version.toList then .ok version
      else .error (.unsupportedVersion version)

end ApiContract.Version
