import ApiContract.Text.Utf8
import ApiContract.Value.Basic

/-!
# Values as JSON

The JSON form of a value. A record is an object with its fields under their wire names and then its
further entries; a field that is not required and holds nothing is left out, and the case of a union
starts with its tag. A member of an enumeration is its literal, octets are the text that they encode,
and dates and times are texts.
-/

namespace ApiContract.Value

/-- The JSON form of a scalar, unless it is octets that encode no text. -/
def wireScalar : Scalar → Option Tree
  | .bytes octets => (Text.Utf8.decode? octets).map Tree.text
  | .date _ d => some (.text d.isoText)
  | .dateTime _ t => some (.text t.wireText)
  | s => some (.scalar s)

/-- Named parts as entries, unless one has no form. -/
def wireEntries (parts : List (String × Option Tree)) : Option Entries :=
  Json.allSome (parts.map fun (k, v) => v.map fun t => (Scalar.text k, t))

/-- The written fields of a record, by wire name. -/
def writtenFields {β : Type} (type : RecordType) (fields : List (String × Value × β)) :
    List (String × β) :=
  type.body.fields.filterMap fun f => (fields.lookup f.name).map fun p => (f.wireName, p.2)

/-- The keys that are left out: the wire names of fields that are not required and hold nothing. A field
with an empty wire name is written nonetheless, and the key that is its own name is left out. -/
def omittedKeys {β : Type} (type : RecordType) (fields : List (String × Value × β)) : List String :=
  type.body.fields.filterMap fun f =>
    match f.required, fields.lookup f.name with
    | false, some (.null, _) => some (if f.wireName.isEmpty then f.name else f.wireName)
    | _, _ => none

/-- The entry that tells the case of a union from the others. -/
def tagEntry (type : RecordType) : Entries :=
  match type.discriminator with
  | some key => [(.text key, (type.tag.map Tree.text).getD .null)]
  | none => []

/-- The JSON form of a value, unless it holds what has none. -/
def wire? : Value → Option Tree :=
  para wireScalar
    (fun items => (Json.allSome (items.map (·.2))).map Tree.array)
    (fun entries => (wireEntries (entries.map fun (k, _, v) => (k, v))).map (Tree.map none))
    (fun type fields extra => do
      let omitted := omittedKeys type fields
      let parts := writtenFields type fields ++ extra.map fun (k, _, v) => (k, v)
      let entries ← wireEntries (parts.filter fun p => !omitted.contains p.1)
      return .map none (entries.foldl (fun es (k, t) => Entries.put k t es) (tagEntry type)))
    (fun _ m => some m.value)
    (fun _ => none)

/-- The JSON text of a value, unless it holds what has none. -/
def jsonText? (v : Value) : Option String :=
  v.wire?.bind (Json.print? .compact)

end ApiContract.Value
