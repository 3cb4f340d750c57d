/-!
# Notices

What a compilation or a request reports without stopping.
-/

namespace ApiContract

/-- A report at the level of a warning or above. -/
inductive Notice where
  | invalidMediaType (type : String)
  | unknownMediaType (type : String)
  | overlap (union earlier later : String)
  | endpointWithoutId (label : String)
  | endpointUnmapped (label id : String)
deriving DecidableEq, Repr

/-- The wording of a notice. -/
def Notice.message : Notice → String
  | .invalidMediaType type => "invalid or unsupported MIME type `" ++ type ++ "`"
  | .unknownMediaType type => "ignoring unrecognized MIME type `" ++ type ++ "`"
  | .overlap union earlier later =>
    "untagged union `" ++ union ++ "`: variant `" ++ earlier ++
      "` may match payloads meant for later variant `" ++ later ++
      "` (variants are tried in declaration order)"
  | .endpointWithoutId label => "removing endpoint without operation_id: " ++ label
  | .endpointUnmapped label id =>
    "removing endpoint not mapped to any API: " ++ label ++ " (" ++ id ++ ")"

end ApiContract
