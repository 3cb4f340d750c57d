import ApiContract.Mismatch
import ApiContract.Tree.Basic

/-!
# Build failures

Everything that can stop the compilation of an API description, as causes. A failure has a family,
which decides the exit status of a command, and a wording.
-/

namespace ApiContract

/-- The kinds of failure that a caller tells apart. -/
inductive Failure.Family where
  | usage
  | config
  | document
  | invalidReference
  | referenceChain
  | cyclicReference
  | cyclicDependency
  | unsupportedSchema
  | operationId
  | generation
deriving DecidableEq, Repr

/-- The exit status of a command that stops with a failure of the family. -/
def Failure.Family.exitStatus : Failure.Family → Nat
  | .config => 1
  | .usage => 2
  | .document => 7
  | .invalidReference | .referenceChain | .cyclicReference => 8
  | .cyclicDependency => 9
  | .unsupportedSchema => 10
  | .operationId => 11
  | .generation => 12

/-- Why the compilation of a description stops. -/
inductive Failure where
  -- Command line and project settings
  | noDescription
  | unknownUnits (names : List String)
  | noUnits
  | settingsMissing (path : String)
  | settingsSyntax (path reason : String)
  | settingsShape (path report : String) (mismatches : List Mismatch)
  -- Reading documents
  | unreadable (origin reason : String)
  | unfetched (address : String)
  | noInput (origin : String)
  | fileMissing (path : String)
  | fileEmpty (path : String)
  | jsonSyntax (origin reason : String)
  | yamlSyntax (origin reason : String)
  | notAMapping (origin kind : String)
  | oldVersion (version : String)
  | noVersion
  | unsupportedVersion (version : String)
  -- References
  | notOneHash (reference : String)
  | fragmentNotRooted (reference : String)
  | stepNotMapping (reference place : String)
  | stepMissing (reference key place : String)
  | targetNotMapping (reference kind : String)
  | referenceToReference (reference target : String)
  | foreignReference (reference : String)
  | notSchemaReference (reference : String)
  | namesNoSchema (reference : String)
  | schemaMissing (reference : String)
  | schemaReferenceChain (reference target : String)
  | inliningCycle (chain : List (String × String))
  | mappingTargetRenamed (tag target : String)
  -- Schemas
  | typeList (value : Tree)
  | unknownType (value : Tree)
  | notSchema (context schema : String)
  | freeForm (context schema : String)
  | anyOfNamed (name schema : String)
  | notNamed (name schema : String)
  | anyNamed (name schema : String)
  | nullableEnum (name values : String)
  | emptyDiscriminator (name : String)
  | inlineBranch (union schema : String)
  | branchNotObject (branch union schema : String)
  | allOfComponent (name schema : String)
  | inlineEnum (schema : String)
  | inlineObject (schema : String)
  | inlineAny (schema : String)
  | inlineComposition (schema : String)
  -- Types
  | dependencyCycle (stack : List String)
  | typeNameClash (owner schema name : String)
  | unknownMappingTarget (union tag target : String)
  | propertyConflict (property owner : String)
  | additionalConflict (owner : String)
  | unknownTypeName (name : String)
  | typeDefinedTwice (name : String)
  | emptyUnion (name : String)
  -- Operations
  | noOperationId (label : String)
  | duplicateOperationIds (ids labels : List String)
  | parameterLocation (name label location : String)
  | cookieParameter (name label : String)
  | contentParameter (name label : String)
  | parameterWithoutSchema (name label : String)
  | arrayParameter (name label : String)
  | headerParameter (name label : String)
  | parameterNotScalar (name label : String)
  | parameterNotEnum (name label typeName : String)
  | enumBody (schema : String)
  | severalMediaTypes (what : String) (types : List String)
  | statusRange (key label : String)
  | statusInvalid (key label : String)
  -- Units
  | unitName (name : String)
  | duplicateUnit (name : String)
  | severalUnits (label : String) (units : List String)
  | unitWithoutTarget (name : String)
  | handlerNameClash (unit name : String)
  -- Gateway
  | duplicateOperationId (id : String)
  | discriminatorOnScalar (type : String)
  | discriminatorProperty (property properties : String)
  -- Outside the format
  | shape (mismatches : List Mismatch)
  | malformed
deriving DecidableEq

namespace Failure

/-- The family of a failure. A part of a record that has the wrong shape, and a document whose shape
no rule foresees, belong to none. -/
def family? : Failure → Option Family
  | .noDescription | .unknownUnits _ | .noUnits => some .usage
  | .settingsMissing _ | .settingsSyntax .. | .settingsShape .. => some .config
  | .unreadable .. | .unfetched _ | .noInput _ | .fileMissing _ | .fileEmpty _ | .jsonSyntax ..
  | .yamlSyntax .. | .notAMapping .. | .oldVersion _ | .noVersion | .unsupportedVersion _ => some .document
  | .notOneHash _ | .fragmentNotRooted _ | .stepNotMapping .. | .stepMissing ..
  | .targetNotMapping .. | .foreignReference _ | .notSchemaReference _ | .namesNoSchema _
  | .schemaMissing _ => some .invalidReference
  | .referenceToReference .. | .schemaReferenceChain .. => some .referenceChain
  | .inliningCycle _ => some .cyclicReference
  | .dependencyCycle _ => some .cyclicDependency
  | .mappingTargetRenamed .. | .typeList _ | .unknownType _ | .notSchema .. | .freeForm ..
  | .anyOfNamed .. | .notNamed .. | .anyNamed .. | .nullableEnum .. | .emptyDiscriminator _
  | .inlineBranch .. | .branchNotObject .. | .allOfComponent .. | .inlineEnum _ | .inlineObject _
  | .inlineAny _ | .inlineComposition _ | .parameterLocation .. | .cookieParameter ..
  | .contentParameter .. | .parameterWithoutSchema .. | .arrayParameter .. | .headerParameter ..
  | .parameterNotScalar .. | .parameterNotEnum .. | .enumBody _ | .statusRange .. =>
    some .unsupportedSchema
  | .noOperationId _ | .duplicateOperationIds .. | .duplicateOperationId _ => some .operationId
  | .typeNameClash .. | .unknownMappingTarget .. | .propertyConflict .. | .additionalConflict _
  | .unknownTypeName _ | .typeDefinedTwice _ | .emptyUnion _ | .severalMediaTypes ..
  | .statusInvalid .. | .unitName _ | .duplicateUnit _ | .severalUnits .. | .unitWithoutTarget _
  | .handlerNameClash .. | .discriminatorOnScalar _ | .discriminatorProperty .. =>
    some .generation
  | .shape _ | .malformed => none

/-- Texts separated by commas. -/
def listed (texts : List String) : String :=
  ", ".intercalate texts

/-- The wording of a failure. -/
def message : Failure → String
  | .noDescription =>
    "No spec given. Pass SPEC, set SPECDISPATCH_SPEC, or add `spec` to specdispatch.json"
  | .unknownUnits names => "Unknown unit(s): " ++ listed names
  | .noUnits => "No deployable units configured in specdispatch.json"
  | .settingsMissing path => "Config file not found: " ++ path
  | .settingsSyntax path reason => "Invalid project config at " ++ path ++ ": " ++ reason
  | .settingsShape path report _ => "Invalid project config at " ++ path ++ ": " ++ report
  | .unreadable origin reason => "Failed to read " ++ origin ++ ": " ++ reason
  | .unfetched address => "Failed to fetch " ++ address
  | .noInput origin => "No input received from " ++ origin
  | .fileMissing path => "Spec file not found: " ++ path
  | .fileEmpty path => "Spec file is empty: " ++ path
  | .jsonSyntax origin reason => origin ++ ": invalid JSON: " ++ reason
  | .yamlSyntax origin reason => origin ++ ": cannot parse as YAML: " ++ reason
  | .notAMapping origin kind => origin ++ ": expected a mapping at the top level, got " ++ kind
  | .oldVersion version => "Swagger " ++ version ++
      " documents are not supported; convert the document to OpenAPI 3 first"
  | .noVersion => "Missing 'openapi' field; not an OpenAPI 3 document"
  | .unsupportedVersion version => "Unsupported OpenAPI version " ++ version ++ "; expected 3.x"
  | .notOneHash reference => "Invalid reference `" ++ reference ++ "`: expected exactly one `#`"
  | .fragmentNotRooted reference =>
    "Invalid reference `" ++ reference ++ "`: fragment must start with `/`"
  | .stepNotMapping reference place =>
    "Cannot resolve $ref '" ++ reference ++ "': value at `/" ++ place ++ "` is not a mapping"
  | .stepMissing reference key place =>
    "Cannot resolve $ref '" ++ reference ++ "': key '" ++ key ++ "' not found at `/" ++ place ++ "`"
  | .targetNotMapping reference kind =>
    "Cannot resolve $ref '" ++ reference ++ "': target is a " ++ kind ++ ", not a mapping"
  | .referenceToReference reference target =>
    "Reference `" ++ reference ++ "` points at another reference (`" ++ target ++
      "`); reference chains are not supported"
  | .foreignReference reference => "Expected a local reference but found `" ++ reference ++
      "`; foreign references must be inlined first"
  | .notSchemaReference reference =>
    "Schema reference `" ++ reference ++ "` must start with `#/components/schemas/`"
  | .namesNoSchema reference => "Schema reference `" ++ reference ++ "` does not name a schema"
  | .schemaMissing reference =>
    "invalid schema reference `" ++ reference ++ "`: target schema does not exist"
  | .schemaReferenceChain reference target =>
    "reference chains (references to references) are not supported: `" ++ reference ++ "` -> `" ++
      target ++ "`"
  | .inliningCycle chain => "Cyclic reference while inlining: " ++
      " -> ".intercalate (chain.map fun (file, fragment) => file ++ "#/" ++ fragment)
  | .mappingTargetRenamed tag target =>
    "Discriminator mapping `" ++ tag ++ "` -> `" ++ target ++
      "` targets a schema whose name is already taken by a different schema; rename one of them"
  | .typeList value => "schema type " ++ value.literal ++ " must name exactly one non-null type"
  | .unknownType value => "unsupported schema type " ++ value.literal
  | .notSchema context schema =>
    "`not` schemas are not supported (in " ++ context ++ "): " ++ schema
  | .freeForm context schema =>
    "free-form schema without a `type` in " ++ context ++ " is not supported: " ++ schema
  | .anyOfNamed name schema => "`anyOf` schema `" ++ name ++ "` is not supported: " ++ schema
  | .notNamed name schema => "`not` schema `" ++ name ++ "` is not supported: " ++ schema
  | .anyNamed name schema => "`any` schema `" ++ name ++ "` is not supported: " ++ schema
  | .nullableEnum name values => "nullable enum `" ++ name ++ "`: " ++ values
  | .emptyDiscriminator name => "unexpected empty discriminator in `oneOf` schema `" ++ name ++ "`"
  | .inlineBranch union schema =>
    "unexpected inline schema in `oneOf` schema `" ++ union ++
      "`: enum variants must be references to named schemas: " ++ schema
  | .branchNotObject branch union schema =>
    "variant `" ++ branch ++ "` of `oneOf` type `" ++ union ++ "` must be an object type: " ++ schema
  | .allOfComponent name schema =>
    "unexpected `allOf` component type (must be object or nested `allOf`) in `" ++ name ++ "`: " ++
      schema
  | .inlineEnum schema =>
    "unexpected inline enum must use a reference to a named schema: " ++ schema
  | .inlineObject schema =>
    "unexpected inline object schema must use a reference to a named schema: " ++ schema
  | .inlineAny schema => "unexpected inline `any` schema: " ++ schema
  | .inlineComposition schema =>
    "unexpected inline schema must use a reference to a named schema: " ++ schema
  | .dependencyCycle stack =>
    "dependency cycle detected between models: " ++ " -> ".intercalate stack
  | .typeNameClash owner schema name =>
    "schemas `" ++ owner ++ "` and `" ++ schema ++ "` both map to type name `" ++ name ++ "`"
  | .unknownMappingTarget union tag target =>
    "`oneOf` type `" ++ union ++ "` maps discriminator value `" ++ tag ++ "` to unknown type `" ++
      target ++ "`"
  | .propertyConflict property owner =>
    "property `" ++ property ++ "` of `" ++ owner ++
      "` is defined more than once with different schemas"
  | .additionalConflict owner =>
    "only one `additionalProperties` value is allowed in `allOf` schema `" ++ owner ++ "`"
  | .unknownTypeName name => "reference to unknown type `" ++ name ++ "`"
  | .typeDefinedTwice name => "type `" ++ name ++ "` is defined more than once"
  | .emptyUnion name => "union `" ++ name ++ "` has no variants"
  | .noOperationId label => "no operation_id for " ++ label
  | .duplicateOperationIds ids labels =>
    "duplicate operation_id " ++ listed (ids.map Text.quoted) ++ ": " ++ listed labels
  | .parameterLocation name label location =>
    "parameter `" ++ name ++ "` of " ++ label ++ " has invalid location " ++ location
  | .cookieParameter name label =>
    "cookie parameter `" ++ name ++ "` of " ++ label ++ " is not supported"
  | .contentParameter name label =>
    "content parameter `" ++ name ++ "` of " ++ label ++ " is not supported"
  | .parameterWithoutSchema name label => "parameter `" ++ name ++ "` of " ++ label ++ " has no schema"
  | .arrayParameter name label =>
    "array parameter `" ++ name ++ "` of " ++ label ++ " must be a query parameter"
  | .headerParameter name label =>
    "header parameter `" ++ name ++ "` of " ++ label ++ " must be a plain string"
  | .parameterNotScalar name label =>
    "parameter `" ++ name ++ "` of " ++ label ++ " must be a scalar or an enumeration"
  | .parameterNotEnum name label typeName =>
    "parameter `" ++ name ++ "` of " ++ label ++ " must be a scalar or an enumeration, not `" ++
      typeName ++ "`"
  | .enumBody schema => "unexpected enum JSON request or response body: " ++ schema
  | .severalMediaTypes what types =>
    "multiple MIME types for " ++ what ++ " are not supported: " ++ listed types
  | .statusRange key label =>
    "response status code ranges are not supported (" ++ key ++ " in " ++ label ++ ")"
  | .statusInvalid key label => "invalid HTTP status code `" ++ key ++ "` in " ++ label
  | .unitName name => "API unit name `" ++ name ++ "` is not a valid identifier"
  | .duplicateUnit name => "duplicate API unit name `" ++ name ++ "`"
  | .severalUnits label units =>
    "endpoint " ++ label ++ " is mapped to multiple APIs: " ++ listed units
  | .unitWithoutTarget name =>
    "API unit `" ++ name ++ "` has no Lambda ARN; one is required for the gateway spec"
  | .handlerNameClash unit name =>
    "operations in API `" ++ unit ++ "` share the handler name `" ++ name ++ "`"
  | .duplicateOperationId id => "duplicate operation_id `" ++ id ++ "`"
  | .discriminatorOnScalar type =>
    "discriminators are only allowed on object types (found on `" ++ type ++ "` schema)"
  | .discriminatorProperty property properties =>
    "discriminator property `" ++ property ++ "` does not exist in object type with properties " ++
      properties
  | .shape _ => ""
  | .malformed => ""

/-- The exit status of a command that stops with the failure. -/
def exitStatus (f : Failure) : Nat :=
  (f.family?.map Family.exitStatus).getD 1

end Failure

end ApiContract
