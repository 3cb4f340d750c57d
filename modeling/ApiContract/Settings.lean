import ApiContract.Deployment
import ApiContract.Disk
import ApiContract.Document.Library
import ApiContract.Mismatch

/-!
# Project settings

Where the description of a project is, where generated files go, and which units serve it. Settings come
from a file; what the command line names wins over what the environment names, and that wins over the
file. The environment also gives the folder for data of the program's own; a variable that is empty counts
as unset.
-/

namespace ApiContract

/-! ## Environments -/

/-- Variables and their values. -/
abbrev Environment := List (String × String)

namespace Environment

/-- The variables that the program looks at. -/
def names : List String :=
  ["SPECDISPATCH_SPEC", "SPECDISPATCH_OUT_DIR", "SPECDISPATCH_CONFIG", "XDG_DATA_HOME", "HOME"]

/-- The value of a variable, unless it is empty. -/
def value? (e : Environment) (name : String) : Option String :=
  (e.lookup name).filter (· ≠ "")

/-- The folder that programs keep their data in: the one that is named for it, or the usual one in the
user's own folder. -/
def dataRoot (e : Environment) : Place :=
  match e.value? "XDG_DATA_HOME" with
  | some path => .ofText path
  | none => (Place.ofText ((e.value? "HOME").getD "/")).join (.ofText ".local/share")

/-- The folder for the data of this program. -/
def dataFolder (e : Environment) : Place :=
  e.dataRoot.join (.ofText "specdispatch")

end Environment

/-! ## Settings -/

/-- The settings of a project. Keys that mean nothing here are kept. -/
structure Settings where
  description : Option String
  folder : String
  units : List Deployment.Configured
  others : Entries

/-- What a command line names in place of the settings in the file. -/
structure Settings.Given where
  file : Option String
  description : Option String
  folder : Option String
deriving DecidableEq, Repr

namespace Settings

/-- The name of the file that holds the settings of the project in its folder. -/
def fileName : String := "specdispatch.json"

/-- The name of settings in messages. -/
def recordName : String := "GeneratorConfig"

/-- The settings of a project without a file. -/
def standard : Settings :=
  ⟨none, ".specdispatch", [], []⟩

open Record in
/-- Reads settings. -/
def ofTree (t : Tree) : Check Settings := do
  let es ← entriesOf recordName t
  let (description, folder, units) ←
    both (withDefault es "spec" none textOrNone)
      (both (withDefault es "out_dir" standard.folder text)
        (withDefault es "units" [] (listOf Deployment.Configured.ofSettings)))
  return ⟨description, folder, units,
    es.filter fun (k, _) => !([Scalar.text "spec", .text "out_dir", .text "units"].contains k)⟩

/-- A relative path to the description starts from the folder of the settings' file. -/
def locate (file : Place) (description : String) : String :=
  if Source.isAddress description || description = "-" || (Place.ofText description).absolute then
    description
  else (file.parent.join (.ofText description)).text

/-- Reads the settings in a file. -/
def read (file : Place) (octets : List UInt8) : Except Failure Settings :=
  match Disk.textOf octets with
  | none => .error .malformed
  | some text =>
    match Json.read text with
    | .error e =>
      .error (if e.fault.isLimit then .malformed
        else .settingsSyntax file.text (e.message text))
    | .ok t =>
      match ofTree t with
      | .error wrong =>
        .error (.settingsShape file.text (Mismatch.report recordName t wrong) wrong)
      | .ok s => .ok { s with description := s.description.map (locate file) }

/-- Loads the settings in a file that must be there, or in the project's own one if there is one. -/
def load (disk : Disk) (file : Option String) : Except Failure (Option Settings) := do
  match file with
  | some path =>
    let place := Place.ofText path
    disk.ensureWalkable place
    match disk.contents place with
    | none => .error (.settingsMissing place.text)
    | some octets => some <$> read place octets
  | none =>
    let place := disk.home.join (.ofText fileName)
    match disk.contents place with
    | none => .ok none
    | some octets => some <$> read place octets

/-- The settings in force. -/
def resolve (disk : Disk) (environment : Environment) (given : Given) : Except Failure Settings := do
  let file := given.file <|> environment.value? "SPECDISPATCH_CONFIG"
  let s := (← load disk file).getD standard
  return { s with
    description := given.description <|> environment.value? "SPECDISPATCH_SPEC" <|> s.description
    folder := (given.folder <|> environment.value? "SPECDISPATCH_OUT_DIR").getD s.folder }

/-- Every name in order, with the value that a key has in a list of pairs, or nothing. -/
def record (names : List String) (values : List (String × Option String)) : Tree :=
  .object (names.map fun n => (n, (((values.lookup n).getD none).map Tree.text).getD .null))

/-- The target of a unit in the form of settings. -/
def targetTree : Target → Tree :=
  let names := ["logical_id", "apigw_region", "account_id", "function_region", "function_name",
    "alias"]
  fun
  | .template name => record names [("logical_id", some name)]
  | .function gateway account region name qualifier =>
    record names [("apigw_region", some gateway), ("account_id", some account),
      ("function_region", some region), ("function_name", some name), ("alias", qualifier)]

/-- A unit in the form of settings. -/
def unitTree (c : Deployment.Configured) : Tree :=
  let texts (xs : List String) : Tree := .array (xs.map .text)
  .object [("name", .text c.name), ("lambda_arn", targetTree c.target),
    ("operation_ids", texts c.lists.operationIds), ("tags", texts c.lists.tags),
    ("path_prefixes", texts c.lists.pathPrefixes)]

/-- Settings in the form in which they are read. -/
def toTree (s : Settings) : Tree :=
  .map none ([(.text "spec", (s.description.map Tree.text).getD .null), (.text "out_dir", .text s.folder),
    (.text "units", .array (s.units.map unitTree))] ++ s.others)

end Settings

end ApiContract
