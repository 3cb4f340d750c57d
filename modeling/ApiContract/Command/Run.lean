import ApiContract.Command.Line
import ApiContract.Generation

/-!
# Running commands

What a command prints, the status that it ends with, and the files that it leaves. A command that stops
with a failure prints the failure's wording alone. A failure that no rule foresees is reported with the
name of a file that tells more about it.
-/

namespace ApiContract.Command

/-- The version of the program. -/
def version : String := "0.1.0"

/-- How a command line is answered. -/
inductive Outcome where
  | usage (status : Nat)
  | ended (status : Nat) (printed : Printed)
  | crashed
deriving DecidableEq, Repr

/-! ## Generation -/

/-- The units that a command line picks, in the order of the settings; all of them if it names none. -/
def pickUnits (units : List Deployment) (names : List String) : Except Failure (List Deployment) :=
  match names.filter fun n => !units.any fun u => u.name = n with
  | [] =>
    let picked := if names.isEmpty then units else units.filter fun u => names.contains u.name
    if picked.isEmpty then .error .noUnits else .ok picked
  | unknown => .error (.unknownUnits unknown)

/-- What is to be generated under the settings in force. -/
def generation (disk : Disk) (environment : Environment) (given : Settings.Given) (names : List String)
    (force : Bool) : Except Failure Generation := do
  let s ← Settings.resolve disk environment given
  match s.description with
  | none => throw .noDescription
  | some description =>
    let units ← (← pickUnits (s.units.map .ofConfigured) names).foldlM Compilation.addUnit []
    return ⟨description, .ofText s.folder, units, force⟩

/-- The row of a unit in the table of what was generated. -/
def unitRow (r : Generation.Result) (u : Deployment) : List String :=
  let file := Scaffold.fileName u.name
  [u.name, toString (r.compilation.plansOf u.name).length, file,
    if r.written.contains file then "written" else "kept"]

/-- Tells what was generated. -/
def reportGeneration (console : Console) (g : Generation) (r : Generation.Result) : Printed :=
  let count := r.written.length
  console.table ["Unit", "Operations", "Handler", "Status"] (g.units.map (unitRow r)) ++
    console.success ("Wrote " ++ toString count ++ " file(s) to " ++ g.folder.text) ++
    if count < g.units.length + 1 then
      console.suggest "Pass --force to overwrite existing handler scaffolds"
    else .none

/-! ## Inspection -/

/-- The row of a type in the table of types. -/
def typeRow (t : NamedType) : List String :=
  let members := match t.shape with
    | .record body => body.fields.map (·.name)
    | .enumeration ms => ms.map (·.value.literal)
    | .tagged _ vs | .untagged vs => vs.map (·.name)
  [t.name, t.kind, t.schemaName, Failure.listed members]

/-- A response in the table of operations. -/
def responseText (p : ResponsePlan) : String :=
  match p.status with
  | none => p.name
  | some status => p.name ++ " (" ++ toString status ++ ")"

/-- The row of an operation in the table of operations. -/
def operationRow (p : OperationPlan) : List String :=
  [p.id, p.method.name, p.path, p.handler, if p.authenticated then "yes" else "no",
    Failure.listed (p.responses.map responseText)]

/-- Compiles a description for a list of units, without the gateway's description. -/
def compile (disk : Disk) (input description : String) (units : List Deployment) :
    Except Failure Compilation :=
  (Compilation.ofSource disk input (.ofText description) units false).1

/-- The unit that serves every operation. -/
def everyOperation : Deployment := ⟨"api", none, none⟩

/-! ## Commands -/

/-- Carries a command out. -/
def perform (disk : Disk) (environment : Environment) (input : String) (line : Line) :
    Except Failure Printed × Disk :=
  match line.task with
  | .generate given names force =>
    match generation disk environment given names force with
    | .error f => (.error f, disk)
    | .ok g =>
      let ((r, _), disk) := g.run disk input
      (r.map (reportGeneration line.console g), disk)
  | .listTypes description =>
    (do
      let c ← compile disk input description []
      return line.console.table ["Name", "Kind", "Schema", "Members"] (c.types.map typeRow), disk)
  | .listOperations description =>
    (do
      let c ← compile disk input description [everyOperation]
      return line.console.table ["Operation ID", "Method", "Path", "Handler", "Auth", "Responses"]
        ((c.plansOf everyOperation.name).map operationRow), disk)

/-- How a command ends. -/
def outcomeOf : Except Failure Printed → Outcome
  | .ok printed => .ended 0 printed
  | .error f =>
    match f.family? with
    | some family => .ended family.exitStatus (Console.error f.message)
    | none => .crashed

/-- Answers a command line. -/
def run (disk : Disk) (environment : Environment) (input : String) (line : List String) :
    Outcome × Disk :=
  match Line.read line with
  | .error .help => (.usage 0, disk)
  | .error .misuse => (.usage 2, disk)
  | .error .version => (.ended 0 (Console.line ("specdispatch " ++ version)), disk)
  | .ok line =>
    let (r, disk) := perform disk environment input line
    (outcomeOf r, disk)

/-- The paths that a command looks at before the description is known: the settings, the description,
and the files that it may write. -/
def lookedAt (disk : Disk) (environment : Environment) (task : Task) : List Place :=
  let source (description : String) : List Place :=
    match Source.ofText description with
    | .path p => [disk.home.resolve p]
    | _ => []
  match task with
  | .listTypes description | .listOperations description => source description
  | .generate given names force =>
    match generation disk environment given names force with
    | .error _ =>
      let file := given.file <|> environment.value? "SPECDISPATCH_CONFIG"
      [disk.home.resolve (.ofText (file.getD Settings.fileName))]
    | .ok g => source g.description ++
        g.units.map fun u => disk.home.resolve (g.folder.join (.ofText (Scaffold.fileName u.name)))

/-! ## Crashes -/

/-- The file that tells more about a crash. -/
def crashLog (environment : Environment) (time : String) : Place :=
  environment.dataFolder.join (.ofText ("logs/crash-" ++ time ++ ".log"))

/-- Answers a command line, and reports a crash with a file of its own. -/
def runReporting (disk : Disk) (environment : Environment) (input time : String) (line : List String) :
    Outcome × Disk :=
  match run disk environment input line with
  | (.crashed, disk) =>
    let log := crashLog environment time
    let report := Console.error ("Unexpected error. Debug log: " ++ log.text)
    match disk.write log (Text.Utf8.encode "The description has a shape that no rule foresees.\n") with
    | .ok disk => (.ended 1 report, disk)
    | .error _ => (.crashed, disk)
  | answered => answered

end ApiContract.Command
