import ApiContract.Compilation
import ApiContract.Scaffold
import ApiContract.Yaml.Printer

/-!
# Generation

What a description compiles to, written out: the gateway's description, and for every unit a scaffold of
the module that handles its operations. A scaffold is filled in by hand once it is there, so a later run
leaves it alone unless it is forced to write it anew.
-/

namespace ApiContract

/-- What is to be generated. -/
structure Generation where
  /-- Where the description comes from, as it was named; scaffolds name it in the same way. -/
  description : String
  folder : Place
  units : List Deployment
  /-- Whether scaffolds that are there are written anew. -/
  force : Bool

/-- What was generated: the compilation, and the names of the files that were written. -/
structure Generation.Result where
  compilation : Compilation
  written : List String

namespace Generation

/-- The name of the file that holds the gateway's description. -/
def gatewayFile : String := "openapi-apigw.yaml"

/-- A file that may be written: its name, its text, and whether one that is there is kept. -/
structure Output where
  name : String
  text : String
  kept : Bool

/-- The files that a compilation gives, the gateway's description first. -/
def outputs (g : Generation) (c : Compilation) : List Output :=
  ⟨gatewayFile, Yaml.print (c.gateway.getD .null), false⟩ ::
    g.units.map fun u =>
      ⟨Scaffold.fileName u.name, Scaffold.text u.name g.description (c.plansOf u.name), !g.force⟩

/-- Writes one file into the folder, unless it is there and kept; tells whether it was written. -/
def writeOne (g : Generation) (d : Disk) (o : Output) : Except Failure (Bool × Disk) :=
  let path := g.folder.join (.ofText o.name)
  if o.kept && d.holds path then .ok (false, d)
  else (d.write path (Text.Utf8.encode o.text)).map fun d => (true, d)

/-- Writes files in order, and gives the names of those that were written. The first failure ends it;
what was written before stays. -/
def writeAll (g : Generation) : List Output → Disk → Except Failure (List String) × Disk
  | [], d => (.ok [], d)
  | o :: rest, d =>
    match g.writeOne d o with
    | .error f => (.error f, d)
    | .ok (written, d) =>
      let (names, d) := g.writeAll rest d
      (names.map fun names => if written then o.name :: names else names, d)

/-- Compiles the description and writes everything that it gives. `input` is the text on the standard
input. -/
def run (g : Generation) (disk : Disk) (input : String) :
    (Except Failure Result × List Notice) × Disk :=
  let (r, notices) := Compilation.ofSource disk input (.ofText g.description) g.units true
  match r with
  | .error f => ((.error f, notices), disk)
  | .ok c =>
    match disk.makeFolder g.folder with
    | .error f => ((.error f, notices), disk)
    | .ok disk =>
      let (names, disk) := g.writeAll (g.outputs c) disk
      ((names.map fun names => ⟨c, names⟩, notices), disk)

end Generation

end ApiContract
