import ApiContract.Command.Run

/-!
# The program

Reads the command line, the environment and the files that the command looks at, lets the command run on
them, and writes what it printed and the files that it changed.
-/

namespace ApiContract.Program

/-- What is printed for help, and for a command line that makes no sense. -/
def usage : String :=
  "Usage: specdispatch [--json|--plain] [--no-color] [-q|--quiet] [-v|--verbose] COMMAND\n\n" ++
  "  generate [SPEC] [-c FILE] [-o DIR] [-u UNIT]... [-f]\n" ++
  "  inspect types SPEC\n" ++
  "  inspect operations SPEC\n"

/-- The variables that are set. -/
def environment : IO Environment := do
  let values ← Environment.names.mapM fun n => return (← IO.getEnv n).map fun v => (n, v)
  return values.filterMap id

/-- The text on the standard input. -/
partial def input (stream : IO.FS.Stream) (read : ByteArray) : IO String := do
  let more ← stream.read 65536
  if more.isEmpty then return (String.fromUTF8? read).getD "" else input stream (read ++ more)

/-- The contents of a file, if it can be read. -/
def contents (p : Place) : IO (Option (List UInt8)) := do
  try return some (← IO.FS.readBinFile p.text).toList
  catch _ => return none

/-- Reads files, and those that their references mention. -/
partial def gather (disk : Disk) : List Place → IO Disk
  | [] => return disk
  | p :: rest => do
    if (disk.files.lookup p).isSome then return ← gather disk rest
    match ← contents p with
    | none => gather disk rest
    | some octets =>
      let disk := { disk with files := disk.files ++ [(p, octets)] }
      let mentioned := match disk.document p with
        | .ok t => Library.mentioned p t
        | .error _ => []
      gather disk (mentioned ++ rest)

/-- Writes the folders and files that a command made. -/
def save (before after : Disk) : IO Unit := do
  for folder in after.folders do
    IO.FS.createDirAll folder.text
  for (p, octets) in after.files do
    if before.files.lookup p ≠ some octets then
      IO.FS.createDirAll p.parent.text
      IO.FS.writeBinFile p.text ⟨octets.toArray⟩

/-- Runs the program, and gives the status that it ends with. -/
def run (line : List String) : IO UInt32 := do
  let environment ← environment
  let home := Place.ofText (toString (← IO.currentDir))
  let start : Disk := ⟨home, [], []⟩
  let (disk, text) ← match Command.Line.read line with
    | .error _ => pure (start, "")
    | .ok l =>
      let settings ← gather start (Command.lookedAt start environment l.task)
      let disk ← gather settings (Command.lookedAt settings environment l.task)
      let text ← if line.contains "-" then input (← IO.getStdin) .empty else pure ""
      pure (disk, text)
  let time := toString (← IO.monoMsNow)
  let (outcome, after) := Command.runReporting disk environment text time line
  save disk after
  match outcome with
  | .usage status =>
    if status = 0 then IO.print usage else IO.eprint usage
    return status.toUInt32
  | .ended status printed =>
    IO.print printed.data
    IO.eprint printed.remarks
    return status.toUInt32
  | .crashed => return 1

end ApiContract.Program

/-- The entry point. -/
def main (line : List String) : IO UInt32 :=
  ApiContract.Program.run line
