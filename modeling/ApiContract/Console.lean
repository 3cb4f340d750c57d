import ApiContract.Json.Printer

/-!
# Consoles

What a command prints: data, for other programs, on one channel, and remarks, for its user, on the
other. Data is a table or a value. A console that is quiet leaves out all remarks but errors.
-/

namespace ApiContract

/-- How tables are printed: as lines of cells between tabulators, or as JSON. -/
inductive Console.Format where
  | plain
  | json
deriving DecidableEq, Repr

/-- How a command prints. -/
structure Console where
  format : Console.Format
  quiet : Bool
deriving DecidableEq, Repr

/-- What was printed on the two channels. -/
structure Printed where
  data : String
  remarks : String
deriving DecidableEq, Repr

namespace Printed

/-- Nothing was printed. -/
def none : Printed := ⟨"", ""⟩

/-- One thing printed after another. -/
def andThen (p q : Printed) : Printed :=
  ⟨p.data ++ q.data, p.remarks ++ q.remarks⟩

instance : Append Printed := ⟨andThen⟩

end Printed

namespace Console

/-- The format that a name stands for. -/
def Format.ofName? : String → Option Format
  | "auto" | "plain" => some .plain
  | "json" => some .json
  | _ => none

/-- The name of a format. -/
def Format.name : Format → String
  | .plain => "plain"
  | .json => "json"

/-- Prints a line of data. -/
def line (text : String) : Printed :=
  ⟨text ++ "\n", ""⟩

/-- Prints a remark. -/
def remark (text : String) : Printed :=
  ⟨"", text ++ "\n"⟩

/-- Prints a value. -/
def value (t : Tree) : Printed :=
  line ((Json.print? .indented t).getD "")

/-- A row of a table as a map from headers to cells. Of two cells under one header the last one counts;
cells without a header, and headers without a cell, are left out. -/
def record (headers row : List String) : Tree :=
  .map none ((headers.zip row).foldl (fun es (h, c) => Entries.put (.text h) (.text c) es) [])

/-- Prints a table. -/
def table (c : Console) (headers : List String) (rows : List (List String)) : Printed :=
  match c.format with
  | .json => value (.array (rows.map (record headers)))
  | .plain => (headers :: rows).foldl (fun p row => p ++ line ("\t".intercalate row)) .none

/-- Tells what was done. -/
def success (c : Console) (text : String) : Printed :=
  if c.quiet then .none else remark text

/-- Tells what may be done next. -/
def suggest (c : Console) (text : String) : Printed :=
  if c.quiet then .none else remark ("→ " ++ text)

/-- Tells what went wrong. -/
def error (text : String) : Printed :=
  remark ("Error: " ++ text)

end Console

end ApiContract
