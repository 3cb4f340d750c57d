import ApiContract.Console
import ApiContract.Settings

/-!
# Command lines

What the words of a command line ask for. Options come with two dashes and a name, or with one dash and
letters, several of which may share a word; a value follows in the same word or in the next one. After
two dashes alone, every word is an argument. Options of the whole program stand before the command.
-/

namespace ApiContract.Command

/-- An option. -/
structure Switch where
  name : String
  letter : Option Char
  takesValue : Bool
deriving DecidableEq, Repr

/-- The words of a line: the options in order with their values, and the arguments. -/
structure Words where
  uses : List (String × String)
  arguments : List String
deriving DecidableEq, Repr

/-- What is answered in place of carrying a command out. -/
inductive Aside where
  | help
  | version
  | misuse
deriving DecidableEq, Repr

/-- A command. -/
inductive Task where
  | generate (given : Settings.Given) (units : List String) (force : Bool)
  | listTypes (description : String)
  | listOperations (description : String)
deriving DecidableEq, Repr

/-- A command line that makes sense: how to print, and what to do. -/
structure Line where
  console : Console
  task : Task
deriving DecidableEq, Repr

/-! ## Words -/

/-- The options that letters stand for, and the last one's name if its value is the next word. -/
def letters (switches : List Switch) : List Char → Option (List (String × String) × Option String)
  | [] => some ([], none)
  | c :: cs => do
    let s ← switches.find? (·.letter = some c)
    if s.takesValue then
      return if cs.isEmpty then ([], some s.name) else ([(s.name, String.ofList cs)], none)
    let (uses, waiting) ← letters switches cs
    return ((s.name, "") :: uses, waiting)

/-- The option that a word names, and its name if its value is the next word. -/
def named (s : Switch) (value : Option String) : Option (List (String × String) × Option String) :=
  match s.takesValue, value with
  | true, some v => some ([(s.name, v)], none)
  | true, none => some ([], some s.name)
  | false, none => some ([(s.name, "")], none)
  | false, some _ => none

/-- The options of a word that starts with a dash. -/
def optionsOf (switches : List Switch) (word : String) :
    Option (List (String × String) × Option String) :=
  let cs := word.toList
  let name := cs.takeWhile (· != '=')
  let value := (cs.drop name.length).tail?.map String.ofList
  match switches.find? fun s => ("--" ++ s.name).toList = name with
  | some s => named s value
  | none => if "--".toList.isPrefixOf cs then none else letters switches (cs.drop 1)

/-- Whether a word names options. A dash alone is an argument. -/
def isOption (word : String) : Bool :=
  word.toList.head? == some '-' && word ≠ "-"

/-- Options in front of words. -/
def Words.after (uses : List (String × String)) (w : Words) : Words :=
  { w with uses := uses ++ w.uses }

/-- Reads words. Options may stand among the arguments if the line is mixed; otherwise everything from
the first argument on counts as arguments. -/
def words? (switches : List Switch) (mixed : Bool) : List String → Option Words
  | [] => some ⟨[], []⟩
  | word :: rest =>
    if word = "--" then some ⟨[], rest⟩
    else if isOption word then do
      let (uses, waiting) ← optionsOf switches word
      match waiting, rest with
      | none, rest => (words? switches mixed rest).map (·.after uses)
      | some name, value :: rest =>
        (words? switches mixed rest).map (·.after (uses ++ [(name, value)]))
      | some _, [] => none
    else if mixed then
      (words? switches mixed rest).map fun w => { w with arguments := word :: w.arguments }
    else some ⟨[], word :: rest⟩

namespace Words

/-- Whether an option is used. -/
def uses? (w : Words) (name : String) : Bool :=
  w.uses.any (·.1 = name)

/-- The values of an option. -/
def values (w : Words) (name : String) : List String :=
  (w.uses.filter (·.1 = name)).map (·.2)

/-- The first option that is answered before anything else is done. -/
def aside? (w : Words) : Option Aside :=
  w.uses.findSome? fun u => match u.1 with
    | "help" => some .help
    | "version" => some .version
    | _ => none

/-- Reads words, and gives way to what is answered before anything else. -/
def read (switches : List Switch) (mixed : Bool) (line : List String) : Except Aside Words :=
  match words? switches mixed line with
  | none => .error .misuse
  | some w =>
    match w.aside? with
    | some a => .error a
    | none => .ok w

end Words

/-! ## Commands -/

/-- The option that every command has. -/
def helpSwitch : Switch := ⟨"help", none, false⟩

/-- The options of the whole program. -/
def programSwitches : List Switch := [
  helpSwitch, ⟨"version", none, false⟩, ⟨"json", none, false⟩, ⟨"plain", none, false⟩,
  ⟨"no-color", none, false⟩, ⟨"quiet", some 'q', false⟩, ⟨"verbose", some 'v', false⟩]

/-- The options of generation. -/
def generateSwitches : List Switch := [
  helpSwitch, ⟨"config", some 'c', true⟩, ⟨"out-dir", some 'o', true⟩, ⟨"unit", some 'u', true⟩,
  ⟨"force", some 'f', false⟩]

/-- Reads the words after the command that generates. -/
def generateTask (line : List String) : Except Aside Task := do
  let w ← Words.read generateSwitches true line
  if w.arguments.length > 1 then throw .misuse
  let last (name : String) : Option String := (w.values name).getLast?
  return .generate ⟨last "config", w.arguments.head?, last "out-dir"⟩ (w.values "unit") (w.uses? "force")

/-- Reads the words after a command with one argument. -/
def oneArgument (line : List String) : Except Aside String := do
  match (← Words.read [helpSwitch] true line).arguments with
  | [a] => return a
  | _ => throw .misuse

/-- Reads the words after the command that inspects. -/
def inspectTask (line : List String) : Except Aside Task := do
  match (← Words.read [helpSwitch] false line).arguments with
  | "types" :: rest => return .listTypes (← oneArgument rest)
  | "operations" :: rest => return .listOperations (← oneArgument rest)
  | _ => throw .misuse

/-- Reads a command line. -/
def Line.read (line : List String) : Except Aside Line := do
  let w ← Words.read programSwitches false line
  let console : Console := ⟨if w.uses? "json" then .json else .plain, w.uses? "quiet"⟩
  match w.arguments with
  | "generate" :: rest => return ⟨console, ← generateTask rest⟩
  | "inspect" :: rest => return ⟨console, ← inspectTask rest⟩
  | _ => throw .misuse

end ApiContract.Command
