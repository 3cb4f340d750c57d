import ApiContract.Tree.Basic

/-!
# Chains of causes

Errors in a log, each with what it was caused by. An error has at most one direct cause, or else the
error during whose handling it came up, unless that is suppressed. Errors may cause each other in a
circle: the chain stops at the first error that it has already named.
-/

namespace ApiContract.Serve

/-- An error. Others are given by their places in the list of all errors. -/
structure ChainedError where
  message : String
  cause : Option Nat
  context : Option Nat
  suppressed : Bool
deriving DecidableEq, Repr

namespace ChainedError

/-- What an error was caused by. -/
def next (e : ChainedError) : Option Nat :=
  match e.cause with
  | some c => some c
  | none => if e.suppressed then none else e.context

/-- The places of the further errors behind one, none of them seen. The first argument bounds their
number. -/
def chain (errors : List ChainedError) : Nat → List Nat → Nat → List Nat
  | 0, _, _ => []
  | fuel + 1, seen, place =>
    match (errors[place]?).bind next with
    | none => []
    | some n => if seen.contains n then [] else n :: chain errors fuel (n :: seen) n

/-- The places of the errors that an error was caused by. -/
def causes (errors : List ChainedError) (place : Nat) : List Nat :=
  chain errors errors.length [place] place

/-- The message at a place. -/
def messageAt (errors : List ChainedError) (place : Nat) : String :=
  ((errors[place]?).map (·.message)).getD ""

/-- An error in a log under a label: its message, and a line for everything that it was caused by. -/
def render (errors : List ChainedError) (place : Nat) (label : String) : String :=
  let message := messageAt errors place
  "\n".intercalate ((if label.isEmpty then message else label ++ ": " ++ message) ::
    (causes errors place).map fun c => "  caused by: " ++ messageAt errors c)

end ChainedError

end ApiContract.Serve
