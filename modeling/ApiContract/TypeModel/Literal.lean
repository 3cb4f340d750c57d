import ApiContract.Text.Identifier
import ApiContract.Tree.Basic

/-!
# Literals of enumerations

The name of a literal in generated code, its written form in addresses and headers, and the sameness
of literals.
-/

namespace ApiContract.Literal

/-- A literal as text, truth values in lower case. -/
def written : Tree → String
  | .scalar (.bool b) => if b then "true" else "false"
  | t => t.display

/-- The name of a literal in generated code. The empty text has a name of its own; what cannot start a
name gets a word in front, and a negative number a mark as well. -/
def memberName (value : Tree) : String :=
  match value with
  | .scalar (.text "") => "EmptyString"
  | _ =>
    let text := written value
    let isText := value.text?.isSome
    let minus := if !isText && text.toList.head? = some '-' then "Minus" else ""
    let name := Text.pascal text
    let name := if name.toList.head?.any Char.isAlpha then name else "Value" ++ minus ++ name
    if Text.keywords.contains name then name ++ "_" else name

/-- Names for literals, each different from those before it. -/
def memberNames (values : List Tree) : List String :=
  Text.uniqueNames [] (values.map memberName)

/-- Whether a value is a literal: truth values match truth values, numbers match numbers, and all else
must be of one type. -/
def matchesValue (literal value : Tree) : Bool :=
  match literal, value with
  | .scalar (.bool a), .scalar (.bool b) => a == b
  | .scalar (.bool _), _ | _, .scalar (.bool _) => false
  | .scalar a, .scalar b =>
    match a, b with
    | .int _, .float _ | .float _, .int _ => a.same b
    | _, _ => a.typeName == b.typeName && a.same b
  | .scalar _, _ | _, .scalar _ => false
  | a, b => a.same b

end ApiContract.Literal
