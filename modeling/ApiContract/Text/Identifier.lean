import ApiContract.Text.Literal

/-!
# Identifiers

A name is a sequence of words, whatever its spelling: `listFoo-200_response` has the words `list`,
`Foo`, `200`, `response`. A word is a run of lower-case letters with at most one capital before it,
a run of capitals (the last of which opens the next word if a lower-case letter follows), or a run
of digits. Letters and digits are those of ASCII; everything else separates words.

The names that generated code gives to fields, parameters, types and enumeration members are each
made of the words of a name on the wire and then kept off the words that the target language
reserves; `uniqueName` keeps two of them apart.
-/

namespace ApiContract.Text

/-! ## Words -/

/-- The first word of a text that starts with a letter or digit, as the number of its characters;
zero where no word starts. -/
def wordLength (cs : List Char) : Nat :=
  let uppers := (cs.takeWhile Char.isUpper).length
  let lowers := ((cs.drop uppers).takeWhile Char.isLower).length
  if uppers == 0 then
    if lowers == 0 then (cs.takeWhile Char.isDigit).length else lowers
  else if lowers == 0 then uppers
  else if uppers == 1 then 1 + lowers
  else uppers - 1

/-- Splits off the words from left to right, skipping what separates them. -/
def wordsOf (cs : List Char) : List (List Char) :=
  match cs with
  | [] => []
  | c :: rest =>
    match wordLength (c :: rest) with
    | 0 => wordsOf rest
    | n + 1 => (c :: rest.take n) :: wordsOf (rest.drop n)
termination_by cs.length
decreasing_by all_goals simp_all; try omega

/-- The words of a text. -/
def words (text : String) : List String :=
  (wordsOf text.toList).map String.ofList

/-- A word with its first character in upper case and the others in lower case. -/
def capitalized : List Char → List Char
  | [] => []
  | c :: rest => c.toUpper :: rest.map Char.toLower

/-- The words run together, each capitalized: `sort-by` becomes `SortBy`. -/
def pascal (text : String) : String :=
  String.ofList ((wordsOf text.toList).flatMap capitalized)

/-- The words in lower case, joined by underscores: `integer32` becomes `integer_32`. -/
def snake (text : String) : String :=
  "_".intercalate ((wordsOf text.toList).map fun w => String.ofList (w.map Char.toLower))

/-! ## Names -/

/-- The words that the target language keeps for itself. -/
def keywords : List String := [
  "False", "None", "True", "and", "as", "assert", "async", "await", "break", "class", "continue",
  "def", "del", "elif", "else", "except", "finally", "for", "from", "global", "if", "import", "in",
  "is", "lambda", "nonlocal", "not", "or", "pass", "raise", "return", "try", "while", "with",
  "yield"]

/-- The attributes that every generated record already has. -/
def recordAttributes : List String := [
  "construct", "copy", "dict", "from_orm", "json", "model_computed_fields", "model_config",
  "model_construct", "model_copy", "model_dump", "model_dump_json", "model_extra", "model_fields",
  "model_fields_set", "model_json_schema", "model_parametrized_name", "model_post_init",
  "model_rebuild", "model_validate", "model_validate_json", "model_validate_strings", "parse_file",
  "parse_obj", "parse_raw", "schema", "schema_json", "update_forward_refs", "validate"]

/-- The text, or the other one where it is empty. -/
def orElseText (text other : String) : String :=
  if text.isEmpty then other else text

/-- Whether the text starts with an ASCII digit. -/
def startsWithDigit (text : String) : Bool :=
  text.toList.head?.any Char.isDigit

/-- A variable name: snake case, `value` where there are no words, `n_` before a leading digit,
and an underscore after a keyword or a reserved name. -/
def identifier (text : String) (reserved : List String := []) : String :=
  let name := orElseText (snake text) "value"
  let name := if startsWithDigit name then "n_" ++ name else name
  if keywords.contains name || reserved.contains name then name ++ "_" else name

/-- The name of a record's field, which also keeps off the attributes of every record and off
their family of names. -/
def fieldIdentifier (text : String) : String :=
  let name := identifier text recordAttributes
  if "model_".toList.isPrefixOf name.toList && name.toList.getLast? != some '_' then name ++ "_"
  else name

/-- The name of a type: pascal case, `Model` where there are no words and before a digit. -/
def typeIdentifier (text : String) : String :=
  let name := orElseText (pascal text) "Model"
  if startsWithDigit name then "Model" ++ name else name

/-- The first of `name2`, `name3`, … from the given suffix on that is not taken. Each step that
fails strikes a taken name, so that as many steps as there are taken names are enough. -/
def firstFree (name : String) (taken : List String) : Nat → Nat → String
  | 0, k => name ++ toString k
  | n + 1, k =>
    if taken.contains (name ++ toString k) then firstFree name taken n (k + 1)
    else name ++ toString k

/-- The name itself, or with the smallest number from 2 on that makes it differ from all taken
ones. -/
def uniqueName (name : String) (taken : List String) : String :=
  if taken.contains name then firstFree name taken taken.length 2 else name

/-- Makes each name of a list differ from the taken ones and from those before it. -/
def uniqueNames : List String → List String → List String
  | _, [] => []
  | taken, name :: rest =>
    let unique := uniqueName name taken
    unique :: uniqueNames (unique :: taken) rest

end ApiContract.Text
