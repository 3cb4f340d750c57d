import ApiContract.Text.Lower
import ApiContract.Tree.Basic

/-!
# Headers

Fields of HTTP messages: names in lower case with values, in order, and a name may stand more than once.
-/

namespace ApiContract.Http

/-- Whether a text is made of ASCII characters. -/
def isAscii (text : String) : Bool :=
  text.toList.all fun c => c.toNat < 128

/-- A name in the case in which names are kept. -/
def headerKey (name : String) : String :=
  String.ofList (name.toList.map Char.toLower)

/-- Header fields in order; names are in lower case. -/
structure Headers where
  items : List (String × String)
deriving DecidableEq, Repr, Inhabited

namespace Headers

/-- No fields. -/
def empty : Headers := ⟨[]⟩

/-- Fields with names in any case. -/
def ofList (items : List (String × String)) : Headers :=
  ⟨items.map fun (name, value) => (headerKey name, value)⟩

/-- All values of a name. -/
def values (h : Headers) (name : String) : List String :=
  (h.items.filter fun i => i.1 = headerKey name).map (·.2)

/-- Whether a name may be asked for: one with other than ASCII characters only if the fields have such
characters, too. -/
def answers (h : Headers) (name : String) : Bool :=
  isAscii (Text.lower name) || !h.items.all fun i => isAscii i.1 && isAscii i.2

/-- The value of a name in any case; several are joined by commas. -/
def get? (h : Headers) (name : String) : Option String :=
  match h.values (Text.lower name) with
  | [] => none
  | vs => some (", ".intercalate vs)

/-- Sets the one value of a name, in the place of the first that it had. -/
def set (h : Headers) (name value : String) : Headers :=
  ⟨go h.items⟩
where
  /-- The same on fields. -/
  go : List (String × String) → List (String × String)
  | [] => [(headerKey name, value)]
  | i :: rest =>
    if i.1 = headerKey name then (i.1, value) :: rest.filter (·.1 ≠ headerKey name)
    else i :: go rest

/-- Fields behind those that are there. -/
def append (h other : Headers) : Headers :=
  ⟨h.items ++ other.items⟩

/-- The values by name, in the order in which names occur first. -/
def grouped (h : Headers) : List (String × List String) :=
  (h.items.map (·.1)).eraseDups.map fun name => (name, h.values name)

/-- Fields that a program gives: ASCII texts, as a map or as pairs. -/
def ofTree? (t : Tree) : Option Headers := do
  let pairs ← match t with
    | .null => some []
    | .map _ entries => some (entries.map fun (k, v) => (Tree.scalar k, v))
    | .list _ items => items.mapM fun i => match i with
      | .list _ [k, v] => some (k, v)
      | _ => none
    | _ => none
  let items ← pairs.mapM fun (k, v) => do
    let name ← k.text?
    let value ← v.text?
    if isAscii name && isAscii value then some (name, value) else none
  return ofList items

end Headers

end ApiContract.Http
