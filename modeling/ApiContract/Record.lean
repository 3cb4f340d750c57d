import ApiContract.Decimal.Lenient
import ApiContract.Failure
import ApiContract.Text.Utf8

/-!
# Reading records

Checks of the shape of trees against the fields of records: texts, lists of texts, maps. Every check
gives the value or all that is wrong with it, with the way to each place.
-/

namespace ApiContract.Record

/-- The result of a check. -/
abbrev Check (α : Type) := Except (List Mismatch) α

/-- Whether a whole number fits in a signed word of 64 bits. -/
def isWord (n : Int) : Bool :=
  -Int.pow 2 63 ≤ n && n < Int.pow 2 63

/-- One thing is wrong, right here. -/
def wrong {α : Type} (c : Mismatch.Cause) : Check α :=
  .error [⟨[], c⟩]

/-- Puts steps in front of the ways of everything that is wrong. -/
def at_ {α : Type} (steps : List Step) (c : Check α) : Check α :=
  c.mapError fun ms => ms.map (Mismatch.under steps)

/-- A check of the value of a field. -/
def field {α : Type} (name : String) (c : Check α) : Check α :=
  at_ [.name name] c

/-- Two checks together; what is wrong with either is reported. -/
def both {α β : Type} (a : Check α) (b : Check β) : Check (α × β) :=
  match a, b with
  | .ok a, .ok b => .ok (a, b)
  | .error e, .ok _ => .error e
  | .ok _, .error e => .error e
  | .error e, .error e' => .error (e ++ e')

/-- Checks in a row; what is wrong with any is reported. -/
def each {α : Type} : List (Check α) → Check (List α)
  | [] => .ok []
  | c :: rest => (both c (each rest)).map fun (a, as) => a :: as

/-- The text that a scalar is, or that its octets encode. -/
def textOf : Scalar → Except Mismatch.Cause String
  | .text s => .ok s
  | .bytes octets => match Text.Utf8.decode? octets with
    | some s => .ok s
    | none => .error .textEncoding
  | _ => .error .textType

/-- A text. -/
def text : Tree → Check String
  | .scalar s => match textOf s with
    | .ok s => .ok s
    | .error cause => wrong cause
  | _ => wrong .textType

/-- A text or nothing. -/
def textOrNone : Tree → Check (Option String)
  | .null => .ok none
  | t => some <$> text t

/-- The items of a list, or of what can be put in a row like one. -/
def list : Tree → Check (List Tree)
  | .list _ ts => .ok ts
  | .set _ ms => .ok (ms.map Tree.scalar)
  | .pair x y => .ok [x, y]
  | _ => wrong .listType

/-- A list whose items pass a check. -/
def listOf {α : Type} (item : Tree → Check α) (t : Tree) : Check (List α) := do
  let ts ← list t
  each (ts.mapIdx fun i t => at_ [.index i] (item t))

/-- The step to the value under a key. -/
def keyStep : Scalar → Step
  | .text s => .name s
  | .bool b => .index (if b then 1 else 0)
  | .int n => if isWord n then .index n else .name (toString n)
  | k => .name k.literal

/-- A key that is a text. -/
def key (k : Scalar) : Check String :=
  match textOf k with
  | .ok s => .ok s
  | .error cause => .error [⟨[keyStep k, .name "[key]"], cause⟩]

/-- A map with texts as keys whose values pass a check. -/
def mapOf {α : Type} (value : Tree → Check α) (t : Tree) : Check (List (String × α)) :=
  match t.entries? with
  | none => wrong .mapType
  | some es => each (es.map fun (k, v) => both (key k) (at_ [keyStep k] (value v)))

/-- A map with texts as keys. Of two keys that are one text the later value stands. -/
def map (t : Tree) : Check Entries := do
  let es ← mapOf .ok t
  return es.foldl (fun done (k, v) => Entries.put (.text k) v done) []

/-- A value that may be absent. -/
def optional {α : Type} (check : Tree → Check α) : Tree → Check (Option α)
  | .null => .ok none
  | t => some <$> check t

/-- What is wrong, as a failure. -/
def toFailure {α : Type} (c : Check α) : Except Failure α :=
  c.mapError .shape

/-! ## Fields -/

/-- The value of a key of a record that must be there. -/
def required {α : Type} (es : Entries) (name : String) (check : Tree → Check α) : Check α :=
  field name (match es.get? name with
    | some t => check t
    | none => wrong .missing)

/-- The value of a key of a record, or else one that stands for its absence. -/
def withDefault {α : Type} (es : Entries) (name : String) (absent : α) (check : Tree → Check α) :
    Check α :=
  match es.get? name with
  | some t => field name (check t)
  | none => .ok absent

/-- One of a choice of words. -/
def choice (words : List String) : Tree → Check String
  | .text s => if words.contains s then .ok s else wrong (.oneOf words)
  | _ => wrong (.oneOf words)

/-- The entries of a record of a kind. -/
def entriesOf (kind : String) (t : Tree) : Check Entries :=
  match t.entries? with
  | some es => .ok es
  | none => wrong (.recordType kind)

/-!
## Loose scalars

Truth values and whole numbers that come from other programs, which may spell them as texts or as other
numbers.
-/

/-- The truth value that a word stands for. -/
def truthOf? (text : String) : Option Bool :=
  let word := String.ofList (text.toList.map Char.toLower)
  if ["0", "off", "f", "false", "n", "no"].contains word then some false
  else if ["1", "on", "t", "true", "y", "yes"].contains word then some true
  else none

/-- The truth value that a number stands for. -/
def truthOfInt (n : Int) : Check Bool :=
  if n = 0 then .ok false
  else if n = 1 then .ok true
  else if isWord n then wrong .truthParsing
  else wrong .truthType

/-- A truth value. -/
def looseTruth : Tree → Check Bool
  | .scalar (.bool b) => .ok b
  | .scalar (.int n) => truthOfInt n
  | .scalar (.float x) => match Decimal.integer? x with
    | some n => truthOfInt n
    | none => wrong .truthType
  | .text s => match truthOf? s with
    | some b => .ok b
    | none => wrong .truthParsing
  | _ => wrong .truthType

/-- A whole number. One that is written with a fraction of zeros fits in a word, its least one apart. -/
def looseWhole : Tree → Check Int
  | .scalar (.int n) => .ok n
  | .scalar (.bool b) => .ok (if b then 1 else 0)
  | .scalar (.float x) => match Decimal.integer? x with
    | some n => if isWord n && n != -Int.pow 2 63 then .ok n else wrong .wholeTooLong
    | none => if x.isFinite then wrong .wholeFromFraction else wrong .wholeFromNotFinite
  | .text s => match Decimal.lenientWhole s.toList with
    | .ok n => .ok n
    | .error .malformed => wrong .wholeParsing
    | .error .tooLong => wrong .wholeTooLong
  | _ => wrong .wholeType

end ApiContract.Record
