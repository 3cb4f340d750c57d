import ApiContract.Reference
import ApiContract.Text.Base64
import ApiContract.Text.Lower
import ApiContract.Tree.Scalar
import ApiContract.Yaml.Lexeme

/-!
# Scalars of YAML

The type of a plain scalar follows from its text: words for truth values and for nothing, whole numbers
in four bases and in base sixty, binary64 numbers, dates and times. Everything else is text.
-/

namespace ApiContract.Yaml

/-! ## Types -/

/-- The beginning of the standard types' names. -/
def standard : String := "tag:yaml.org,2002:"

/-- A standard type. -/
def Tag.of (name : String) : String := standard ++ name

/-- The type of texts. -/
def Tag.text : String := Tag.of "str"
/-- The type of the absent value. -/
def Tag.null : String := Tag.of "null"
/-- The type of the key under which other maps are merged. -/
def Tag.merge : String := Tag.of "merge"
/-- The type of the key of a map's main value. -/
def Tag.value : String := Tag.of "value"
/-- The type of lists. -/
def Tag.list : String := Tag.of "seq"
/-- The type of maps. -/
def Tag.map : String := Tag.of "map"

/-! ## Shapes of plain texts -/

/-- Drops a sign. -/
def unsigned (cs : List Char) : List Char :=
  (Decimal.takeSign cs).2

/-- A digit or an underscore. -/
def isLooseDigit (c : Char) : Bool :=
  c.isDigit || c == '_'

/-- A word with an initial capital, in capitals, or in lower case. -/
def isCased (words : List String) (text : String) : Bool :=
  words.any fun w =>
    let capitals := String.ofList (w.toList.map Char.toUpper)
    let initial := match w.toList with
      | c :: rest => String.ofList (c.toUpper :: rest)
      | [] => ""
    text = w || text = capitals || text = initial

/-- A part of base sixty: at most two digits, together below sixty. -/
def isSixtieth : List Char → Bool
  | [d] => d.isDigit
  | [d, e] => '0' ≤ d && d ≤ '5' && e.isDigit
  | _ => false

/-- Parts of base sixty, each after a colon. -/
def isSixties (cs : List Char) : Bool :=
  match Reference.splitBy (· == ':') cs with
  | [] :: parts => parts.all isSixtieth
  | _ => false

/-- Whether a text is a whole number. -/
def isWhole (text : String) : Bool :=
  match unsigned text.toList with
  | '0' :: 'b' :: ds => !ds.isEmpty && ds.all fun c => c == '0' || c == '1' || c == '_'
  | '0' :: 'x' :: ds => !ds.isEmpty && ds.all fun c => (Decimal.digitOf? 16 c).isSome && c.isAlphanum || c == '_'
  | ['0'] => true
  | '0' :: ds => ds.all fun c => ('0' ≤ c && c ≤ '7') || c == '_'
  | c :: rest =>
    c.isDigit &&
      let after := rest.dropWhile isLooseDigit
      after.isEmpty || isSixties after
  | [] => false

/-- Whether a text is nothing or an exponent with a sign. -/
def isExponent : List Char → Bool
  | [] => true
  | e :: sign :: ds =>
    (e == 'e' || e == 'E') && (sign == '+' || sign == '-') && !ds.isEmpty && ds.all Char.isDigit
  | _ => false

/-- Whether a text is digits and underscores, starting with a digit. -/
def startsDigits : List Char → Bool
  | c :: _ => c.isDigit
  | [] => false

/-- Whether a text is a binary64 number. -/
def isReal (text : String) : Bool :=
  let cs := text.toList
  let body := unsigned cs
  let word := String.ofList body
  let whole := body.takeWhile isLooseDigit
  let after := body.drop whole.length
  word = ".inf" || word = ".Inf" || word = ".INF" ||
    text = ".nan" || text = ".NaN" || text = ".NAN" ||
    (startsDigits whole && match after with
      | '.' :: rest => isExponent (rest.dropWhile isLooseDigit)
      | ':' :: _ =>
        let (sixties, fraction) := Decimal.splitFirst (· == '.') after
        isSixties sixties && fraction.any fun f => f.all isLooseDigit
      | _ => false) ||
    (match cs with
      | '.' :: rest => startsDigits rest && isExponent (rest.dropWhile isLooseDigit)
      | _ => false)

/-! ## Times -/

/-- One or two digits, and what follows. -/
def oneOrTwo (cs : List Char) : Option (Nat × List Char) :=
  let ds := (cs.takeWhile Char.isDigit).take 2
  (Decimal.digits? 10 ds).map fun (n, _) => (n, cs.drop ds.length)

/-- A fixed number of digits, and what follows. -/
def exactly (count : Nat) (cs : List Char) : Option (Nat × List Char) :=
  let ds := cs.take count
  if ds.length = count ∧ ds.all Char.isDigit then
    (Decimal.digits? 10 ds).map fun (n, _) => (n, cs.drop count)
  else none

/-- Drops a character that must be next. -/
def expect (c : Char) : List Char → Option (List Char)
  | d :: rest => if d = c then some rest else none
  | [] => none

/-- The end of a time: an offset in seconds, zero for the mark of universal time, none for nothing. -/
def offset? (cs : List Char) : Option (Option Int) :=
  match cs.dropWhile isSpace with
  | [] => if cs.isEmpty then some none else none
  | ['Z'] => some (some 0)
  | sign :: rest => do
    if sign != '+' && sign != '-' then none
    let (hours, rest) ← oneOrTwo rest
    let minutes ← match rest with
      | [] => some 0
      | ':' :: rest => (exactly 2 rest).bind fun (n, rest) => if rest.isEmpty then some n else none
      | _ => none
    let seconds : Int := hours * 3600 + minutes * 60
    return some (if sign == '-' then -seconds else seconds)

/-- The microseconds that the digits after a point give. -/
def microseconds (ds : List Char) : Nat :=
  let kept := ds.take 6
  (((Decimal.digits? 10 kept).map (·.1)).getD 0) * Nat.pow 10 (6 - kept.length)

/-- A date, or a date and a time. -/
inductive Moment where
  | date (d : Calendar.Date)
  | time (t : Calendar.DateTime)

/-- The moment that characters give, however far out of the calendar. -/
def moment? (cs : List Char) : Option Moment := do
  let (year, cs) ← exactly 4 cs
  let (month, cs) ← oneOrTwo (← expect '-' cs)
  let (day, cs) ← oneOrTwo (← expect '-' cs)
  if cs.isEmpty then return .date ⟨year, month, day⟩
  let cs ← match cs with
    | 'T' :: rest | 't' :: rest => some rest
    | c :: _ => if isSpace c then some (cs.dropWhile isSpace) else none
    | [] => none
  let (hour, cs) ← oneOrTwo cs
  let (minute, cs) ← exactly 2 (← expect ':' cs)
  let (second, cs) ← exactly 2 (← expect ':' cs)
  let (fraction, cs) := match cs with
    | '.' :: rest => (rest.takeWhile Char.isDigit, rest.dropWhile Char.isDigit)
    | cs => ([], cs)
  let offset ← offset? cs
  return .time ⟨⟨year, month, day⟩, hour, minute, second, microseconds fraction, offset⟩

/-- Whether a plain text is a moment: a date alone must have two digits for month and day. -/
def isMoment (text : String) : Bool :=
  match moment? text.toList with
  | some (.date _) => text.length = 10
  | some (.time _) => true
  | none => false

/-! ## Resolution -/

/-- The type that one line says. -/
def resolveLine (text : String) : String :=
  if isCased ["yes", "no", "true", "false", "on", "off"] text then Tag.of "bool"
  else if isReal text then Tag.of "float"
  else if isWhole text then Tag.of "int"
  else if text = "<<" then Tag.merge
  else if text = "" || text = "~" || isCased ["null"] text then Tag.null
  else if isMoment text then Tag.of "timestamp"
  else if text = "=" then Tag.value
  else if text = "!" || text = "&" || text = "*" then Tag.of "yaml"
  else Tag.text

/-- Drops one line feed at the end. -/
def dropLineEnd (cs : List Char) : List Char :=
  if cs.getLast? = some '\n' then cs.dropLast else cs

/-- The type of a plain scalar. A line feed at the end of a line does not count. -/
def resolve (text : String) : String :=
  if text = "\n" then Tag.text else resolveLine (String.ofList (dropLineEnd text.toList))

/-! ## Values -/

/-- The text without underscores. -/
def withoutUnderscores (text : String) : List Char :=
  text.toList.filter (· != '_')

/-- A result, or the fault of a scalar without value. -/
def orValueFault {α : Type} (o : Option α) : Except Fault α :=
  match o with
  | some a => .ok a
  | none => .error .value

/-- Numbers in base sixty, the lowest last. -/
def sixties {α : Type} (read : List Char → Option α) (add : α → α → α) (zero : α)
    (times : α → Int → α) (cs : List Char) : Option α := do
  let parts ← (Reference.splitBy (· == ':') cs).mapM read
  let weighed := (parts.reverse.zipIdx).map fun (p, i) => times p (Int.pow 60 i)
  return weighed.foldl add zero

/-- A whole number. -/
def wholeValue (text : String) : Except Fault Int := do
  let cs := withoutUnderscores text
  if cs.isEmpty then throw .value
  let (negative, cs) := Decimal.takeSign cs
  let n ← orValueFault <| match cs with
    | ['0'] => some 0
    | '0' :: 'b' :: ds => Decimal.whole? 2 ds
    | '0' :: 'x' :: ds => Decimal.whole? 16 ds
    | '0' :: _ => Decimal.whole? 8 cs
    | [] => none
    | _ =>
      if cs.contains ':' then sixties (Decimal.whole? 10) (· + ·) 0 (· * ·) cs
      else Decimal.whole? 10 cs
  return if negative then -n else n

/-- A binary64 number. In base sixty the weight of every part must be finite, so there are 174 parts at
most. -/
def realValue (text : String) : Except Fault Float := do
  let cs := (Text.lower (String.ofList (withoutUnderscores text))).toList
  if cs.isEmpty then throw .value
  let (negative, cs) := Decimal.takeSign cs
  let sign (x : Float) := if negative then -1.0 * x else x
  if cs = ".inf".toList then return sign Decimal.infinity
  if cs = ".nan".toList then return Decimal.notANumber
  if cs.contains ':' then
    if cs.count ':' ≥ 174 then throw .value
    return sign (← orValueFault (sixties Decimal.real? (· + ·) 0.0
      (fun x n => x * Decimal.ofInt n) cs))
  return sign (← orValueFault (Decimal.real? cs))

/-- A truth value. -/
def truthValue (text : String) : Except Fault Bool :=
  let word := Text.lower text
  if word ∈ ["yes", "true", "on"] then .ok true
  else if word ∈ ["no", "false", "off"] then .ok false
  else .error .value

/-- A date or time of the calendar. -/
def momentValue (text : String) : Except Fault Scalar :=
  match moment? (dropLineEnd text.toList) with
  | some (.date d) => if d.valid then .ok (.date none d) else .error .value
  | some (.time t) => if t.valid then .ok (.dateTime none t) else .error .value
  | none => .error .value

/-- Why characters cannot be written in ASCII: the first run of others, and where it stands. -/
def asciiReason (cs : List Char) : String :=
  let before := cs.takeWhile (·.toNat < 128)
  let run := (cs.drop before.length).takeWhile (·.toNat ≥ 128)
  let start := before.length
  "'ascii' codec can't encode " ++
    (match run with
    | [c] => "character '" ++ String.ofList (Text.numericEscape c) ++ "' in position " ++ toString start
    | _ => "characters in position " ++ toString start ++ "-" ++ toString (start + run.length - 1)) ++
    ": ordinal not in range(128)"

/-- Why a text in base 64 breaks off. -/
def base64Reason (cs : List Char) : String :=
  let count := (cs.filter fun c => (Text.Base64.value? c).isSome).length
  if count % 4 = 1 then "Invalid base64-encoded string: number of data characters (" ++ toString count ++
    ") cannot be 1 more than a multiple of 4"
  else "Incorrect padding"

/-- Octets in base 64: characters outside the alphabet are skipped. The text stands at a place. -/
def octetsValue (left : Nat) (text : String) : Except Fault (List UInt8) :=
  if text.toList.any fun c => c.toNat ≥ 128 then
    .error (.broken none (.notAscii (asciiReason text.toList)) left)
  else match Text.Base64.decodeLoose? text with
    | some bs => .ok bs
    | none => .error (.broken none (.notBase64 (base64Reason text.toList)) left)

/-- Whether a type is one of scalars. -/
def isScalarType (tag : String) : Bool :=
  ["str", "null", "bool", "int", "float", "timestamp", "binary"].any fun name => tag = Tag.of name

/-- The value of a text of a scalar type at a place; nothing for other types. -/
def scalarValue (left : Nat) (tag text : String) : Option (Except Fault Scalar) :=
  if tag = Tag.text then some (.ok (.text text))
  else if tag = Tag.null then some (.ok .null)
  else if tag = Tag.of "bool" then some (Scalar.bool <$> truthValue text)
  else if tag = Tag.of "int" then some (Scalar.int <$> wholeValue text)
  else if tag = Tag.of "float" then some (Scalar.float <$> realValue text)
  else if tag = Tag.of "timestamp" then some (momentValue text)
  else if tag = Tag.of "binary" then some (Scalar.bytes <$> octetsValue left text)
  else none

end ApiContract.Yaml
