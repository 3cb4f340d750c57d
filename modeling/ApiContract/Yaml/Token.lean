import ApiContract.Text.Utf8
import ApiContract.Yaml.Lexeme

/-!
# Tokens of YAML

The tokens of a text, in order. Indentation becomes tokens of its own: a block of entries starts where
an entry stands further to the right than the block around it, and ends before the first token that
stands further to the left.

A key without a mark of its own shows itself only by the colon after it. Every token that could be
such a key is remembered until its line ends, and the tokens for the key, and for the block that it
starts, are put in front of it when the colon comes.
-/

namespace ApiContract.Yaml

/-- The parts of a tag: its handle, if it has one, and the rest. -/
structure TagName where
  handle : Option String
  suffix : String
deriving DecidableEq, Repr

/-- A directive in front of a document. -/
inductive Directive where
  | version (major : Nat)
  | tag (handle leading : String)
  | other
deriving DecidableEq, Repr

/-- A token. A fault ends the tokens. -/
inductive Token where
  | directive (d : Directive)
  | documentStart
  | documentEnd
  | blockSequenceStart
  | blockMappingStart
  | blockEnd
  | sequenceStart
  | sequenceEnd
  | mappingStart
  | mappingEnd
  | comma
  | entry
  | key
  | value
  | alias (name : String)
  | anchor (name : String)
  | tag (t : TagName)
  | scalar (text : String) (plain : Bool)
  | streamEnd
  | fault (f : Fault)
deriving DecidableEq, Repr

/-- How a message shows a token. -/
def Token.shown (t : Token) : String :=
  Text.quoted <| match t with
    | .directive _ => "<directive>"
    | .documentStart => "<document start>"
    | .documentEnd => "<document end>"
    | .blockSequenceStart => "<block sequence start>"
    | .blockMappingStart => "<block mapping start>"
    | .blockEnd => "<block end>"
    | .sequenceStart => "["
    | .sequenceEnd => "]"
    | .mappingStart => "\x7b"
    | .mappingEnd => "\x7d"
    | .comma => ","
    | .entry => "-"
    | .key => "?"
    | .value => ":"
    | .alias _ => "<alias>"
    | .anchor _ => "<anchor>"
    | .tag _ => "<tag>"
    | .scalar _ _ => "<scalar>"
    | .streamEnd | .fault _ => "<stream end>"

/-- A token and the number of characters from its start to the end of the text. -/
abbrev PlacedToken := Nat × Token

/-! ## Names -/

/-- A character of names and handles. -/
def isNameChar (c : Char) : Bool :=
  c.isAlphanum || c == '-' || c == '_'

/-- The name of an anchor, or of a use of one, and what follows. -/
def anchorName (what : String) (cs : List Char) : Except Fault (String × List Char) :=
  let inside : Inside := ⟨"while scanning an " ++ what, some (cs.length + 1)⟩
  let name := cs.takeWhile isNameChar
  let rest := cs.drop name.length
  if name.isEmpty then expectedAt inside "alphabetic or numeric character" rest
  else if atGap rest || rest.head?.any (· ∈ ['?', ':', ',', ']', '\x7d', '%', '@', '\x60']) then
    .ok (String.ofList name, rest)
  else expectedAt inside "alphabetic or numeric character" rest

/-- The handle of a tag, and what follows: `!`, or a name between two of them. -/
def tagHandle (inside : Inside) (cs : List Char) : Except Fault (String × List Char) :=
  match cs with
  | '!' :: rest =>
    if rest.head? == some ' ' then .ok ("!", rest)
    else
      let name := rest.takeWhile isNameChar
      match rest.drop name.length with
      | '!' :: after => .ok (String.ofList ('!' :: name ++ ['!']), after)
      | after => expectedAt inside "'!'" after
  | _ => expectedAt inside "'!'" cs

/-- A character that stands for itself in a tag. -/
def isTagChar (c : Char) : Bool :=
  c.isAlphanum || c ∈ "-;/?:@&=+$,_.!~*'()[]".toList

/-- Octets given by percent signs, and what follows. -/
def percentOctets (inside : Inside) : Nat → List Char → Except Fault (List UInt8 × List Char)
  | n + 1, '%' :: rest => do
    let (b, rest) ← hexDigits inside "URI escape sequence of 2 hexadecimal numbers" 2 rest
    let (more, rest) ← percentOctets inside n rest
    return (UInt8.ofNat b :: more, rest)
  | _, cs => .ok ([], cs)

/-- The characters of a tag, and what follows. -/
def tagChars (inside : Inside) : Nat → List Char → Except Fault (List Char × List Char)
  | 0, cs => .ok ([], cs)
  | _ + 1, [] => .ok ([], [])
  | n + 1, c :: rest =>
    if c == '%' then do
      let (octets, after) ← percentOctets inside (n + 1) (c :: rest)
      match Text.Utf8.fault? octets with
      | some reason => refuse inside (.notText reason) (c :: rest)
      | none =>
        let (more, rest) ← tagChars inside n after
        return (((Text.Utf8.decode? octets).getD "").toList ++ more, rest)
    else if isTagChar c then do
      let (more, rest) ← tagChars inside n rest
      return (c :: more, rest)
    else .ok ([], c :: rest)

/-- The part of a tag after its handle, which must not be empty. `what` is a tag or a directive. -/
def tagSuffix (what : String) (began : Nat) (cs : List Char) : Except Fault (String × List Char) := do
  let (suffix, rest) ← tagChars ⟨"while scanning a " ++ what, began⟩ cs.length cs
  if suffix.isEmpty then expectedAt ⟨"while parsing a " ++ what, began⟩ "URI" rest
  return (String.ofList suffix, rest)

/-- Whether a tag starts with a handle that has a second mark. -/
def hasHandle : List Char → Bool
  | [] => false
  | c :: rest => if c == ' ' || isBreak c then false else c == '!' || hasHandle rest

/-- A tag, from after its mark on. -/
def tagName (cs : List Char) : Except Fault (TagName × List Char) := do
  let began := cs.length + 1
  let inside : Inside := ⟨"while scanning a tag", began⟩
  let (name, rest) ← (match cs with
    | '<' :: rest => do
      let (suffix, rest) ← tagSuffix "tag" began rest
      match rest with
      | '>' :: rest => return (⟨none, suffix⟩, rest)
      | _ => expectedAt ⟨"while parsing a tag", began⟩ "'>'" rest
    | cs =>
      if atGap cs then return (⟨none, "!"⟩, cs)
      else do
        let (handle, rest) ← if hasHandle cs then tagHandle inside ('!' :: cs) else pure ("!", cs)
        let (suffix, rest) ← tagSuffix "tag" began rest
        return (⟨some handle, suffix⟩, rest) : Except Fault (TagName × List Char))
  if atSpace rest then return (name, rest) else expectedAt inside "' '" rest

/-! ## Directives -/

/-- A whole number in digits, and what follows. -/
def number (inside : Inside) (cs : List Char) : Except Fault (Nat × List Char) :=
  let ds := cs.takeWhile Char.isDigit
  match Decimal.digits? 10 ds with
  | some (n, _) => .ok (n, cs.drop ds.length)
  | none => expectedAt inside "a digit" cs

/-- What a directive of a name says, and what follows. -/
def directiveValue (inside : Inside) (began : Nat) (name : String) (cs : List Char) :
    Except Fault (Directive × List Char) := do
  let skip (cs : List Char) := cs.dropWhile (· == ' ')
  match name with
  | "YAML" =>
    let (major, rest) ← number inside (skip cs)
    match rest with
    | '.' :: rest =>
      let (_, rest) ← number inside rest
      if atSpace rest then return (.version major, rest) else expectedAt inside "a digit or ' '" rest
    | _ => expectedAt inside "a digit or '.'" rest
  | "TAG" =>
    let (handle, rest) ← tagHandle inside (skip cs)
    if rest.head? != some ' ' then expectedAt inside "' '" rest
    let (leading, rest) ← tagSuffix "directive" began (skip rest)
    if atSpace rest then return (.tag handle leading, rest) else expectedAt inside "' '" rest
  | _ => return (.other, cs.dropWhile (!isBreak ·))

/-- A directive, from after its mark to the end of its line. -/
def directive (cs : List Char) : Except Fault (Directive × List Char) := do
  let began := cs.length + 1
  let inside : Inside := ⟨"while scanning a directive", began⟩
  let name := cs.takeWhile isNameChar
  let rest := cs.drop name.length
  if name.isEmpty || !atSpace rest then expectedAt inside "alphabetic or numeric character" rest
  let (d, rest) ← directiveValue inside began (String.ofList name) rest
  return (d, ← lineTail inside rest)

/-! ## Scanning -/

/-- A token that may turn out to be a key: its number among the tokens and its place. It is required to
be one if it stands where an entry of the present block must start. -/
structure SimpleKey where
  number : Nat
  left : Nat
  line : Nat
  column : Nat
  required : Bool

/-- Where scanning has come to. The tokens so far are in reverse order. -/
structure Scanner where
  rest : List Char
  /-- The number of characters in the rest. -/
  left : Nat
  line : Nat
  column : Nat
  tokens : List PlacedToken
  count : Nat
  /-- The number of open brackets. -/
  flow : Nat
  indent : Int
  indents : List Int
  keyAllowed : Bool
  /-- The possible keys, by the number of open brackets. -/
  keys : List (Nat × SimpleKey)

namespace Scanner

/-- Goes on over one character. -/
def step (s : Scanner) : Scanner :=
  match s.rest with
  | [] => s
  | c :: rest =>
    let p := Position.after ⟨s.line, s.column⟩ c rest.head?
    { s with rest := rest, left := s.left - 1, line := p.line, column := p.column }

/-- The start of a text, after the byte order mark if there is one. -/
def start (cs : List Char) : Scanner :=
  let s : Scanner := ⟨cs, cs.length, 0, 0, [], 0, 0, -1, [], true, []⟩
  if cs.head? == some '\uFEFF' then s.step else s

/-- Goes on over a number of characters. -/
def forward : Nat → Scanner → Scanner
  | 0, s => s
  | n + 1, s => forward n s.step

/-- Goes on to where a rest of the text starts. -/
def moveTo (s : Scanner) (rest : List Char) : Scanner :=
  forward (s.left - rest.length) s

/-- Adds a token that starts at the present place. -/
def push (s : Scanner) (t : Token) : Scanner :=
  { s with tokens := (s.left, t) :: s.tokens, count := s.count + 1 }

/-- Puts a token in front of the token with a number. -/
def insert (s : Scanner) (number : Nat) (t : PlacedToken) : Scanner :=
  let later := s.count - number
  { s with tokens := s.tokens.take later ++ t :: s.tokens.drop later, count := s.count + 1 }

/-- Whether the place is outside brackets. -/
def inBlock (s : Scanner) : Bool :=
  s.flow == 0

/-- The colon after a key that is required to be one is missing. -/
def colonMissing {α : Type} (s : Scanner) (key : SimpleKey) : Except Fault α :=
  refuse ⟨"while scanning a simple key", some key.left⟩ .noColon s.rest

/-- Forgets the possible keys whose line has ended or whose start lies too far back. A required one
must not be forgotten. -/
def dropStaleKeys (s : Scanner) : Except Fault Scanner :=
  let stale (k : SimpleKey) : Bool := k.line != s.line || k.left - s.left > 1024
  match s.keys.find? fun k => stale k.2 && k.2.required with
  | some (_, key) => s.colonMissing key
  | none => .ok { s with keys := s.keys.filter fun k => !stale k.2 }

/-- Forgets the possible key at the present depth. -/
def dropKey (s : Scanner) : Except Fault Scanner :=
  match (s.keys.lookup s.flow).filter (·.required) with
  | some key => s.colonMissing key
  | none => .ok { s with keys := s.keys.filter fun k => k.1 != s.flow }

/-- Remembers that the next token may be a key. -/
def saveKey (s : Scanner) : Except Fault Scanner :=
  if !s.keyAllowed then .ok s
  else do
    let s ← s.dropKey
    let key : SimpleKey := ⟨s.count, s.left, s.line, s.column, s.inBlock && s.indent == s.column⟩
    return { s with keys := (s.flow, key) :: s.keys }

/-- Ends the blocks that are indented further than a column. -/
def unwindFrom (column : Int) : List Int → Scanner → Scanner
  | [], s => s
  | outer :: indents, s =>
    if s.indent > column then
      unwindFrom column indents ({ s with indent := outer, indents := indents }.push .blockEnd)
    else s

/-- Ends the blocks that are indented further than a column. Inside brackets indentation is free. -/
def unwind (s : Scanner) (column : Int) : Scanner :=
  if s.inBlock then unwindFrom column s.indents s else s

/-- Opens a block at a column, if the column is further to the right than the present block. -/
def addIndent (s : Scanner) (column : Nat) : Bool × Scanner :=
  if s.indent < column then (true, { s with indents := s.indent :: s.indents, indent := column })
  else (false, s)

/-- The start of the next token, after spaces, comments and breaks, and whether there was a break. -/
def gapFrom (inComment broke : Bool) : List Char → List Char × Bool
  | [] => ([], broke)
  | c :: rest =>
    if isBreak c then gapFrom false true rest
    else if inComment then gapFrom true broke rest
    else if c == ' ' then gapFrom false broke rest
    else if c == '#' then gapFrom true broke rest
    else (c :: rest, broke)

/-- Goes on to the next token. A key may start on a new line. -/
def skipGap (s : Scanner) : Scanner :=
  let (rest, broke) := gapFrom false false s.rest
  let s := s.moveTo rest
  if broke && s.inBlock then { s with keyAllowed := true } else s

/-- A mark that must not stand here. -/
def misplaced {α : Type} (s : Scanner) (problem : Problem) : Except Fault α :=
  .error (.broken none problem s.left)

/-- A token that ends every block. -/
def topLevel (s : Scanner) (length : Nat) (t : Token) : Except Fault Scanner := do
  let s ← (s.unwind (-1)).dropKey
  return ({ s with keyAllowed := false }.push t).forward length

/-- An opening bracket. -/
def openBracket (s : Scanner) (t : Token) : Except Fault Scanner := do
  let s ← s.saveKey
  return ({ s with flow := s.flow + 1, keyAllowed := true }.push t).step

/-- A closing bracket. One without an opening one is refused when the tokens are read. -/
def closeBracket (s : Scanner) (t : Token) : Except Fault Scanner := do
  let s ← s.dropKey
  return ({ s with flow := s.flow - 1, keyAllowed := false }.push t).step

/-- The mark of a sequence's entry. -/
def entryMark (s : Scanner) : Except Fault Scanner := do
  let s ← if !s.inBlock then pure s
    else if !s.keyAllowed then s.misplaced .entryHere
    else match s.addIndent s.column with
      | (true, s) => pure (s.push .blockSequenceStart)
      | (false, s) => pure s
  let s ← { s with keyAllowed := true }.dropKey
  return (s.push .entry).step

/-- The mark of a key. -/
def keyMark (s : Scanner) : Except Fault Scanner := do
  let s ← if !s.inBlock then pure s
    else if !s.keyAllowed then s.misplaced .keyHere
    else match s.addIndent s.column with
      | (true, s) => pure (s.push .blockMappingStart)
      | (false, s) => pure s
  let s ← { s with keyAllowed := s.inBlock }.dropKey
  return (s.push .key).step

/-- The mark of a value after a key without a mark. -/
def valueOf (s : Scanner) (key : SimpleKey) : Scanner :=
  let s := { s with keys := s.keys.filter fun k => k.1 != s.flow }
  let s := s.insert key.number (key.left, .key)
  let s := if !s.inBlock then s
    else match s.addIndent key.column with
      | (true, s) => s.insert key.number (key.left, .blockMappingStart)
      | (false, s) => s
  ({ s with keyAllowed := false }.push .value).step

/-- The mark of a value. -/
def valueMark (s : Scanner) : Except Fault Scanner :=
  match s.keys.lookup s.flow with
  | some key => .ok (s.valueOf key)
  | none => do
    let s ← if !s.inBlock then pure s
      else if !s.keyAllowed then s.misplaced .valueHere
      else match s.addIndent s.column with
        | (true, s) => pure (s.push .blockMappingStart)
        | (false, s) => pure s
    let s ← { s with keyAllowed := s.inBlock }.dropKey
    return (s.push .value).step

/-- A token that may be a key, read from after its first character on. -/
def keyLike {α : Type} (s : Scanner) (read : List Char → Except Fault (α × List Char))
    (token : α → Token) : Except Fault Scanner := do
  let s ← s.saveKey
  let (a, rest) ← read (s.rest.drop 1)
  return ({ s with keyAllowed := false }.push (token a)).moveTo rest

/-- A plain scalar, after which a key may follow on a new line. -/
def plainScalar (s : Scanner) : Except Fault Scanner := do
  let s ← s.saveKey
  let l := plain (!s.inBlock) (s.indent + 1) s.rest
  return ({ s with keyAllowed := l.broke }.push (.scalar (String.ofList l.chars) true)).moveTo l.rest

/-- A block scalar. -/
def blockScalar (s : Scanner) (folded : Bool) : Except Fault Scanner := do
  let s ← { s with keyAllowed := true }.dropKey
  let (text, rest) ← block folded s.indent (s.rest.drop 1)
  return (s.push (.scalar (String.ofList text) false)).moveTo rest

/-- A scalar in quotes. -/
def quotedScalar (s : Scanner) (double : Bool) : Except Fault Scanner :=
  s.keyLike (quoted double) fun cs => .scalar (String.ofList cs) false

/-- Whether a plain scalar may start here. -/
def startsPlain (s : Scanner) (c : Char) (rest : List Char) : Bool :=
  !(isSpace c || isBreak c || c ∈ "-?:,[]\x7b\x7d#&*!|>'\"%@\x60".toList) ||
    (!atGap rest && (c == '-' || (s.inBlock && (c == '?' || c == ':'))))

/-- The token that starts at the present place with a character. -/
def token (s : Scanner) (c : Char) (rest : List Char) : Except Fault Scanner :=
  let lineStart := s.column == 0
  if c == '%' && lineStart then do
    let s ← (s.unwind (-1)).dropKey
    let (d, rest) ← Yaml.directive rest
    return ({ s with keyAllowed := false }.push (.directive d)).moveTo rest
  else if c == '-' && lineStart && atMark s.rest then s.topLevel 3 .documentStart
  else if c == '.' && lineStart && atMark s.rest then s.topLevel 3 .documentEnd
  else if c == '[' then s.openBracket .sequenceStart
  else if c == '\x7b' then s.openBracket .mappingStart
  else if c == ']' then s.closeBracket .sequenceEnd
  else if c == '\x7d' then s.closeBracket .mappingEnd
  else if c == ',' then do
    let s ← { s with keyAllowed := true }.dropKey
    return (s.push .comma).step
  else if c == '-' && atGap rest then s.entryMark
  else if c == '?' && (!s.inBlock || atGap rest) then s.keyMark
  else if c == ':' && (!s.inBlock || atGap rest) then s.valueMark
  else if c == '*' then s.keyLike (anchorName "alias") .alias
  else if c == '&' then s.keyLike (anchorName "anchor") .anchor
  else if c == '!' then s.keyLike tagName .tag
  else if c == '|' && s.inBlock then s.blockScalar false
  else if c == '>' && s.inBlock then s.blockScalar true
  else if c == '\'' then s.quotedScalar false
  else if c == '"' then s.quotedScalar true
  else if s.startsPlain c rest then s.plainScalar
  else .error (.broken (some ⟨"while scanning for the next token", none⟩) (.startsNothing c) s.left)

/-- The next token and those that come with it. The answer says whether the text has ended. -/
def next (s : Scanner) : Except Fault (Bool × Scanner) := do
  let s ← s.skipGap.dropStaleKeys
  let s := s.unwind s.column
  match s.rest with
  | [] =>
    let s ← (s.unwind (-1)).dropKey
    return (true, s.push .streamEnd)
  | c :: rest => return (false, ← (← s.token c rest).dropStaleKeys)

/-- The tokens in order, without those that must wait for a possible key to be decided: up to the
first such key. -/
def settled (s : Scanner) : List PlacedToken :=
  s.tokens.reverse.take (s.keys.foldl (fun n k => min n k.2.number) s.count)

/-- Scans to the end of the text or the first fault. Every token but the last takes at least one
character, so that the characters of the text bound the steps. -/
def run : Nat → Scanner → List PlacedToken
  | 0, s => s.settled ++ [(s.left, .fault .value)]
  | n + 1, s =>
    match s.next with
    | .ok (true, s) => s.tokens.reverse
    | .ok (false, s) => run n s
    | .error f => s.settled ++ [(s.left, .fault f)]

end Scanner

/-- The first character that no document may hold, with the characters after it. -/
def firstForbidden? (cs : List Char) : Option Fault :=
  match cs.dropWhile isAllowed with
  | [] => none
  | c :: rest => some (.character c (rest.length + 1))

/-- The tokens of a text. -/
def tokens (text : String) : List PlacedToken :=
  let cs := text.toList
  match firstForbidden? cs with
  | some f => [(cs.length, .fault f)]
  | none => Scanner.run (cs.length + 1) (.start cs)

end ApiContract.Yaml
