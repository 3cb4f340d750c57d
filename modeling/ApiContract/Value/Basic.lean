import ApiContract.Json.Printer
import ApiContract.TypeModel.Basic

/-!
# Values

What bodies and parameters hold once they have been read: scalars, lists and maps, records and members
of enumerations. A record knows its own type, so that it can be told from records with the same fields
and be written without further knowledge.
-/

namespace ApiContract

/-- The name of a type of records. The empty record has a type of its own, and the cases of a union are
named within it. -/
inductive RecordName where
  | empty
  | named (name : String)
  | variant (union name : String)
deriving DecidableEq, Repr

/-- A type of records. For a union's case, the discriminator is the property that tells the cases apart,
and the tag is its value for this one. -/
structure RecordType where
  name : RecordName
  body : Body
  discriminator : Option String
  tag : Option String
deriving DecidableEq, Repr

/-- A value. A record holds a value for every field of its type, by name, and then its further
entries. `foreign` stands for what no type has. -/
inductive Value where
  | scalar (s : Scalar)
  | list (items : List Value)
  | map (entries : List (String × Value))
  | record (type : RecordType) (fields extra : List (String × Value))
  | member (enumeration : String) (member : Member)
  | foreign (typeName : String)
deriving Inhabited

namespace RecordName

/-- The full name of a type of records. -/
def text : RecordName → String
  | .empty => "EmptyModel"
  | .named n => n
  | .variant union n => union ++ "." ++ n

/-- The name of a type of records within its union. -/
def last : RecordName → String
  | .empty => "EmptyModel"
  | .named n => n
  | .variant _ n => n

end RecordName

namespace RecordType

/-- The type of the empty record. -/
def empty : RecordType := ⟨.empty, ⟨[], none⟩, none, none⟩

/-- The type of the records of a named type. -/
def ofNamed (name : String) (body : Body) : RecordType := ⟨.named name, body, none, none⟩

/-- The type of the records of a union's case. -/
def ofVariant (union : String) (discriminator tag : Option String) (v : Variant) : RecordType :=
  ⟨.variant union v.name, v.body, discriminator, tag⟩

/-- Whether records may have further entries. -/
def isOpen (t : RecordType) : Bool :=
  t.body.extra.isSome

end RecordType

namespace Value

/-- The absent value. -/
@[match_pattern] abbrev null : Value := .scalar .null
/-- A text. -/
@[match_pattern] abbrev text (s : String) : Value := .scalar (.text s)

/-! ## Recursion -/

mutual

/-- Recursion over a value: every container is handed its parts with their results. -/
def para {β : Type u} (onScalar : Scalar → β) (onList : List (Value × β) → β)
    (onMap : List (String × Value × β) → β)
    (onRecord : RecordType → List (String × Value × β) → List (String × Value × β) → β)
    (onMember : String → Member → β) (onForeign : String → β) : Value → β
  | .scalar s => onScalar s
  | .list items => onList (paraItems onScalar onList onMap onRecord onMember onForeign items)
  | .map entries => onMap (paraEntries onScalar onList onMap onRecord onMember onForeign entries)
  | .record type fields extra =>
    onRecord type (paraEntries onScalar onList onMap onRecord onMember onForeign fields)
      (paraEntries onScalar onList onMap onRecord onMember onForeign extra)
  | .member e m => onMember e m
  | .foreign n => onForeign n

/-- `para` on the items of a list. -/
def paraItems {β : Type u} (onScalar : Scalar → β) (onList : List (Value × β) → β)
    (onMap : List (String × Value × β) → β)
    (onRecord : RecordType → List (String × Value × β) → List (String × Value × β) → β)
    (onMember : String → Member → β) (onForeign : String → β) : List Value → List (Value × β)
  | [] => []
  | v :: rest =>
    (v, para onScalar onList onMap onRecord onMember onForeign v) ::
      paraItems onScalar onList onMap onRecord onMember onForeign rest

/-- `para` on named parts. -/
def paraEntries {β : Type u} (onScalar : Scalar → β) (onList : List (Value × β) → β)
    (onMap : List (String × Value × β) → β)
    (onRecord : RecordType → List (String × Value × β) → List (String × Value × β) → β)
    (onMember : String → Member → β) (onForeign : String → β) :
    List (String × Value) → List (String × Value × β)
  | [] => []
  | (k, v) :: rest =>
    (k, v, para onScalar onList onMap onRecord onMember onForeign v) ::
      paraEntries onScalar onList onMap onRecord onMember onForeign rest

end

/-! ## Plain values -/

/-- The text of a key of a map. -/
def keyText : Scalar → String
  | .text s => s
  | k => k.display

/-- The value that a tree is. -/
def ofTree : Tree → Value :=
  Tree.para {
    scalar := .scalar
    list _ items := .list (items.map (·.2))
    map _ entries := .map (entries.map fun (k, _, v) => (keyText k, v))
    set _ members := .list (members.map .scalar)
    pair x y := .list [x.2, y.2]
    back _ isMap := .foreign (if isMap then "dict" else "list") }

/-- The parts of a map with each key once: its last value, at its first place. -/
def mergeKeys {β : Type u} (parts : List (String × β)) : List (String × β) :=
  parts.foldl (fun done (k, b) =>
    if done.any fun p => p.1 = k then done.map fun p => if p.1 = k then (k, b) else p
    else done ++ [(k, b)]) []

/-- A plain value whose maps have each key once. -/
def merged : Value → Value :=
  para .scalar (fun items => .list (items.map (·.2)))
    (fun entries => .map (mergeKeys (entries.map fun (k, _, v) => (k, v))))
    (fun type fields extra =>
      .record type (fields.map fun (k, v, _) => (k, v)) (extra.map fun (k, v, _) => (k, v)))
    .member .foreign

/-- The tree that a value is, if it has neither records nor members of enumerations. -/
def toTree? : Value → Option Tree :=
  para (fun s => some (.scalar s))
    (fun items => (Json.allSome (items.map (·.2))).map Tree.array)
    (fun entries =>
      (Json.allSome (entries.map fun (k, _, v) => v.map fun t => (k, t))).map Tree.object)
    (fun _ _ _ => none) (fun _ _ => none) (fun _ => none)

/-! ## Messages -/

/-- The name of a value's type in messages. -/
def typeName : Value → String
  | .scalar s => s.typeName
  | .list _ => "list"
  | .map _ => "dict"
  | .record type _ _ => type.name.last
  | .member e _ => e
  | .foreign n => n

/-- Named values in messages. -/
def bindings (entries : List (String × Value × String)) : List String :=
  entries.map fun (k, _, v) => k ++ "=" ++ v

/-- The literal form of a value in messages. -/
def literal : Value → String :=
  para Scalar.literal
    (fun items => "[" ++ ", ".intercalate (items.map (·.2)) ++ "]")
    (fun entries =>
      "\x7b" ++ ", ".intercalate (entries.map fun (k, _, v) => Text.quoted k ++ ": " ++ v) ++ "\x7d")
    (fun type fields extra =>
      type.name.last ++ "(" ++ ", ".intercalate (bindings (fields ++ extra)) ++ ")")
    (fun e m => "<" ++ e ++ "." ++ m.name ++ ": " ++ m.value.literal ++ ">")
    (fun n => "<" ++ n ++ ">")

/-- The fields of a record in messages. -/
def fieldsText (entries : List (String × Value)) : String :=
  " ".intercalate (entries.map fun (k, v) => k ++ "=" ++ v.literal)

/-- A value as plain text. -/
def display : Value → String
  | .scalar s => s.display
  | .record _ fields extra => fieldsText (fields ++ extra)
  | .member _ m => match m.value with
    | .scalar (.bool b) => if b then "true" else "false"
    | t => t.display
  | v => v.literal

/-- A value as text, truth values in lower case. -/
def written : Value → String
  | .scalar (.bool b) => if b then "true" else "false"
  | v => v.display

/-! ## Sameness -/

/-- Whether named values stand for the same, in any order. -/
def sameEntries (entries : List (String × Value × (Value → Bool))) (others : List (String × Value)) :
    Bool :=
  entries.length == others.length &&
    entries.all fun (k, _, sameAs) => (others.lookup k).any sameAs

/-- Whether two values stand for the same: numbers are compared as numbers, maps without regard to
order, and records and members must be of one type. -/
def same : Value → Value → Bool :=
  para (β := Value → Bool)
    (fun s other => match other with
      | .scalar s' => s.same s'
      | _ => false)
    (fun items other => match other with
      | .list items' => items.length == items'.length && (items.zip items').all fun (x, y) => x.2 y
      | _ => false)
    (fun entries other => match other with
      | .map entries' => sameEntries entries entries'
      | _ => false)
    (fun type fields extra other => match other with
      | .record type' fields' extra' =>
        type.name == type'.name && sameEntries fields fields' && sameEntries extra extra'
      | _ => false)
    (fun e m other => match other with
      | .member e' m' => e == e' && m.name == m'.name
      | _ => false)
    (fun _ _ => false)

end Value

end ApiContract
