import ApiContract.Record
import ApiContract.Text.Base64
import ApiContract.Value.Conform

/-!
# The form of values

Values in the form of JSON trees, in which tools hand them on. What JSON lacks is a map with one key that
starts with a dollar sign: octets, dates and times, numbers that no digits can write, records and members
of enumerations.
-/

namespace ApiContract

/-- A map with one special key. -/
def Tree.special (key : String) (t : Tree) : Tree := .object [(key, t)]

/-- The form of a scalar. -/
def Scalar.form : Scalar → Tree
  | .float x => match Decimal.valueOf x with
    | .finite .. => .scalar (.float x)
    | _ => .special "$float" (.text (Decimal.render .wide .words x))
  | .bytes bs => .special "$bytes" (.text (Text.Base64.encode bs))
  | .date _ d => .special "$date" (.text d.isoText)
  | .dateTime _ t => .special "$datetime" (.text t.isoText)
  | s => .scalar s

/-- Whether a scalar is a text. -/
def Scalar.isText : Scalar → Bool
  | .text _ => true
  | _ => false

/-- The form of a tree. -/
def Tree.form : Tree → Tree :=
  para {
    scalar := Scalar.form
    list _ items := .array (items.map (·.2))
    map _ entries :=
      if entries.all fun e => e.1.isText then .map none (entries.map fun (k, _, v) => (k, v))
      else .special "$map" (.array (entries.map fun (k, _, v) => .array [k.form, v]))
    set _ members := .special "$set" (.array (members.map Scalar.form))
    pair x y := .array [x.2, y.2]
    back := .back }

namespace Value

/-- The form of a value. -/
def form : Value → Tree :=
  para Scalar.form (fun items => .array (items.map (·.2)))
    (fun entries => .object (entries.map fun (k, _, t) => (k, t)))
    (fun type fields extra => .object ([("$model", .text type.name.text),
      ("fields", .object (fields.map fun (k, _, t) => (k, t)))] ++
      if type.isOpen then [("extra", .object (extra.map fun (k, _, t) => (k, t)))] else []))
    (fun e m => .object [("$enum", .text (e ++ "." ++ m.name)), ("value", m.value.form)])
    (fun n => .special "$other" (.text n))

/-! ## Reading forms -/

/-- Why a form stands for no value. -/
inductive FormFault where
  | failure (f : Failure)
  | mismatch (ms : List Mismatch)
  | malformed

/-- A result, or else a malformed form. -/
def orMalformed {α : Type} : Option α → Except FormFault α
  | some a => .ok a
  | none => .error .malformed

/-- The member of an enumeration by its name. -/
def memberNamed? (m : Models) (enumeration name : String) : Option Value := do
  let t ← m.find? enumeration
  let member ← Member.ofName? t.members name
  return .member enumeration member

/-- The value of a named type that JSON stands for. -/
def recordOf (m : Models) (type : String) (t : Tree) : Except FormFault Value := do
  (m.ensureKnown (.named (some type) false)).mapError FormFault.failure
  (m.conform (ofTree t) .text (.named (some type) false)).mapError FormFault.mismatch

/-- The value of a special form; nothing for an ordinary map. Values of other places go by names. -/
def ofSpecial (m : Models) (others : List (String × Value)) (key : String) (t : Tree) :
    Option (Except FormFault Value) :=
  match key, t with
  | "$bytes", .text s =>
    some (orMalformed ((Text.Base64.decode? s).map fun bs => .scalar (.bytes bs)))
  | "$date", .text s =>
    some (orMalformed ((Calendar.writtenDate s.toUTF8.toList).toOption.map fun d => .scalar (.date none d)))
  | "$datetime", .text s => some (orMalformed
      ((Calendar.readTimeLoosely s.toUTF8.toList).toOption.map fun d => .scalar (.dateTime none d)))
  | "$float", .text s =>
    some (orMalformed ((Decimal.lenientReal? s.toList).map fun x => .scalar (.float x)))
  | "$object", _ => some (.ok (.foreign "object"))
  | "$empty", _ => some (.ok (.record .empty [] []))
  | "$enum", .list _ [.text e, .text n] => some (orMalformed (memberNamed? m e n))
  | "$model", .list _ [.text n, t] => some (recordOf m n t)
  | "$arg", .text n => some (orMalformed (others.lookup n))
  | _, _ => none

/-- Results in a row; the first fault is the one that is reported. -/
def inOrder {α : Type} : List (Except FormFault α) → Except FormFault (List α)
  | [] => .ok []
  | a :: rest => do return (← a) :: (← inOrder rest)

/-- The value that a form stands for. -/
def ofForm (m : Models) (others : List (String × Value)) : Tree → Except FormFault Value :=
  Tree.para {
    scalar s := .ok (.scalar s)
    list _ items := Value.list <$> inOrder (items.map (·.2))
    map _ entries :=
      let plain := Value.map <$>
        inOrder (entries.map fun (k, _, v) => (fun v => (keyText k, v)) <$> v)
      match entries with
      | [(k, t, _)] => (ofSpecial m others (keyText k) t).getD plain
      | _ => plain
    set _ _ := .error .malformed
    pair _ _ := .error .malformed
    back _ _ := .error .malformed }

end Value

end ApiContract
