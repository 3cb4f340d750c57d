import ApiContract.Proofs.Compile.Anew

/-!
# Sessions

In a `Session` what is in progress stands in two lists beside the state: a name is put at the end of its
list before its schema is compiled and taken off when that is over, however it ends. References are
followed to a depth, below which an arbitrary step takes over.

A session does what the compiler does with the lists as its path, and leaves them as they were
(`Mirrors`), as soon as the depth is above the number of names that are not in progress
(`mirrors_typeOfReference`). So the step that would take over is never reached.
-/

namespace ApiContract.Compile

variable {α β : Type} {table : Entries}

/-- The compiler's state together with what is in progress. -/
structure Session where
  state : State
  progress : Path

instance : Noting Session := ⟨fun notices s => { s with state := Noting.note notices s.state }⟩

namespace Session

/-- Nothing compiled, and nothing in progress. -/
def start : Session := ⟨.start, ⟨[], []⟩⟩

/-- A step of the compiler that has nothing to do with what is in progress. -/
def step (m : Run α) : RunOn Session α := fun s =>
  let (r, state) := m s.state
  (r, { s with state := state })

/-- A step with one more type name in progress. -/
def duringType (name : String) (m : RunOn Session α) : RunOn Session α := fun s =>
  let (r, s') := m ⟨s.state, ⟨s.progress.types ++ [name], s.progress.inlines⟩⟩
  (r, ⟨s'.state, ⟨s'.progress.types.dropLast, s'.progress.inlines⟩⟩)

/-- A step with one more schema in progress that stands for a type expression. -/
def duringInline (name : String) (m : RunOn Session α) : RunOn Session α := fun s =>
  let (r, s') := m ⟨s.state, ⟨s.progress.types, s.progress.inlines ++ [name]⟩⟩
  (r, ⟨s'.state, ⟨s'.progress.types, s'.progress.inlines.dropLast⟩⟩)

/-- Compiles the schema of a name, unless that has been done. -/
def named (table : Entries) (follow : String → RunOn Session TypeExpr) (schemaName : String)
    (schema : Tree) : RunOn Session (Option NamedType) := do
  let name := Text.typeIdentifier schemaName
  let s ← get
  if let some type := s.state.types.find? (·.name == name) then
    step (claim name schemaName)
    return some type
  if (s.state.inlines.lookup schemaName).isSome then return none
  if name ∈ s.progress.types then throw (.dependencyCycle (s.progress.types ++ [name]))
  else
    match ← duringType name (schemaType table (typeWith follow) name schemaName schema) with
    | none => return none
    | some type =>
      step (claim name schemaName)
      step (modify fun s => { s with types := s.types ++ [type] })
      return some type

/-- The type expression of a reference, with references followed to a depth. -/
def typeOfReference (table : Entries) (cut : RunOn Session TypeExpr) :
    Nat → String → RunOn Session TypeExpr
  | 0, _ => cut
  | depth + 1, reference => do
    let found ← lift (find table reference)
    let type ← named table (typeOfReference table cut depth) found.name found.schema
    if type.isSome then
      let nullable := (found.schema.entries?.map Schema.isNullable).getD false
      return .named (some (Text.typeIdentifier found.name)) nullable
    let s ← get
    if let some type := s.state.inlines.lookup found.name then return type
    if found.name ∈ s.progress.inlines then
      throw (.dependencyCycle (s.progress.inlines ++ [found.name]))
    else
      let type ← duringInline found.name
        (typeWith (typeOfReference table cut depth) found.schema)
      step (modify fun s => { s with inlines := s.inlines ++ [(found.name, type)] })
      return type

/-- Compiles every entry that is no reference, in order. -/
def entries (table : Entries) (follow : String → RunOn Session TypeExpr) :
    Entries → RunOn Session Unit
  | [] => return ()
  | (key, schema) :: rest => do
    if !Reference.isReference schema then
      let .text name := key | throw .malformed
      let _ ← named table follow name schema
    entries table follow rest

/-- Compiles the whole table. -/
def all (table : Entries) (follow : String → RunOn Session TypeExpr) :
    RunOn Session (List NamedType) := do
  entries table follow table
  return (← get).state.types

end Session

/-! ## Mirrored runs -/

/-- A session on a path does what the compiler does and leaves the path. -/
def Mirrors (path : Path) (m : RunOn Session α) (d : Run α) : Prop :=
  ∀ s, m ⟨s, path⟩ = ((d s).1, ⟨(d s).2, path⟩)

variable {path : Path}

theorem mirrors_lift (r : Except Failure α) : Mirrors path (lift r) (lift r) := fun _ => rfl

theorem mirrors_pure (a : α) : Mirrors path (pure a) (pure a) := fun _ => rfl

theorem mirrors_throw (f : Failure) : Mirrors path (throw f : RunOn Session α) (throw f) := fun _ => rfl

theorem mirrors_step (m : Run α) : Mirrors path (Session.step m) m := fun _ => rfl

theorem Mirrors.bind {m : RunOn Session α} {d : Run α} {f : α → RunOn Session β} {g : α → Run β}
    (h : Mirrors path m d) (hf : ∀ a, Mirrors path (f a) (g a)) :
    Mirrors path (m >>= f) (d >>= g) := by
  intro s
  rw [bind_eq, bind_eq, h s]
  rcases d s with ⟨_ | a, s'⟩
  · rfl
  · exact hf a s'

theorem Mirrors.map {m : RunOn Session α} {d : Run α} (f : α → β) (h : Mirrors path m d) :
    Mirrors path (f <$> m) (f <$> d) := by
  rw [map_eq_pure_bind, map_eq_pure_bind]
  exact h.bind fun a => mirrors_pure (f a)

/-- The state is read alike. -/
theorem Mirrors.get_bind {f : Session → RunOn Session β} {g : State → Run β}
    (hf : ∀ s, Mirrors path (f ⟨s, path⟩) (g s)) : Mirrors path (get >>= f) (get >>= g) := by
  intro s
  rw [bind_eq, bind_eq]
  exact hf s s

theorem compatible_mirrors (path : Path) :
    Compatible (σ := Session) (τ := State) (ι := Unit) fun {_} m d => Mirrors path m (d ()) where
  lift := mirrors_lift
  bind h hf := h.bind hf
  note _ := fun _ => rfl

theorem mirrors_typeWith {follow : String → RunOn Session TypeExpr} {followed : String → Run TypeExpr}
    (h : ∀ r, Mirrors path (follow r) (followed r)) (t : Tree) :
    Mirrors path (typeWith follow t) (typeWith followed t) :=
  @Compatible.typeWith _ _ _ _ _ _ (compatible_mirrors path) follow (fun _ => followed) h t

theorem mirrors_schemaType {follow : String → RunOn Session TypeExpr}
    {followed : String → Run TypeExpr} {name schemaName : String} {tree : Tree}
    (h : ∀ r, Mirrors path (follow r) (followed r)) :
    Mirrors path (schemaType table (typeWith follow) name schemaName tree)
      (schemaType table (typeWith followed) name schemaName tree) :=
  @Compatible.schemaType _ _ _ _ _ _ (compatible_mirrors path) (typeWith follow)
    (fun _ => typeWith followed) table (mirrors_typeWith h) name schemaName tree

theorem mirrors_duringType {name : String} {m : RunOn Session α} {d : Run α}
    (h : Mirrors ⟨path.types ++ [name], path.inlines⟩ m d) :
    Mirrors path (Session.duringType name m) d := by
  intro s
  unfold Session.duringType
  rw [h s]
  dsimp only
  rw [List.dropLast_concat]

theorem mirrors_duringInline {name : String} {m : RunOn Session α} {d : Run α}
    (h : Mirrors ⟨path.types, path.inlines ++ [name]⟩ m d) :
    Mirrors path (Session.duringInline name m) d := by
  intro s
  unfold Session.duringInline
  rw [h s]
  dsimp only
  rw [List.dropLast_concat]

/-! ## Following references -/

theorem mirrors_named {name : String} {schema : Tree} {follow : String → RunOn Session TypeExpr}
    {followed : Text.typeIdentifier name ∉ path.types → String → Run TypeExpr}
    (h : ∀ hn r, Mirrors ⟨path.types ++ [Text.typeIdentifier name], path.inlines⟩ (follow r)
      (followed hn r)) :
    Mirrors path (Session.named table follow name schema)
      (named table path.types name schema followed) := by
  refine Mirrors.get_bind fun s => ?_
  dsimp only
  cases s.types.find? (·.name == Text.typeIdentifier name) with
  | some type => exact (mirrors_step _).bind fun _ => mirrors_pure _
  | none =>
    dsimp only
    split
    · exact mirrors_pure _
    · split
      · exact mirrors_throw _
      · rename_i hpath
        refine (mirrors_duringType (mirrors_schemaType (h hpath))).bind fun made => ?_
        cases made with
        | none => exact mirrors_pure _
        | some type =>
          exact (mirrors_step _).bind fun _ => (mirrors_step _).bind fun _ => mirrors_pure _

/-- To a depth above the number of names that are not in progress, references are followed as the
compiler does. -/
theorem mirrors_typeOfReference (cut : RunOn Session TypeExpr) {depth : Nat} {path : Path}
    (hdepth : path.rest table < depth) (reference : String) :
    Mirrors path (Session.typeOfReference table cut depth reference)
      (typeOfReference table path reference) := by
  induction depth generalizing path reference with
  | zero => omega
  | succ depth ih =>
    rw [typeOfReference]
    refine (mirrors_lift _).bind fun found => ?_
    refine (mirrors_named fun hn r => ih ?_ r).bind fun type => ?_
    · have := found.rest_type_lt hn
      omega
    · split
      · exact mirrors_pure _
      · refine Mirrors.get_bind fun s => ?_
        cases s.inlines.lookup found.name with
        | some type => exact mirrors_pure _
        | none =>
          dsimp only
          split
          · exact mirrors_throw _
          · rename_i hn
            refine (mirrors_duringInline (mirrors_typeWith (fun r => ih ?_ r) _)).bind fun type =>
              (mirrors_step _).bind fun _ => mirrors_pure _
            have := found.rest_inline_lt hn
            omega

/-! ## The table -/

theorem Path.rest_le (table : Entries) (path : Path) : path.rest table ≤ 2 * (names table).length := by
  have htypes : unvisited (typeNames table) path.types ≤ (typeNames table).length :=
    List.countP_le_length
  have hinlines : unvisited (names table) path.inlines ≤ (names table).length := List.countP_le_length
  rw [typeNames, List.length_map] at htypes
  unfold Path.rest
  rw [typeNames]
  omega

section

variable {cut : RunOn Session TypeExpr} {depth : Nat} (hdepth : 2 * (names table).length < depth)
include hdepth

/-- Twice the number of names is enough on every path. -/
theorem mirrors_follow (path : Path) (reference : String) :
    Mirrors path (Session.typeOfReference table cut depth reference)
      (typeOfReference table path reference) :=
  mirrors_typeOfReference cut ((path.rest_le table).trans_lt hdepth) reference

theorem mirrors_entry (name : String) (schema : Tree) :
    Mirrors ⟨[], []⟩ (Session.named table (Session.typeOfReference table cut depth) name schema)
      (entry table name schema) :=
  mirrors_named fun _ r => mirrors_follow hdepth ⟨[Text.typeIdentifier name], []⟩ r

theorem mirrors_entries : ∀ es : Entries,
    Mirrors ⟨[], []⟩ (Session.entries table (Session.typeOfReference table cut depth) es)
      (entries table es)
  | [] => mirrors_pure ()
  | (key, schema) :: es => by
    rw [Session.entries.eq_def, entries.eq_def]
    dsimp only
    split
    · cases key with
      | text name => exact (mirrors_entry hdepth name schema).bind fun _ => mirrors_entries es
      | _ => exact mirrors_throw _
    · exact mirrors_entries es

theorem mirrors_all :
    Mirrors ⟨[], []⟩ (Session.all table (Session.typeOfReference table cut depth)) (all table) :=
  (mirrors_entries hdepth table).bind fun _ => .get_bind fun _ => mirrors_pure _

end

end ApiContract.Compile
