import ApiContract.Proofs.Compile.Order
import ApiContract.Proofs.Compile.Related
import ApiContract.Proofs.Lists

/-!
# Compiling without remembering

`typeAnew` gives the type expression of a reference as the compiler does, but compiles everything that it
meets anew. What it gives depends on the table and the path alone.

If entries can be told apart by their type names (`Separate`), the compiler gives the same value or fails
with the same error (`remembers_typeOfReference`). What it has remembered is what compiling anew gives on
every path that holds none of it (`Settled`, `Free`), and a path of the compiler holds nothing that has been
remembered, since what is on the path is not done yet.
-/

namespace ApiContract.Compile

variable {α β : Type} {table : Entries}

/-! ## Runs that keep nothing -/

instance : Noting Unit := ⟨fun _ _ => ()⟩

/-- What a run that keeps nothing gives. -/
def value (m : RunOn Unit α) : Except Failure α := (m ()).1

@[simp] theorem value_bind (m : RunOn Unit α) (f : α → RunOn Unit β) :
    value (m >>= f) = value m >>= fun a => value (f a) := by
  unfold value
  rw [bind_eq]
  rcases m () with ⟨_ | a, _⟩ <;> rfl

/-- The number of names that are not in progress. -/
def Path.rest (table : Entries) (path : Path) : Nat :=
  unvisited (typeNames table) path.types + unvisited (names table) path.inlines

/-- The named type of a schema, compiled anew. -/
def namedAnew (table : Entries) (path : List String) (schemaName : String) (schema : Tree)
    (follow : Text.typeIdentifier schemaName ∉ path → String → RunOn Unit TypeExpr) :
    RunOn Unit (Option NamedType) :=
  let name := Text.typeIdentifier schemaName
  if h : name ∈ path then throw (.dependencyCycle (path ++ [name]))
  else schemaType table (typeWith (follow h)) name schemaName schema

/-- The type expression of a reference, compiled anew. -/
def typeAnew (table : Entries) (path : Path) (reference : String) : RunOn Unit TypeExpr := do
  let found ← lift (find table reference)
  let type ← namedAnew table path.types found.name found.schema fun _h r =>
    typeAnew table ⟨path.types ++ [Text.typeIdentifier found.name], path.inlines⟩ r
  if type.isSome then
    let nullable := (found.schema.entries?.map Schema.isNullable).getD false
    return .named (some (Text.typeIdentifier found.name)) nullable
  if _h : found.name ∈ path.inlines then throw (.dependencyCycle (path.inlines ++ [found.name]))
  else
    typeWith (fun r => typeAnew table ⟨path.types, path.inlines ++ [found.name]⟩ r) found.schema
termination_by path.rest table
decreasing_by
  · have := unvisited_append_lt (mem_typeNames found.found) _h
    simp only [Path.rest]
    omega
  · have := unvisited_append_lt (mem_names found.found) _h
    simp only [Path.rest]
    omega

/-- Fewer names are left when the type name of an entry is in progress, too. -/
theorem Found.rest_type_lt (found : Found table) {path : Path} (h : Text.typeIdentifier found.name ∉ path.types) :
    Path.rest table ⟨path.types ++ [Text.typeIdentifier found.name], path.inlines⟩ < path.rest table :=
  Nat.add_lt_add_right (unvisited_append_lt (mem_typeNames found.found) h) _

/-- Fewer names are left when an entry that stands for a type expression is in progress, too. -/
theorem Found.rest_inline_lt (found : Found table) {path : Path} (h : found.name ∉ path.inlines) :
    Path.rest table ⟨path.types, path.inlines ++ [found.name]⟩ < path.rest table :=
  Nat.add_lt_add_left (unvisited_append_lt (mem_names found.found) h) _

/-- The named type of an entry on a path, compiled anew. -/
def entryAnew (table : Entries) (path : Path) (name : String) (schema : Tree) :
    RunOn Unit (Option NamedType) :=
  namedAnew table path.types name schema fun _ r =>
    typeAnew table ⟨path.types ++ [Text.typeIdentifier name], path.inlines⟩ r

/-- The type expression of an entry without a named type on a path, compiled anew. -/
def inlineAnew (table : Entries) (path : Path) (name : String) (schema : Tree) :
    RunOn Unit TypeExpr :=
  typeWith (fun r => typeAnew table ⟨path.types, path.inlines ++ [name]⟩ r) schema

/-- The named type of an entry of which the type name is on no path yet. -/
theorem entryAnew_of_notMem {path : Path} {name : String} {schema : Tree}
    (h : Text.typeIdentifier name ∉ path.types) :
    entryAnew table path name schema = schemaType table
      (typeWith fun r => typeAnew table ⟨path.types ++ [Text.typeIdentifier name], path.inlines⟩ r)
      (Text.typeIdentifier name) name schema := by
  unfold entryAnew namedAnew
  exact dif_neg h

/-- What an entry that a reference leads to stands for: its named type, else its type expression. -/
theorem value_typeAnew {path : Path} {reference : String} {found : Found table}
    (hfind : find table reference = .ok found) :
    value (typeAnew table path reference) = (do
      let type ← value (entryAnew table path found.name found.schema)
      if type.isSome then
        .ok (.named (some (Text.typeIdentifier found.name))
          ((found.schema.entries?.map Schema.isNullable).getD false))
      else if found.name ∈ path.inlines then .error (.dependencyCycle (path.inlines ++ [found.name]))
      else value (inlineAnew table path found.name found.schema)) := by
  rw [typeAnew, hfind, lift_ok_bind, value_bind]
  refine congrArg _ (funext fun type => ?_)
  split
  · rfl
  · split <;> rfl

/-! ## What is remembered -/

/-- An entry of the table that is no reference. -/
structure IsEntry (table : Entries) (name : String) (schema : Tree) : Prop where
  found : table.get? name = some schema
  direct : Reference.ofTree? schema = none

theorem Found.isEntry {reference : String} {found : Found table}
    (h : find table reference = .ok found) : IsEntry table found.name found.schema :=
  ⟨found.found, find_eq_ok h⟩

/-- The entries that are no references can be told apart by their type names. -/
def Separate (table : Entries) : Prop :=
  ∀ n n' schema schema', IsEntry table n schema → IsEntry table n' schema' →
    Text.typeIdentifier n = Text.typeIdentifier n' → n = n'

/-- A path holds nothing that has been remembered. -/
structure Free (s : State) (path : Path) : Prop where
  types : ∀ t ∈ s.types, t.name ∉ path.types
  inlines : ∀ e ∈ s.inlines, e.1 ∉ path.inlines
  identifiers : ∀ e ∈ s.inlines, Text.typeIdentifier e.1 ∉ path.types

/-- A type is the one of an entry. -/
def RemembersType (table : Entries) (s : State) (t : NamedType) : Prop :=
  ∃ n schema, IsEntry table n schema ∧ t.name = Text.typeIdentifier n ∧
    ∀ q, Free s q → value (entryAnew table q n schema) = .ok (some t)

/-- A type expression is the one of an entry without a type. -/
def RemembersInline (table : Entries) (s : State) (e : String × TypeExpr) : Prop :=
  ∃ schema, IsEntry table e.1 schema ∧ ∀ q, Free s q →
    value (entryAnew table q e.1 schema) = .ok none ∧ value (inlineAnew table q e.1 schema) = .ok e.2

/-- What is remembered is what compiling anew gives. -/
structure Settled (table : Entries) (s : State) : Prop where
  types : ∀ t ∈ s.types, RemembersType table s t
  inlines : ∀ e ∈ s.inlines, RemembersInline table s e
  owners : ∀ o ∈ s.owners, ∃ schema, IsEntry table o.2 schema ∧ o.1 = Text.typeIdentifier o.2
  nodup : (s.types.map (·.name)).Nodup

/-- A later state remembers what an earlier one does. -/
structure Later (s s' : State) : Prop where
  types : ∀ t ∈ s.types, t ∈ s'.types
  inlines : ∀ e ∈ s.inlines, e ∈ s'.inlines

variable {s s' s'' : State} {path : Path}

theorem Later.refl (s : State) : Later s s := ⟨fun _ h => h, fun _ h => h⟩

theorem Later.trans (h : Later s s') (h' : Later s' s'') : Later s s'' :=
  ⟨fun t ht => h'.types t (h.types t ht), fun e he => h'.inlines e (h.inlines e he)⟩

theorem Free.of_later (h : Later s s') (hfree : Free s' path) : Free s path :=
  ⟨fun t ht => hfree.types t (h.types t ht), fun e he => hfree.inlines e (h.inlines e he),
    fun e he => hfree.identifiers e (h.inlines e he)⟩

theorem Free.of_snoc {name : String} (h : Free s ⟨path.types ++ [name], path.inlines⟩) : Free s path :=
  ⟨fun t ht hmem => h.types t ht (List.mem_append_left _ hmem), h.inlines,
    fun e he hmem => h.identifiers e he (List.mem_append_left _ hmem)⟩

theorem Free.identifier {n : String} {e : TypeExpr} (h : Free s path) (hmem : (n, e) ∈ s.inlines) :
    Text.typeIdentifier n ∉ path.types :=
  h.identifiers (n, e) hmem

theorem Free.snocInline {name : String} (h : Free s path) (hname : s.inlines.lookup name = none) :
    Free s ⟨path.types, path.inlines ++ [name]⟩ := by
  refine ⟨h.types, fun e he hmem => ?_, h.identifiers⟩
  rcases List.mem_append.1 hmem with hmem | hmem
  · exact h.inlines e he hmem
  · exact ApiContract.lookup_eq_none.1 hname (List.mem_singleton.1 hmem ▸ List.mem_map_of_mem he)

theorem Free.of_snocInline {name : String} (h : Free s ⟨path.types, path.inlines ++ [name]⟩) :
    Free s path :=
  ⟨h.types, fun e he hmem => h.inlines e he (List.mem_append_left _ hmem), h.identifiers⟩

theorem Free.addInline {name : String} {e : TypeExpr} (h : Free s path)
    (htypes : Text.typeIdentifier name ∉ path.types) (hinlines : name ∉ path.inlines) :
    Free { s with inlines := s.inlines ++ [(name, e)] } path := by
  refine ⟨h.types, List.forall_mem_append.2 ⟨h.inlines, ?_⟩, List.forall_mem_append.2 ⟨h.identifiers, ?_⟩⟩
  · rwa [List.forall_mem_singleton]
  · rwa [List.forall_mem_singleton]

theorem Free.pushInline {name : String} {q : Path} (h : Free s ⟨path.types, path.inlines ++ [name]⟩)
    (hq : Free s q) : Free s ⟨q.types, q.inlines ++ [name]⟩ := by
  refine ⟨hq.types, fun e he hmem => ?_, hq.identifiers⟩
  rcases List.mem_append.1 hmem with hmem | hmem
  · exact hq.inlines e he hmem
  · exact h.inlines e he (List.mem_singleton.1 hmem ▸ List.mem_append_right _ List.mem_cons_self)

/-- What can be put on one path can be put on another. -/
theorem Free.push {name : String} {q : Path} (h : Free s ⟨path.types ++ [name], path.inlines⟩)
    (hq : Free s q) : Free s ⟨q.types ++ [name], q.inlines⟩ := by
  have hname : name ∈ path.types ++ [name] := List.mem_append_right _ List.mem_cons_self
  refine ⟨fun t ht hmem => ?_, hq.inlines, fun e he hmem => ?_⟩
  · rcases List.mem_append.1 hmem with hmem | hmem
    · exact hq.types t ht hmem
    · exact h.types t ht (List.mem_singleton.1 hmem ▸ hname)
  · rcases List.mem_append.1 hmem with hmem | hmem
    · exact hq.identifiers e he hmem
    · exact h.identifiers e he (List.mem_singleton.1 hmem ▸ hname)

theorem RemembersType.later {t : NamedType} (h : RemembersType table s t) (hlater : Later s s') :
    RemembersType table s' t := by
  obtain ⟨n, schema, hentry, hname, hanew⟩ := h
  exact ⟨n, schema, hentry, hname, fun q hq => hanew q (.of_later hlater hq)⟩

theorem RemembersInline.later {e : String × TypeExpr} (h : RemembersInline table s e)
    (hlater : Later s s') : RemembersInline table s' e := by
  obtain ⟨schema, hentry, hanew⟩ := h
  exact ⟨schema, hentry, fun q hq => hanew q (.of_later hlater hq)⟩

/-- Nothing is remembered at first. -/
theorem settled_start (table : Entries) : Settled table .start := ⟨nofun, nofun, nofun, List.nodup_nil⟩

/-- Nothing is on the empty path. -/
theorem free_nil (s : State) : Free s ⟨[], []⟩ :=
  ⟨fun _ _ => List.not_mem_nil, fun _ _ => List.not_mem_nil, fun _ _ => List.not_mem_nil⟩

/-! ## Runs that remember -/

/-- A run on a path gives what it gives anew, there and, if it ends well, on every path that holds
nothing of what has then been remembered. -/
structure Faithful (table : Entries) (path : Path) (s : State) (r : Except Failure α) (s' : State)
    (anew : Path → RunOn Unit α) : Prop where
  settled : Settled table s'
  free : Free s' path
  later : Later s s'
  ok : ∀ a, r = .ok a → ∀ q, Free s' q → value (anew q) = .ok a
  error : ∀ f, r = .error f → value (anew path) = .error f

/-- Every run on a path gives what it gives anew. -/
def Remembers (table : Entries) (path : Path) (m : Run α) (anew : Path → RunOn Unit α) : Prop :=
  ∀ s, Settled table s → Free s path → Faithful table path s (m s).1 (m s).2 anew

theorem Faithful.of_value {r : Except Failure α} {anew : Path → RunOn Unit α} (hs : Settled table s)
    (hfree : Free s path) (h : ∀ q, value (anew q) = r) : Faithful table path s r s anew :=
  ⟨hs, hfree, .refl s, fun _ ha q _ => (h q).trans ha, fun _ hf => (h path).trans hf⟩

theorem Faithful.bind {m : Run α} {f : α → Run β} {anew : Path → RunOn Unit α}
    {next : Path → α → RunOn Unit β} (h : Faithful table path s (m s).1 (m s).2 anew)
    (hf : ∀ a, (m s).1 = .ok a →
      Faithful table path (m s).2 (f a (m s).2).1 (f a (m s).2).2 fun q => next q a) :
    Faithful table path s ((m >>= f) s).1 ((m >>= f) s).2 fun q => anew q >>= next q := by
  rw [bind_eq]
  rcases hm : m s with ⟨e | a, s₁⟩
  · rw [hm] at h
    refine ⟨h.settled, h.free, h.later, nofun, fun e' he => ?_⟩
    cases he
    rw [value_bind, h.error e rfl]
    rfl
  · rw [hm] at h hf
    have hrest := hf a rfl
    refine ⟨hrest.settled, hrest.free, h.later.trans hrest.later, fun b hb q hq => ?_,
      fun e he => ?_⟩
    · rw [value_bind, h.ok a rfl q (.of_later hrest.later hq)]
      exact hrest.ok b hb q hq
    · rw [value_bind, h.ok a rfl path h.free]
      exact hrest.error e he

/-- States that remember the same. -/
theorem Settled.of_eq (hs : Settled table s) (htypes : s'.types = s.types)
    (hinlines : s'.inlines = s.inlines) (howners : s'.owners = s.owners) :
    Settled table s' ∧ Later s s' := by
  have hlater : Later s s' := ⟨fun t ht => htypes ▸ ht, fun e he => hinlines ▸ he⟩
  refine ⟨⟨fun t ht => ?_, fun e he => ?_, howners ▸ hs.owners, htypes ▸ hs.nodup⟩, hlater⟩
  · exact (hs.types t (htypes ▸ ht)).later hlater
  · exact (hs.inlines e (hinlines ▸ he)).later hlater

theorem compatible_remembers (path : Path) :
    Compatible (σ := State) (τ := Unit) fun {_} m anew => Remembers table path m anew where
  lift r := fun s hs hfree => .of_value hs hfree fun _ => rfl
  bind hm hf := fun s hs hfree => (hm s hs hfree).bind fun a _ =>
    hf a _ (hm s hs hfree).settled (hm s hs hfree).free
  note notices := by
    intro s hs hfree
    obtain ⟨hsettled, hlater⟩ : Settled table (Noting.note notices s) ∧ Later s (Noting.note notices s) :=
      hs.of_eq rfl rfl rfl
    refine ⟨hsettled, ⟨hfree.types, hfree.inlines, hfree.identifiers⟩, hlater, fun a _ q _ => rfl, ?_⟩
    intro f hf
    cases hf

/-! ## Named types -/

theorem claim_eq (name schemaName : String) (s : State) :
    claim name schemaName s = match s.owners.lookup name with
      | none => (.ok (), { s with owners := s.owners ++ [(name, schemaName)] })
      | some owner =>
        if owner ≠ schemaName then (.error (.typeNameClash owner schemaName name), s)
        else (.ok (), s) := by
  unfold claim
  rw [bind_eq, get_eq]
  dsimp only
  cases s.owners.lookup name with
  | none => rfl
  | some owner =>
    dsimp only
    split <;> rfl

theorem named_of_mem {path : List String} {n : String} {schema : Tree}
    {follow : Text.typeIdentifier n ∉ path → String → Run TypeExpr}
    (h : Text.typeIdentifier n ∈ s.types.map (·.name)) :
    ∃ t, named table path n schema follow s =
      (claim (Text.typeIdentifier n) n >>= fun _ => pure (some t)) s := by
  obtain ⟨t, ht, hname⟩ := List.mem_map.1 h
  have hsome : (s.types.find? (·.name == Text.typeIdentifier n)).isSome = true :=
    List.find?_isSome.2 ⟨t, ht, beq_iff_eq.2 hname⟩
  obtain ⟨t, ht⟩ := Option.isSome_iff_exists.1 hsome
  refine ⟨t, ?_⟩
  unfold named
  rw [bind_eq, get_eq]
  simp only [ht]

theorem named_of_nameless {n : String} {schema : Tree}
    {follow : Text.typeIdentifier n ∉ [] → String → Run TypeExpr}
    (h : Text.typeIdentifier n ∉ s.types.map (·.name)) (hnameless : Nameless table schema) :
    named table [] n schema follow s = (.ok none, s) := by
  have hnone : s.types.find? (·.name == Text.typeIdentifier n) = none := by
    refine List.find?_eq_none.2 fun t ht hname => h ?_
    exact List.mem_map.2 ⟨t, ht, beq_iff_eq.1 hname⟩
  unfold named
  rw [bind_eq, get_eq]
  simp only [hnone]
  split
  · rfl
  · rw [dif_neg List.not_mem_nil, bind_eq, hnameless]
    rfl

/-- An entry can be made the owner of its type name. -/
theorem claim_run_of_separate {n : String} {schema : Tree} (hsep : Separate table)
    (hs : Settled table s) (hentry : IsEntry table n schema) :
    ∃ s', claim (Text.typeIdentifier n) n s = (.ok (), s') ∧ Settled table s' ∧ Later s s' ∧
      s'.types = s.types ∧ s'.inlines = s.inlines := by
  rw [claim_eq]
  cases howner : s.owners.lookup (Text.typeIdentifier n) with
  | none =>
    have hlater : Later s { s with owners := s.owners ++ [(Text.typeIdentifier n, n)] } :=
      ⟨fun _ ht => ht, fun _ he => he⟩
    refine ⟨_, rfl, ⟨fun t ht => (hs.types t ht).later hlater, fun e he => (hs.inlines e he).later hlater,
      List.forall_mem_append.2 ⟨hs.owners, ?_⟩, hs.nodup⟩, hlater, rfl, rfl⟩
    rw [List.forall_mem_singleton]
    exact ⟨schema, hentry, rfl⟩
  | some owner =>
    obtain ⟨schema', hentry', hname⟩ := hs.owners _ (mem_of_lookup howner)
    have howns : owner = n := (hsep _ _ _ _ hentry hentry' hname).symm
    refine ⟨s, ?_, hs, .refl s, rfl, rfl⟩
    dsimp only
    rw [if_neg (not_not.2 howns)]

section

variable {σ : Type} {typeOf : Tree → RunOn σ TypeExpr} {name schemaName : String}
  {schema : Entries} {t : NamedType} {x x' : σ}

theorem name_of_record {objects : List Entries}
    (h : record table typeOf name schemaName schema objects x = (.ok t, x')) : t.name = name := by
  obtain ⟨_, _, _, h⟩ := bind_eq_ok.1 h
  obtain ⟨_, _, _, h⟩ := bind_eq_ok.1 h
  obtain ⟨rfl, -⟩ := pure_eq_ok.1 h
  rfl

theorem name_of_untaggedUnion [Noting σ]
    (h : untaggedUnion table typeOf name schemaName schema x = (.ok t, x')) : t.name = name := by
  obtain ⟨_, _, _, h⟩ := bind_eq_ok.1 h
  obtain ⟨_, _, _, h⟩ := bind_eq_ok.1 h
  obtain ⟨_, _, _, h⟩ := bind_eq_ok.1 h
  obtain ⟨_, _, _, h⟩ := bind_eq_ok.1 h
  obtain ⟨rfl, -⟩ := pure_eq_ok.1 h
  rfl

theorem name_of_taggedUnion {discriminator : Entries}
    (h : taggedUnion table typeOf name schemaName schema discriminator x = (.ok t, x')) :
    t.name = name := by
  unfold taggedUnion at h
  dsimp only at h
  split at h
  · cases h
  · obtain ⟨_, _, _, h⟩ := bind_eq_ok.1 h
    obtain ⟨_, _, _, h⟩ := bind_eq_ok.1 h
    obtain ⟨_, _, _, h⟩ := bind_eq_ok.1 h
    obtain ⟨_, _, _, h⟩ := bind_eq_ok.1 h
    obtain ⟨texts, _, _, h⟩ := bind_eq_ok.1 h
    split at h
    · obtain ⟨rfl, -⟩ := pure_eq_ok.1 h
      rfl
    · cases h

/-- A named type has the name that it is compiled for. -/
theorem name_of_schemaType [Noting σ] {tree : Tree}
    (h : schemaType table typeOf name schemaName tree x = (.ok (some t), x')) : t.name = name := by
  obtain ⟨schema, m, -, hmakes, h⟩ := makes_of_schemaType h
  cases hmakes with
  | object | composition => exact name_of_record h
  | tagged => exact name_of_taggedUnion h
  | untagged => exact name_of_untaggedUnion h
  | enumeration _ _ henumeration =>
    obtain ⟨rfl, -⟩ := pure_eq_ok.1 h
    exact ((enumeration_eq_ok henumeration).2 _ rfl).2

end

theorem remembers_schemaType {follow : String → Run TypeExpr} {name schemaName : String} {tree : Tree}
    (hf : ∀ r, Remembers table path (follow r) fun q => typeAnew table q r) :
    Remembers table path (schemaType table (typeWith follow) name schemaName tree) fun q =>
      schemaType table (typeWith (typeAnew table q)) name schemaName tree :=
  (compatible_remembers path).schemaType fun t => (compatible_remembers path).typeWith hf t

theorem remembers_typeWith {follow : String → Run TypeExpr}
    (hf : ∀ r, Remembers table path (follow r) fun q => typeAnew table q r) (t : Tree) :
    Remembers table path (typeWith follow t) fun q => typeWith (typeAnew table q) t :=
  (compatible_remembers path).typeWith hf t

/-- What compiling the schema of a name has done. That there is no type holds on all paths without the
name. -/
structure NamedRun (table : Entries) (path : Path) (s : State) (name : String) (schema : Tree)
    (r : Except Failure (Option NamedType)) (s' : State) : Prop where
  settled : Settled table s'
  free : Free s' path
  later : Later s s'
  anew : ∀ o, r = .ok o → ∀ q, Free s' q → Text.typeIdentifier name ∉ q.types →
    value (entryAnew table q name schema) = .ok o
  notMem : ∀ o, r = .ok o → Text.typeIdentifier name ∉ path.types
  mem : ∀ t, r = .ok (some t) → t ∈ s'.types ∧ t.name = Text.typeIdentifier name
  error : ∀ f, r = .error f → value (entryAnew table path name schema) = .error f

/-- A type is remembered once it is made: it is new, and its name is not on the path. -/
theorem Settled.addType {n : String} {schema : Tree} {t : NamedType} (hs : Settled table s)
    (hentry : IsEntry table n schema) (hname : t.name = Text.typeIdentifier n)
    (hnew : ∀ u ∈ s.types, u.name ≠ Text.typeIdentifier n)
    (hanew : ∀ q, Free s q → Text.typeIdentifier n ∉ q.types →
      value (entryAnew table q n schema) = .ok (some t)) :
    Settled table { s with types := s.types ++ [t] } ∧ Later s { s with types := s.types ++ [t] } := by
  have hlater : Later s { s with types := s.types ++ [t] } :=
    ⟨fun u hu => List.mem_append_left _ hu, fun _ he => he⟩
  refine ⟨⟨List.forall_mem_append.2 ⟨fun u hu => (hs.types u hu).later hlater, ?_⟩,
    fun e he => (hs.inlines e he).later hlater, hs.owners, ?_⟩, hlater⟩
  · rw [List.forall_mem_singleton]
    refine ⟨n, schema, hentry, hname, fun q hq => hanew q (.of_later hlater hq) ?_⟩
    exact hname ▸ hq.types t (List.mem_append_right _ List.mem_cons_self)
  · rw [List.map_append, List.map_singleton]
    refine hs.nodup.append (List.nodup_singleton _) (List.disjoint_singleton.2 fun hmem => ?_)
    obtain ⟨u, hu, hu'⟩ := List.mem_map.1 hmem
    exact hnew u hu (hu'.trans hname)

/-- A type expression is remembered once it is made. -/
theorem Settled.addInline {n : String} {schema : Tree} {e : TypeExpr} (hs : Settled table s)
    (hentry : IsEntry table n schema)
    (hanew : ∀ q, Free s q → Text.typeIdentifier n ∉ q.types →
      value (entryAnew table q n schema) = .ok none ∧ value (inlineAnew table q n schema) = .ok e) :
    Settled table { s with inlines := s.inlines ++ [(n, e)] } ∧
      Later s { s with inlines := s.inlines ++ [(n, e)] } := by
  have hlater : Later s { s with inlines := s.inlines ++ [(n, e)] } :=
    ⟨fun _ ht => ht, fun e he => List.mem_append_left _ he⟩
  refine ⟨⟨fun u hu => (hs.types u hu).later hlater,
    List.forall_mem_append.2 ⟨fun e he => (hs.inlines e he).later hlater, ?_⟩, hs.owners, hs.nodup⟩, hlater⟩
  rw [List.forall_mem_singleton]
  have hlast : (n, e) ∈ ({ s with inlines := s.inlines ++ [(n, e)] } : State).inlines :=
    List.mem_append_right _ List.mem_cons_self
  exact ⟨schema, hentry, fun q hq => hanew q (.of_later hlater hq) (hq.identifier hlast)⟩

section

variable (hsep : Separate table)
include hsep

/-- Within the compilation of an entry that has not been met its type name is on the path. -/
theorem Free.snoc {n : String} {schema : Tree} (hs : Settled table s) (hfree : Free s path)
    (hentry : IsEntry table n schema) (hnew : ∀ u ∈ s.types, u.name ≠ Text.typeIdentifier n)
    (hinline : s.inlines.lookup n = none) :
    Free s ⟨path.types ++ [Text.typeIdentifier n], path.inlines⟩ := by
  refine ⟨fun t ht hmem => ?_, hfree.inlines, fun e he hmem => ?_⟩
  · rcases List.mem_append.1 hmem with hmem | hmem
    · exact hfree.types t ht hmem
    · exact hnew t ht (List.mem_singleton.1 hmem)
  · rcases List.mem_append.1 hmem with hmem | hmem
    · exact hfree.identifiers e he hmem
    · obtain ⟨schema', hentry', -⟩ := hs.inlines e he
      have heq : e.1 = n := hsep _ _ _ _ hentry' hentry (List.mem_singleton.1 hmem)
      exact ApiContract.lookup_eq_none.1 hinline (heq ▸ List.mem_map_of_mem he)

/-- What compiling a schema that has not been met has done, once its type is remembered. -/
theorem namedRun_of_made {n : String} {schema : Tree} {x : Run (Option NamedType)}
    {r : Except Failure (Option NamedType)}
    (hx : Faithful table ⟨path.types ++ [Text.typeIdentifier n], path.inlines⟩ s (x s).1 (x s).2
      fun q => schemaType table (typeWith (typeAnew table q)) (Text.typeIdentifier n) n schema)
    (hname : ∀ t s', x s = (.ok (some t), s') → t.name = Text.typeIdentifier n)
    (hentry : IsEntry table n schema) (hpath : Text.typeIdentifier n ∉ path.types)
    (h : (x >>= fun made => match made with
      | none => pure none
      | some type => do
        claim (Text.typeIdentifier n) n
        modify fun s => { s with types := s.types ++ [type] }
        return some type) s = (r, s')) :
    NamedRun table path s n schema r s' := by
  rw [bind_eq] at h
  rcases hrun : x s with ⟨made, s₁⟩
  rw [hrun] at h hx
  have hpop : Free s₁ path := hx.free.of_snoc
  have hanew : ∀ o, made = .ok o → ∀ q, Free s₁ q → Text.typeIdentifier n ∉ q.types →
      value (entryAnew table q n schema) = .ok o := by
    intro o ho q hq hnot
    rw [entryAnew_of_notMem hnot]
    exact hx.ok o ho _ (hx.free.push hq)
  rcases made with f | _ | t
  · cases h
    refine ⟨hx.settled, hpop, hx.later, nofun, nofun, nofun, fun f' hf' => ?_⟩
    rw [entryAnew_of_notMem hpath]
    exact hx.error f' hf'
  · cases h
    refine ⟨hx.settled, hpop, hx.later, fun o ho => ?_, fun _ _ => hpath, nofun, nofun⟩
    cases ho
    exact hanew none rfl
  · have htype : t.name = Text.typeIdentifier n := hname t s₁ hrun
    obtain ⟨s₂, hclaim, hsettled, hlater, htypes, hinlines⟩ :=
      claim_run_of_separate hsep hx.settled hentry
    dsimp only at h
    rw [bind_eq, hclaim] at h
    cases h
    have hnew : ∀ u ∈ s₂.types, u.name ≠ Text.typeIdentifier n := by
      intro u hu heq
      rw [htypes] at hu
      exact hx.free.types u hu (heq ▸ List.mem_append_right _ List.mem_cons_self)
    have hanew₂ : ∀ q, Free s₂ q → Text.typeIdentifier n ∉ q.types →
        value (entryAnew table q n schema) = .ok (some t) :=
      fun q hq => hanew _ rfl q (.of_later hlater hq)
    obtain ⟨hsettled', hlater'⟩ := hsettled.addType hentry htype hnew hanew₂
    have hfree : Free { s₂ with types := s₂.types ++ [t] } path := by
      refine ⟨List.forall_mem_append.2 ⟨htypes ▸ hpop.types, ?_⟩, hinlines ▸ hpop.inlines,
        hinlines ▸ hpop.identifiers⟩
      rw [List.forall_mem_singleton, htype]
      exact hpath
    refine ⟨hsettled', hfree, (hx.later.trans hlater).trans hlater', fun o ho q hq => ?_,
      fun _ _ => hpath, fun u hu => ?_, nofun⟩
    · cases ho
      exact hanew₂ q (.of_later hlater' hq)
    · cases hu
      exact ⟨List.mem_append_right _ List.mem_cons_self, htype⟩

/-- Compiling the schema of a name gives what it gives anew. -/
theorem namedRun_named {n : String} {schema : Tree} {r : Except Failure (Option NamedType)}
    {follow : Text.typeIdentifier n ∉ path.types → String → Run TypeExpr}
    (hf : ∀ h r, Remembers table ⟨path.types ++ [Text.typeIdentifier n], path.inlines⟩ (follow h r)
      fun q => typeAnew table q r)
    (hs : Settled table s) (hfree : Free s path) (hentry : IsEntry table n schema)
    (h : named table path.types n schema follow s = (r, s')) :
    NamedRun table path s n schema r s' := by
  unfold named at h
  rw [bind_eq, get_eq] at h
  dsimp only at h
  cases hfind : s.types.find? (·.name == Text.typeIdentifier n) with
  | some t =>
    have hmem := List.mem_of_find?_eq_some hfind
    have hname : t.name = Text.typeIdentifier n := by simpa using List.find?_some hfind
    obtain ⟨s₁, hclaim, hsettled, hlater, htypes, hinlines⟩ := claim_run_of_separate hsep hs hentry
    rw [hfind] at h
    dsimp only at h
    rw [bind_eq, hclaim] at h
    cases h
    refine ⟨hsettled, ⟨htypes ▸ hfree.types, hinlines ▸ hfree.inlines, hinlines ▸ hfree.identifiers⟩,
      hlater, fun o ho q hq _ => ?_, fun _ _ => hname ▸ hfree.types t hmem, fun u hu => ?_, nofun⟩
    · cases ho
      obtain ⟨n', schema', hentry', hname', hanew⟩ := hsettled.types t (htypes ▸ hmem)
      cases hsep _ _ _ _ hentry hentry' (hname.symm.trans hname')
      cases hentry.found.symm.trans hentry'.found
      exact hanew q hq
    · cases hu
      exact ⟨htypes ▸ hmem, hname⟩
  | none =>
    have hnew : ∀ u ∈ s.types, u.name ≠ Text.typeIdentifier n := fun u hu => by
      simpa using List.find?_eq_none.1 hfind u hu
    rw [hfind] at h
    dsimp only at h
    split at h
    · rename_i hinline
      cases h
      obtain ⟨e, he⟩ := Option.isSome_iff_exists.1 hinline
      have hmem := mem_of_lookup he
      refine ⟨hs, hfree, .refl s, fun o ho q hq _ => ?_, fun _ _ => hfree.identifier hmem, nofun,
        nofun⟩
      cases ho
      obtain ⟨schema', hentry', hanew⟩ := hs.inlines (n, e) hmem
      cases hentry.found.symm.trans hentry'.found
      exact (hanew q hq).1
    · split at h
      · rename_i hpath
        cases h
        refine ⟨hs, hfree, .refl s, nofun, nofun, nofun, fun f hf => ?_⟩
        cases hf
        unfold entryAnew namedAnew
        rw [dif_pos hpath]
        rfl
      · rename_i hinline hpath
        have hfree' : Free s ⟨path.types ++ [Text.typeIdentifier n], path.inlines⟩ :=
          .snoc hsep hs hfree hentry hnew (Option.not_isSome_iff_eq_none.1 hinline)
        exact namedRun_of_made hsep (remembers_schemaType (hf hpath) s hs hfree')
          (fun _ _ hrun => name_of_schemaType hrun) hentry hpath h

/-- The type expression of a reference is what it is anew. -/
theorem remembers_typeOfReference (path : Path) (reference : String) :
    Remembers table path (typeOfReference table path reference) fun q => typeAnew table q reference := by
  intro s hs hfree
  cases hfind : find table reference with
  | error f =>
    have hrun : typeOfReference table path reference s = (.error f, s) := by
      rw [typeOfReference, hfind]
      rfl
    rw [hrun]
    refine .of_value hs hfree fun q => ?_
    rw [typeAnew, hfind]
    rfl
  | ok found =>
    have hentry := Found.isEntry hfind
    rw [typeOfReference, hfind, lift_ok_bind, bind_eq]
    rcases hnamed : named table path.types found.name found.schema (fun _h r =>
      typeOfReference table ⟨path.types ++ [Text.typeIdentifier found.name], path.inlines⟩ r) s with ⟨o, s₁⟩
    have hrun := namedRun_named hsep (fun _ r => remembers_typeOfReference
      ⟨path.types ++ [Text.typeIdentifier found.name], path.inlines⟩ r) hs hfree hentry hnamed
    cases o with
    | error f =>
      refine ⟨hrun.settled, hrun.free, hrun.later, (fun _ h => by cases h), fun f' hf' => ?_⟩
      rw [value_typeAnew hfind, hrun.error f rfl]
      cases hf'
      rfl
    | ok o =>
      cases o with
      | some t =>
        obtain ⟨hmem, hname⟩ := hrun.mem t rfl
        refine ⟨hrun.settled, hrun.free, hrun.later, fun e he q hq => ?_, fun _ h => by cases h⟩
        have hnot : Text.typeIdentifier found.name ∉ q.types := hname ▸ hq.types t hmem
        rw [value_typeAnew hfind, hrun.anew _ rfl q hq hnot]
        cases he
        rfl
      | none =>
        dsimp only
        rw [if_neg (by simp), bind_eq, get_eq]
        dsimp only
        cases hlookup : s₁.inlines.lookup found.name with
        | some e =>
          have hmem := mem_of_lookup hlookup
          refine ⟨hrun.settled, hrun.free, hrun.later, fun e' he q hq => ?_, fun _ h => by cases h⟩
          obtain ⟨schema', hentry', hanew⟩ := hrun.settled.inlines (found.name, e) hmem
          cases hentry.found.symm.trans hentry'.found
          have hnot : found.name ∉ q.inlines := hq.inlines (found.name, e) hmem
          rw [value_typeAnew hfind, (hanew q hq).1, (hanew q hq).2]
          cases he
          exact if_neg hnot
        | none =>
          dsimp only
          split
          · rename_i hpath
            refine ⟨hrun.settled, hrun.free, hrun.later, (fun _ h => by cases h), fun f' hf' => ?_⟩
            rw [value_typeAnew hfind, hrun.anew _ rfl path hrun.free (hrun.notMem _ rfl)]
            cases hf'
            exact if_pos hpath
          · rename_i hpath
            have hfree' : Free s₁ ⟨path.types, path.inlines ++ [found.name]⟩ :=
              hrun.free.snocInline hlookup
            have hmade := remembers_typeWith (fun r => remembers_typeOfReference
              ⟨path.types, path.inlines ++ [found.name]⟩ r) found.schema s₁ hrun.settled hfree'
            rw [bind_eq]
            rcases htype : typeWith (fun r =>
              typeOfReference table ⟨path.types, path.inlines ++ [found.name]⟩ r) found.schema s₁
              with ⟨e, s₂⟩
            rw [htype] at hmade
            have hpop : Free s₂ path := hmade.free.of_snocInline
            cases e with
            | error f =>
              refine ⟨hmade.settled, hpop, hrun.later.trans hmade.later, (fun _ h => by cases h),
                fun f' hf' => ?_⟩
              rw [value_typeAnew hfind, hrun.anew _ rfl path hrun.free (hrun.notMem _ rfl)]
              cases hf'
              exact (if_neg hpath).trans (hmade.error f rfl)
            | ok e =>
              have hanew : ∀ q, Free s₂ q → Text.typeIdentifier found.name ∉ q.types →
                  value (entryAnew table q found.name found.schema) = .ok none ∧
                    value (inlineAnew table q found.name found.schema) = .ok e := fun q hq hnot =>
                ⟨hrun.anew _ rfl q (.of_later hmade.later hq) hnot,
                  hmade.ok e rfl _ (hmade.free.pushInline hq)⟩
              obtain ⟨hsettled, hlater⟩ := hmade.settled.addInline hentry hanew
              have hnot : Text.typeIdentifier found.name ∉ path.types := hrun.notMem _ rfl
              refine ⟨hsettled, hpop.addInline hnot hpath, (hrun.later.trans hmade.later).trans hlater,
                fun e' he q hq => ?_, fun _ h => by cases h⟩
              have hlast : (found.name, e) ∈ s₂.inlines ++ [(found.name, e)] :=
                List.mem_append_right _ List.mem_cons_self
              obtain ⟨hnone, hexpression⟩ := hanew q (.of_later hlater hq) (hq.identifier hlast)
              rw [value_typeAnew hfind, hnone, hexpression]
              cases he
              exact if_neg (hq.inlines (found.name, e) hlast)
termination_by path.rest table
decreasing_by
  · exact found.rest_type_lt ‹_›
  · exact found.rest_inline_lt ‹_›

end

end ApiContract.Compile
