import ApiContract.Proofs.Compile.History
import ApiContract.Proofs.Compile.Reading

/-!
# Where types and failures come from

Whatever a compiler has been asked, and whether or not that failed, each of its types came from a schema that
it was asked to compile under a name, which owns the type's, and each type expression that it remembers from
the schema of an entry (`traced_after`). That holds of every table, also of one where entries share a type
name. The entries that a table holds count as asked for; `traced_direct` is about calls that ask for no other
schemas.

* `traces_typeOfReference`, `Call.traces`: what a run remembers is traced, and what it fails with is accounted
  for (`Failure.Accounted`): a clash of type names is about two names of that type name, and a conflict of
  properties is about none of the types on the path.
-/

namespace ApiContract

/-- What is known of a failure while the types of a path are being compiled. -/
def Failure.Accounted (asked : String → Tree → Prop) (path : List String) : Failure → Prop
  | .typeNameClash owner name type => owner ≠ name ∧ Text.typeIdentifier owner = type ∧
      Text.typeIdentifier name = type ∧ (∃ t, asked owner t) ∧ ∃ t, asked name t
  | .propertyConflict _ owner => owner ∉ path
  | _ => True

variable {asked : String → Tree → Prop} {path : List String}

theorem Failure.Accounted.of_reading {f : Failure} (h : f.isLocal = true ∨ f.isInlineSchema = true) :
    f.Accounted asked path := by
  cases f with
  | typeNameClash | propertyConflict => rcases h with h | h <;> cases h
  | _ => trivial

theorem Failure.Accounted.weaken {more : List String} {f : Failure}
    (h : f.Accounted asked (path ++ more)) : f.Accounted asked path := by
  cases f with
  | propertyConflict => exact fun hmem => h (List.mem_append_left _ hmem)
  | _ => exact h

namespace Compile

variable {α β : Type} {table : Entries} {s s' : State}

/-- A type is what compiling a schema under a name has given. -/
def Gave (table : Entries) (n : String) (schema : Tree) (t : NamedType) : Prop :=
  ∃ follow, ∃ s s' : State,
    schemaType table (typeWith follow) (Text.typeIdentifier n) n schema s = (.ok (some t), s')

/-- A type expression is what a schema has been read as. -/
def ReadAs (schema : Tree) (e : TypeExpr) : Prop :=
  ∃ follow, ∃ s s' : State, typeWith follow schema s = (.ok e, s')

/-- What is remembered comes from the entries of a table and from schemas that were asked for, and the variants
of unions that overlap have been noted. -/
structure Traced (table : Entries) (asked : String → Tree → Prop) (s : State) : Prop where
  types : ∀ t ∈ s.types, ∃ n schema, asked n schema ∧ Gave table n schema t ∧
    s.owners.lookup (Text.typeIdentifier n) = some n
  inlines : ∀ e ∈ s.inlines, ∃ schema, IsEntry table e.1 schema ∧ ReadAs schema e.2
  owners : ∀ o ∈ s.owners, ∃ schema, asked o.2 schema ∧ o.1 = Text.typeIdentifier o.2
  noted : ∀ t ∈ s.types, ∀ vs, t.shape = .untagged vs → overlapNotices t.name vs ⊆ s.notices

/-- A run from a state keeps what is remembered traced and only adds types, what it fails with is accounted
for, and what it gives has a property. -/
structure TracedRun (table : Entries) (asked : String → Tree → Prop) (path : List String) (m : Run α)
    (s : State) (P : α → State → Prop) : Prop where
  traced : Traced table asked (m s).2
  grows : s.types <+: (m s).2.types
  accounted : ∀ f, (m s).1 = .error f → f.Accounted asked path
  gives : ∀ a, (m s).1 = .ok a → P a (m s).2

/-- Every run from a state where what is remembered is traced keeps it so. -/
def Traces (table : Entries) (asked : String → Tree → Prop) (path : List String) (m : Run α) : Prop :=
  ∀ s, Traced table asked s → TracedRun table asked path m s fun _ _ => True

theorem traced_start : Traced table asked .start := ⟨nofun, nofun, nofun, nofun⟩

variable {P : α → State → Prop} {Q : β → State → Prop}

theorem TracedRun.of_eq {m : Run α} {r : Except Failure α} (h : m s = (r, s'))
    (htraced : Traced table asked s') (hgrows : s.types <+: s'.types)
    (haccounted : ∀ f, r = .error f → f.Accounted asked path) (hgives : ∀ a, r = .ok a → P a s') :
    TracedRun table asked path m s P := by
  constructor <;> rw [h] <;> assumption

theorem tracedRun_lift {r : Except Failure α} (hs : Traced table asked s)
    (h : ∀ f, r = .error f → f.Accounted asked path) (hP : ∀ a, r = .ok a → P a s) :
    TracedRun table asked path (lift r) s P := ⟨hs, List.prefix_rfl, h, hP⟩

theorem tracedRun_pure {a : α} (hs : Traced table asked s) (h : P a s) :
    TracedRun table asked path (pure a) s P :=
  tracedRun_lift (r := .ok a) hs nofun fun _ ha => by cases ha; exact h

theorem tracedRun_throw {f : Failure} (hs : Traced table asked s) (h : f.Accounted asked path) :
    TracedRun table asked path (throw f : Run α) s P :=
  tracedRun_lift (r := .error f) hs (fun _ hf => by cases hf; exact h) nofun

theorem tracedRun_modify {f : State → State} (hs : Traced table asked (f s))
    (hf : s.types <+: (f s).types) :
    TracedRun table asked path (modify f : Run PUnit) s fun _ s' => s' = f s :=
  ⟨hs, hf, nofun, fun _ _ => rfl⟩

theorem TracedRun.mono {P' : α → State → Prop} {m : Run α} (h : TracedRun table asked path m s P)
    (hP : ∀ a s', P a s' → P' a s') : TracedRun table asked path m s P' :=
  ⟨h.traced, h.grows, h.accounted, fun a ha => hP a _ (h.gives a ha)⟩

theorem TracedRun.bind {m : Run α} {f : α → Run β} (h : TracedRun table asked path m s P)
    (hf : ∀ a s', m s = (.ok a, s') → Traced table asked s' → P a s' →
      TracedRun table asked path (f a) s' Q) :
    TracedRun table asked path (m >>= f) s Q := by
  obtain ⟨htraced, hgrows, haccounted, hgives⟩ := h
  rcases hm : m s with ⟨e | a, s'⟩
  · have hrun : (m >>= f) s = (.error e, s') := by rw [bind_eq, hm]
    rw [hm] at htraced hgrows haccounted
    refine .of_eq hrun htraced hgrows (fun e' he => ?_) nofun
    cases he
    exact haccounted e rfl
  · have hrun : (m >>= f) s = f a s' := by rw [bind_eq, hm]
    rw [hm] at htraced hgrows hgives
    obtain ⟨htraced', hgrows', haccounted', hgives'⟩ := hf a s' hm htraced (hgives a rfl)
    exact ⟨hrun ▸ htraced', hrun ▸ hgrows.trans hgrows', hrun ▸ haccounted', hrun ▸ hgives'⟩

theorem TracedRun.get_bind {f : State → Run β} (h : TracedRun table asked path (f s) s Q) :
    TracedRun table asked path (get >>= f) s Q :=
  ⟨h.traced, h.grows, h.accounted, h.gives⟩

theorem Traces.weaken {m : Run α} {more : List String} (h : Traces table asked (path ++ more) m) :
    Traces table asked path m := fun s hs => by
  obtain ⟨htraced, hgrows, haccounted, hgives⟩ := h s hs
  exact ⟨htraced, hgrows, fun f hf => (haccounted f hf).weaken, hgives⟩

theorem Traces.map {m : Run α} (f : α → β) (h : Traces table asked path m) :
    Traces table asked path (f <$> m) := by
  rw [map_eq_pure_bind]
  exact fun s hs => (h s hs).bind fun _ _ _ hs' _ => tracedRun_pure hs' trivial

theorem compatible_traces (table : Entries) (asked : String → Tree → Prop) (path : List String) :
    CompatibleOn (σ := State) (τ := Unit) (ι := Unit) (fun f => f.Accounted asked path)
      fun {_} m _ => Traces table asked path m where
  reading := .of_reading
  lift h := fun _ hs => tracedRun_lift hs h fun _ _ => trivial
  bind hm hf := fun s hs => (hm s hs).bind fun a s' _ hs' _ => hf a s' hs'
  note _ := fun _ hs => ⟨⟨hs.types, hs.inlines, hs.owners, fun t ht vs hvs =>
    List.Subset.trans (hs.noted t ht vs hvs) (List.subset_append_left _ _)⟩, List.prefix_rfl, nofun,
    fun _ _ => trivial⟩

theorem traces_typeWith {follow : String → Run TypeExpr} (h : ∀ r, Traces table asked path (follow r))
    (t : Tree) : Traces table asked path (typeWith follow t) :=
  @CompatibleOn.typeWith _ _ _ _ _ _ _ (compatible_traces table asked path) follow (fun _ _ => pure .any) t
    fun r _ => h r

/-! ## Named types -/

theorem accounted_of_merge {owner : String} {objects : List Entries} {f : Failure}
    (h : merge owner objects = .error f) (howner : owner ∉ path) : f.Accounted asked path := by
  rcases failure_of_merge h with h | ⟨p, rfl⟩
  · exact .of_reading (.inl h)
  · exact howner

theorem accounted_of_leaves {owner : String} {t : Tree} {f : Failure} (h : leaves table owner t = .error f) :
    f.Accounted asked path := by
  rcases error_of_leaves h with h | ⟨⟨stack, rfl⟩, -⟩
  · exact .of_reading (.inl h)
  · trivial

theorem traces_schemaType {name schemaName : String} {follow : String → Run TypeExpr} {tree : Tree}
    (hname : name ∉ path) (h : ∀ r, Traces table asked (path ++ [name]) (follow r)) :
    Traces table asked path (schemaType table (typeWith follow) name schemaName tree) :=
  @CompatibleOn.schemaType _ _ _ _ _ _ _ (compatible_traces table asked path) (typeWith follow)
    (fun _ _ => pure .any) table name (fun _ _ hf => accounted_of_merge hf hname)
    (fun _ _ => accounted_of_leaves) tree schemaName fun _ _ _ _ _ t _ => traces_typeWith (fun r => (h r).weaken) t

theorem Traced.own {n : String} {schema : Tree} (hs : Traced table asked s) (hasked : asked n schema) :
    Traced table asked { s with owners := s.owners ++ [(Text.typeIdentifier n, n)] } := by
  refine ⟨fun t ht => ?_, hs.inlines, List.forall_mem_append.2 ⟨hs.owners, ?_⟩, hs.noted⟩
  · obtain ⟨m, schema', hasked', hgave, howner⟩ := hs.types t ht
    exact ⟨m, schema', hasked', hgave, lookup_extended (List.prefix_append _ _) howner⟩
  · rw [List.forall_mem_singleton]
    exact ⟨schema, hasked, rfl⟩

/-- A name is made the owner of its type name, unless another name of that type name owns it. -/
theorem tracedRun_claim {n : String} {schema : Tree} (hs : Traced table asked s)
    (hasked : asked n schema) :
    TracedRun table asked path (claim (Text.typeIdentifier n) n) s fun _ s' =>
      s'.types = s.types ∧ s'.notices = s.notices ∧ s'.owners.lookup (Text.typeIdentifier n) = some n ∧
        ∀ m, s.owners.lookup (Text.typeIdentifier n) = some m → m = n := by
  have hrun := claim_eq (Text.typeIdentifier n) n s
  cases howner : s.owners.lookup (Text.typeIdentifier n) with
  | none =>
    rw [howner] at hrun
    exact .of_eq hrun (hs.own hasked) List.prefix_rfl nofun fun _ _ =>
      ⟨rfl, rfl, by simp [List.lookup_append, howner], nofun⟩
  | some owner =>
    rw [howner] at hrun
    obtain ⟨schema', hasked', hname⟩ := hs.owners _ (mem_of_lookup howner)
    dsimp only at hrun
    split at hrun
    · rename_i hne
      refine .of_eq hrun hs List.prefix_rfl (fun f hf => ?_) nofun
      cases hf
      exact ⟨hne, hname.symm, rfl, ⟨schema', hasked'⟩, schema, hasked⟩
    · rename_i heq
      obtain rfl := not_not.1 heq
      exact .of_eq hrun hs List.prefix_rfl nofun fun _ _ =>
        ⟨rfl, rfl, howner, fun m hm => (Option.some.inj hm).symm⟩

theorem Traced.addType {n : String} {schema : Tree} {t : NamedType} (hs : Traced table asked s)
    (hasked : asked n schema) (hgave : Gave table n schema t)
    (howner : s.owners.lookup (Text.typeIdentifier n) = some n)
    (hnoted : ∀ vs, t.shape = .untagged vs → overlapNotices t.name vs ⊆ s.notices) :
    Traced table asked { s with types := s.types ++ [t] } := by
  refine ⟨List.forall_mem_append.2 ⟨hs.types, ?_⟩, hs.inlines, hs.owners,
    List.forall_mem_append.2 ⟨hs.noted, List.forall_mem_singleton.2 hnoted⟩⟩
  rw [List.forall_mem_singleton]
  exact ⟨n, schema, hasked, hgave, howner⟩

theorem Traced.addInline {n : String} {schema : Tree} {e : TypeExpr} (hs : Traced table asked s)
    (hentry : IsEntry table n schema) (he : ReadAs schema e) :
    Traced table asked { s with inlines := s.inlines ++ [(n, e)] } := by
  refine ⟨hs.types, List.forall_mem_append.2 ⟨hs.inlines, ?_⟩, hs.owners, hs.noted⟩
  rw [List.forall_mem_singleton]
  exact ⟨schema, hentry, he⟩

/-- Making a union notes which of its variants overlap. -/
theorem noted_of_schemaType {typeOf : Tree → Run TypeExpr} {name schemaName : String} {tree : Tree}
    {t : NamedType} (h : schemaType table typeOf name schemaName tree s = (.ok (some t), s'))
    {vs : List Variant} (hshape : t.shape = .untagged vs) : overlapNotices t.name vs ⊆ s'.notices := by
  obtain ⟨_, m, -, hmakes, hm⟩ := makes_of_schemaType h
  obtain ⟨description, variants, _, s₁, -, rfl, rfl⟩ := untaggedUnion_eq_ok (hmakes.untaggedUnion hm hshape)
  cases hshape
  exact List.subset_append_right _ _

theorem Gave.name {n : String} {schema : Tree} {t : NamedType} (h : Gave table n schema t) :
    t.name = Text.typeIdentifier n := by
  obtain ⟨follow, s, s', h⟩ := h
  exact name_of_schemaType h

/-- A type that is remembered for a name, as a schema that was asked for has given it. -/
def Recorded (table : Entries) (asked : String → Tree → Prop) (n : String) (t : NamedType) (s : State) :
    Prop :=
  t ∈ s.types ∧ ∃ schema, asked n schema ∧ Gave table n schema t

/-- The type that a schema compiles to under a name is what it gives, or what another schema of that name has
given before. Failures are accounted for as far as those of the schema itself are. -/
theorem tracedRun_named {around : List String} {n : String} {schema : Tree}
    {follow : Text.typeIdentifier n ∉ path → String → Run TypeExpr} (hs : Traced table asked s)
    (hasked : asked n schema) (htype : ∀ h, Traces table asked around
      (schemaType table (typeWith (follow h)) (Text.typeIdentifier n) n schema)) :
    TracedRun table asked around (named table path n schema follow) s fun r s' =>
      ∀ t, r = some t → Recorded table asked n t s' := by
  unfold named
  dsimp only
  refine TracedRun.get_bind ?_
  cases hfind : s.types.find? (·.name == Text.typeIdentifier n) with
  | some type =>
    -- Another schema may have given the type, but its name owns the type's, and so does this one.
    dsimp only
    refine (tracedRun_claim hs hasked).bind fun _ s₁ _ hs₁ hclaim => tracedRun_pure hs₁ fun t ht => ?_
    obtain ⟨htypes, -, -, howner⟩ := hclaim
    cases ht
    have hmem := List.mem_of_find?_eq_some hfind
    have hname : type.name = Text.typeIdentifier n := by simpa using List.find?_some hfind
    obtain ⟨m, schema', hasked', hgave, hm⟩ := hs.types type hmem
    rw [← hgave.name, hname] at hm
    obtain rfl := howner m hm
    exact ⟨htypes ▸ hmem, schema', hasked', hgave⟩
  | none =>
    dsimp only
    split
    · exact tracedRun_pure hs nofun
    · split
      · exact tracedRun_throw hs trivial
      · rename_i hpath
        refine (htype hpath s hs).bind fun r s₁ hrun hs₁ _ => ?_
        cases r with
        | none => exact tracedRun_pure hs₁ nofun
        | some t =>
          dsimp only
          refine (tracedRun_claim hs₁ hasked).bind fun _ s₂ _ hs₂ hclaim => ?_
          have hgave : Gave table n schema t := ⟨_, _, _, hrun⟩
          have hnoted : ∀ vs, t.shape = .untagged vs → overlapNotices t.name vs ⊆ s₂.notices := by
            rw [hclaim.2.1]
            exact fun _ => noted_of_schemaType hrun
          have hadded := hs₂.addType hasked hgave hclaim.2.2.1 hnoted
          refine (tracedRun_modify hadded (List.prefix_append _ _)).bind fun _ s₃ _ hs₃ h =>
            tracedRun_pure hs₃ fun u hu => ?_
          cases hu
          exact ⟨h ▸ List.mem_append_right _ List.mem_cons_self, schema, hasked, hgave⟩

/-! ## Following references -/

/-- The type expression of a reference is a named type for its entry, or what the schema is read as. -/
def Expresses (table : Entries) (asked : String → Tree → Prop) (reference : String) (e : TypeExpr)
    (s : State) : Prop :=
  ∃ found, find table reference = .ok found ∧
    ((∃ t, Recorded table asked found.name t s ∧ ∃ nullable, e = .named (some t.name) nullable) ∨
      ReadAs found.schema e)

section

variable (hasked : ∀ n t, (Scalar.text n, t) ∈ table → Reference.ofTree? t = none → asked n t)
include hasked

theorem asked_of_isEntry {n : String} {t : Tree} (h : IsEntry table n t) : asked n t :=
  hasked n t (Entries.mem_of_at? h.found) h.direct

theorem tracedRun_typeOfReference (p : Path) (reference : String) {s : State} (hs : Traced table asked s) :
    TracedRun table asked p.types (typeOfReference table p reference) s
      (Expresses table asked reference) := by
  rw [typeOfReference]
  refine (tracedRun_lift (P := fun found _ => find table reference = .ok found) hs
    (fun f hf => .of_reading (.inl ((local_find _ _).failure hf))) fun _ h => h).bind
      fun found s₀ _ hs hfind => ?_
  have hentry := Found.isEntry hfind
  refine (tracedRun_named hs (asked_of_isEntry hasked hentry) fun hpath =>
    traces_schemaType hpath fun r s hs => (tracedRun_typeOfReference
      ⟨p.types ++ [Text.typeIdentifier found.name], p.inlines⟩ r hs).mono fun _ _ _ => trivial).bind
        fun type s₁ _ hs₁ hnamed => ?_
  cases type with
  | some t =>
    obtain ⟨hmem, schema, hasked', hgave⟩ := hnamed t rfl
    exact tracedRun_pure hs₁
      ⟨found, hfind, .inl ⟨t, ⟨hmem, schema, hasked', hgave⟩, _, by rw [hgave.name]⟩⟩
  | none =>
    rw [if_neg (by simp)]
    refine TracedRun.get_bind ?_
    cases hlookup : s₁.inlines.lookup found.name with
    | some e =>
      obtain ⟨schema, hentry', hread⟩ := hs₁.inlines _ (mem_of_lookup hlookup)
      cases hentry.found.symm.trans hentry'.found
      exact tracedRun_pure hs₁ ⟨found, hfind, .inr hread⟩
    | none =>
      dsimp only
      split
      · exact tracedRun_throw hs₁ trivial
      · have htype := traces_typeWith (fun r s hs => (tracedRun_typeOfReference
          ⟨p.types, p.inlines ++ [found.name]⟩ r hs).mono fun _ _ _ => trivial) found.schema
        refine (htype s₁ hs₁).bind fun e s₂ hrun hs₂ _ => ?_
        have hread : ReadAs found.schema e := ⟨_, _, _, hrun⟩
        exact (tracedRun_modify (hs₂.addInline hentry hread) List.prefix_rfl).bind fun _ s₃ _ hs₃ _ =>
          tracedRun_pure hs₃ ⟨found, hfind, .inr hread⟩
termination_by p.rest table
decreasing_by
  · exact found.rest_type_lt ‹_›
  · exact found.rest_inline_lt ‹_›

/-! ## Calls -/

theorem traces_typeOf (t : Tree) : Traces table asked [] (typeOf table t) :=
  traces_typeWith
    (fun r _ hs => (tracedRun_typeOfReference hasked ⟨[], []⟩ r hs).mono fun _ _ _ => trivial) t

theorem tracedRun_entry {n : String} {schema : Tree} (hs : Traced table asked s) (h : asked n schema) :
    TracedRun table asked [] (entry table n schema) s fun r s' =>
      ∀ t, r = some t → Recorded table asked n t s' :=
  tracedRun_named hs h fun hpath => traces_schemaType hpath fun r _ hs =>
    (tracedRun_typeOfReference hasked ⟨[Text.typeIdentifier n], []⟩ r hs).mono fun _ _ _ => trivial

theorem traces_entries : ∀ {es : Entries}, es ⊆ table → Traces table asked [] (entries table es)
  | [], _ => fun _ hs => tracedRun_pure hs trivial
  | (key, schema) :: es, hes => by
    obtain ⟨hmem, hes⟩ := List.cons_subset.1 hes
    have hrest := traces_entries hes
    intro s hs
    rw [entries.eq_def]
    dsimp only
    split
    · rename_i hdirect
      cases key with
      | text name =>
        have hschema := hasked name schema hmem (by simpa [Reference.isReference] using hdirect)
        exact (tracedRun_entry hasked hs hschema).bind fun _ s₁ _ hs₁ _ => hrest s₁ hs₁
      | _ => exact tracedRun_throw hs trivial
    · exact hrest s hs

theorem traces_all : Traces table asked [] (all table) := fun s hs =>
  (traces_entries hasked (List.Subset.refl _) s hs).bind fun _ _ _ hs₁ _ =>
    TracedRun.get_bind (tracedRun_pure hs₁ trivial)

/-- What is compiled by name has been asked for. -/
def Call.Asks (asked : String → Tree → Prop) : Call → Prop
  | .compile name schema => asked name schema
  | _ => True

theorem Call.traces {call : Call} (hcall : call.Asks asked) : Traces table asked [] (call.run table) := by
  cases call with
  | compile name schema =>
    exact Traces.map _ fun s hs => (tracedRun_entry hasked hs hcall).mono fun _ _ _ => trivial
  | inlineType t => exact (traces_typeOf hasked t).map _
  | resolve t => exact Traces.map _ ((compatible_traces table asked []).read (local_resolve table t))
  | all => exact (traces_all hasked).map _

/-- What a compiler remembers after calls is traced, whether or not they have failed. -/
theorem traced_after {calls : List Call} (hcalls : ∀ call ∈ calls, call.Asks asked) :
    Traced table asked (after table calls) :=
  of_after traced_start fun _ hcall s hs => (Call.traces hasked (hcalls _ hcall) s hs).traced

end

/-- What the compiler remembers after the whole table is traced. -/
theorem traced_of_all {types : List NamedType} {s : State} (h : all table .start = (.ok types, s)) :
    Traced table (fun _ _ => True) s := by
  have htraced : Traced table (fun _ _ => True) (all table .start).2 :=
    (traces_all (fun _ _ _ _ => trivial) _ traced_start).traced
  rwa [h] at htraced

/-- Whatever schemas have been compiled, under whatever names. -/
theorem traced_anything (table : Entries) (calls : List Call) :
    Traced table (fun _ _ => True) (after table calls) :=
  traced_after (fun _ _ _ _ => trivial) fun call _ => by cases call <;> trivial

section

variable (hkeys : (table.map (·.1)).Nodup)
include hkeys

theorem isEntry_of_mem {n : String} {t : Tree} (h : (Scalar.text n, t) ∈ table)
    (hdirect : Reference.ofTree? t = none) : IsEntry table n t := ⟨Entries.at?_of_mem hkeys h, hdirect⟩

/-- If no schemas but those of the entries have been compiled, each under its own name. -/
theorem traced_direct {calls : List Call} (hcalls : ∀ call ∈ calls, call.Direct table) :
    Traced table (IsEntry table) (after table calls) :=
  traced_after (fun _ _ => isEntry_of_mem hkeys) fun call h => by cases call <;> exact hcalls _ h

end

end Compile

end ApiContract
