import ApiContract.Proofs.Compile.Cycle
import ApiContract.Proofs.Compile.Origin

/-!
# What a cycle failure tells

Compiling a table fails over a cycle only where references lead from an entry back to it, or to another entry of
the same type name: what is being compiled is known by its type name (`cycle_of_all`).

* `link_of_made`: what is read of an entry refers where the entry leads on to.
* `Way`: references lead from all that is being compiled to the entry whose turn it is.
* `sincere_typeOfReference`: following a reference keeps that, so that a failure over a cycle closes a way.
-/

namespace ApiContract.Compile

open Tree Relation

variable {α : Type} {table : Entries}

/-- An entry leads on to another one: by an edge, or as edges do but through the branches of a union that stand in
a pair and not in a list. -/
inductive Link (table : Entries) (n m : String) : Prop
  | edge : Edge table n m → Link table n m
  | pair {a : Anchor} {union object : Entries} {x y t branch : Tree} {r r' name : String} :
      table.get? n = some (.map a union) → Reference.ofEntries? union = none →
      Schema.kind union = .ok .oneOf → union.get? "oneOf" = some (.pair x y) → t = x ∨ t = y →
      Reference.ofTree? t = some r' → Names table r' name branch → Component table branch object →
      Contains (tagOf union) object r → Reference.schemaName r = .ok m → Link table n m

/-- References lead from an entry to another one of the same type name. -/
def Confusable (table : Entries) : Prop :=
  ∃ n m, n ≠ m ∧ Text.typeIdentifier n = Text.typeIdentifier m ∧ (∃ t, IsEntry table n t) ∧
    (∃ t, IsEntry table m t) ∧ TransGen (Link table) n m

/-- References lead from an entry back to it, or to another one of the same type name. -/
def Returns (table : Entries) : Prop := (∃ n, TransGen (Link table) n n) ∨ Confusable table

theorem Circular.returns (h : Circular table) : Returns table := by
  obtain ⟨n, hn⟩ := h
  exact .inl ⟨n, TransGen.mono (fun _ _ => Link.edge) n n hn⟩

/-! ## What is read refers -/

theorem ReadIn.contains {exclude t : Tree} {object : Entries} {r : String} (h : ReadIn exclude object t)
    (hr : Mentions t r) : Contains exclude object r := by
  cases h with
  | property hproperties hmem hne =>
    rcases entriesOf_eq_ok hproperties with rfl | ⟨a, hget⟩
    · cases hmem
    · exact .property hget hmem hne hr
  | additional hget => exact .additional hget hr

/-- What is read of an entry refers where the entry leads on to. -/
theorem link_of_made {n m name : String} {schema object : Entries} {tree exclude t : Tree} {r : String}
    (hentry : IsEntry table n tree) (hschema : tree.entries? = some schema)
    (hmade : MadeOf table name schema tree exclude object) (hread : ReadIn exclude object t)
    (hr : Mentions t r) (hm : Reference.schemaName r = .ok m) : Link table n m := by
  cases tree with
  | map a es =>
    cases hschema
    have hdirect : Reference.ofEntries? schema = none := hentry.direct
    cases hmade with
    | object hkind =>
      exact .edge ⟨_, r, hentry.found, .content (.object hdirect hkind) (hread.contains hr), hm⟩
    | composition _ hleaves hobject =>
      rw [besideReference_of_direct hentry.direct] at hleaves
      exact .edge ⟨_, r, hentry.found, .content (component_of_mem hleaves hobject) (hread.contains hr), hm⟩
    | branch hkind hbranches hbranch hobjects hobject =>
      have hcomponent := component_of_branchObjects ((of_branches hbranches).1 _ hbranch).direct hobjects _ hobject
      obtain ⟨parts, hparts, hfrom⟩ := ApiContract.bind_eq_ok.1 hbranches
      rcases names_of_branchesFrom hfrom _ hbranch with hnone | ⟨u, hu, r', href, hnames⟩
      · cases hnone
      · rcases mem_of_partsOf hparts hu with ⟨x, rfl⟩ | ⟨b, hget⟩ | ⟨x, y, hget, hxy⟩
        · cases href
        · exact .edge ⟨_, r, hentry.found,
            .branch rfl hdirect hkind hget hu href hnames hcomponent (hread.contains hr), hm⟩
        · exact .pair hentry.found hdirect hkind hget hxy href hnames hcomponent (hread.contains hr) hm
  | _ => cases hschema

/-! ## Failures over a cycle -/

/-- A run fails over a cycle only if the table has one, or leads from an entry to another of its type name. -/
def Sincere (table : Entries) (m : Run α) : Prop :=
  ∀ s stack, (m s).1 = .error (.dependencyCycle stack) → Returns table

theorem sincere_throw {f : Failure} (h : ∀ stack, f = .dependencyCycle stack → Returns table) :
    Sincere table (throw f : Run α) := fun _ stack hf => h stack (by cases hf; rfl)

theorem sincere_pure (a : α) : Sincere table (pure a : Run α) := fun _ _ => nofun

theorem Sincere.bind {β : Type} {m : Run α} {f : α → Run β} (hm : Sincere table m)
    (hf : ∀ a, Sincere table (f a)) : Sincere table (m >>= f) := by
  intro s stack h
  rw [bind_eq] at h
  rcases hrun : m s with ⟨e | a, s'⟩
  · rw [hrun] at h
    have he : e = .dependencyCycle stack := Except.error.inj h
    exact hm s stack (by rw [hrun, he])
  · rw [hrun] at h
    exact hf a s' stack h

theorem Sincere.read_bind {β : Type} {r : Except Failure α} {f : α → Run β} (hr : Local r)
    (hf : ∀ a, r = .ok a → Sincere table (f a)) : Sincere table (lift r >>= f) := by
  cases r with
  | ok a => exact hf a rfl
  | error e =>
    intro s stack h
    cases h
    cases hr

theorem Sincere.get_bind {f : State → Run α} (hf : ∀ s, Sincere table (f s)) : Sincere table (get >>= f) :=
  fun s => hf s s

theorem sincere_modify (f : State → State) : Sincere table (modify f : Run PUnit) := fun _ _ => nofun

theorem compatible_sincere (table : Entries) :
    CompatibleOn (σ := State) (τ := Unit) (ι := Unit)
      (fun f => ∀ stack, f = .dependencyCycle stack → Returns table) fun {_} m _ => Sincere table m where
  reading h := by
    rintro stack rfl
    rcases h with h | h <;> cases h
  lift h := fun _ stack hr => h _ hr stack rfl
  bind hm hf := hm.bind hf
  note _ := sincere_modify _

theorem sincere_typeWith {follow : String → Run TypeExpr} {t : Tree}
    (h : ∀ r, Mentions t r → Sincere table (follow r)) : Sincere table (typeWith follow t) :=
  @CompatibleOn.typeWith _ _ _ _ _ _ _ (compatible_sincere table) follow (fun _ _ => pure .any) t h

/-- Making the named type of an entry, where following the references that the entry leads on by is sincere. -/
theorem sincere_schemaType {n name : String} {tree : Tree} {follow : String → Run TypeExpr}
    (hentry : IsEntry table n tree)
    (h : ∀ r, (∀ m, Reference.schemaName r = .ok m → Link table n m) → Sincere table (follow r)) :
    Sincere table (schemaType table (typeWith follow) name n tree) := by
  refine @CompatibleOn.schemaType _ _ _ _ _ _ _ (compatible_sincere table) (typeWith follow)
    (fun _ _ => pure .any) table name (fun objects f hf => ?_) (fun t f hf => ?_) tree n
    fun schema exclude object hschema hmade t hread => sincere_typeWith fun r hr => h r fun m hm =>
      link_of_made hentry hschema hmade hread hr hm
  · rintro stack rfl
    rcases failure_of_merge hf with h | ⟨p, h⟩ <;> cases h
  · rintro stack rfl
    rcases error_of_leaves hf with h | ⟨-, h⟩
    · cases h
    · exact h.returns

theorem sincere_claim (name schemaName : String) : Sincere table (claim name schemaName) := by
  refine Sincere.get_bind fun s => ?_
  split
  · exact sincere_modify _
  · split
    · exact sincere_throw nofun
    · exact sincere_pure _

/-! ## The way to an entry -/

/-- References lead from all that is being compiled to an entry. -/
structure Way (table : Entries) (path : Path) (n : String) : Prop where
  types : ∀ type ∈ path.types, ∃ a, (∃ t, IsEntry table a t) ∧ Text.typeIdentifier a = type ∧
    TransGen (Link table) a n
  inlines : ∀ a ∈ path.inlines, TransGen (Link table) a n

section

variable {path : Path} {n m : String} {tree : Tree}

theorem Way.enterType (h : Way table path n) (hentry : IsEntry table n tree) (hlink : Link table n m) :
    Way table ⟨path.types ++ [Text.typeIdentifier n], path.inlines⟩ m := by
  refine ⟨List.forall_mem_append.2 ⟨fun type htype => ?_, ?_⟩, fun a ha => (h.inlines a ha).tail hlink⟩
  · obtain ⟨a, ha, hname, hway⟩ := h.types type htype
    exact ⟨a, ha, hname, hway.tail hlink⟩
  · exact List.forall_mem_singleton.2 ⟨n, ⟨tree, hentry⟩, rfl, .single hlink⟩

theorem Way.enterInline (h : Way table path n) (hlink : Link table n m) :
    Way table ⟨path.types, path.inlines ++ [n]⟩ m := by
  refine ⟨fun type htype => ?_, List.forall_mem_append.2 ⟨fun a ha => (h.inlines a ha).tail hlink, ?_⟩⟩
  · obtain ⟨a, ha, hname, hway⟩ := h.types type htype
    exact ⟨a, ha, hname, hway.tail hlink⟩
  · exact List.forall_mem_singleton.2 (.single hlink)

/-- Where the type name of an entry is that of something being compiled, references have led back to the entry, or
from another one of its type name. -/
theorem Way.returns (h : Way table path n) (hentry : IsEntry table n tree)
    (hmem : Text.typeIdentifier n ∈ path.types) : Returns table := by
  obtain ⟨a, ha, hname, hway⟩ := h.types _ hmem
  by_cases heq : a = n
  · exact .inl ⟨n, heq ▸ hway⟩
  · exact .inr ⟨a, n, heq, hname, ha, ⟨tree, hentry⟩, hway⟩

theorem sincere_named {follow : Text.typeIdentifier n ∉ path.types → String → Run TypeExpr}
    (hentry : IsEntry table n tree) (hway : Way table path n)
    (hfollow : ∀ h r, (∀ m, Reference.schemaName r = .ok m → Link table n m) → Sincere table (follow h r)) :
    Sincere table (named table path.types n tree follow) := by
  refine Sincere.get_bind fun s => ?_
  split
  · exact (sincere_claim _ _).bind fun _ => sincere_pure _
  · split
    · exact sincere_pure _
    · split
      · -- What is in progress may be another entry of this type name.
        exact sincere_throw fun _ _ => hway.returns hentry ‹_›
      · refine (sincere_schemaType hentry (hfollow _)).bind fun type => ?_
        cases type with
        | none => exact sincere_pure _
        | some type =>
          exact (sincere_claim _ _).bind fun _ => (sincere_modify _).bind fun _ => sincere_pure _

end

theorem sincere_typeOfReference (path : Path) (r : String)
    (h : ∀ n, Reference.schemaName r = .ok n → Way table path n) :
    Sincere table (typeOfReference table path r) := by
  rw [typeOfReference]
  refine Sincere.read_bind (local_find table r) fun found hfind => ?_
  have hentry := Found.isEntry hfind
  have hway := h _ (names_of_find hfind).1
  refine (sincere_named hentry hway fun _ r' hlink => sincere_typeOfReference _ r' fun n hn =>
    hway.enterType hentry (hlink n hn)).bind fun type => ?_
  split
  · exact sincere_pure _
  · refine Sincere.get_bind fun s => ?_
    split
    · exact sincere_pure _
    · split
      · -- Here entries are known by their own names, so that the way has led back to this one.
        exact sincere_throw fun _ _ => .inl ⟨_, hway.inlines _ ‹_›⟩
      · refine (sincere_typeWith fun r' hr' => sincere_typeOfReference _ r' fun n hn =>
          hway.enterInline (.edge ⟨_, r', found.found, .mention hr', hn⟩)).bind fun type => ?_
        exact (sincere_modify _).bind fun _ => sincere_pure _
termination_by path.rest table
decreasing_by
  · exact found.rest_type_lt ‹_›
  · exact found.rest_inline_lt ‹_›

/-! ## The table -/

theorem sincere_entry {n : String} {tree : Tree} (hentry : IsEntry table n tree) :
    Sincere table (entry table n tree) := by
  have hway : Way table ⟨[], []⟩ n := ⟨nofun, nofun⟩
  exact sincere_named hentry hway fun _ r hlink => sincere_typeOfReference _ r fun m hm =>
    hway.enterType hentry (hlink m hm)

theorem sincere_entries (hkeys : (table.map (·.1)).Nodup) :
    ∀ {es : Entries}, es ⊆ table → Sincere table (entries table es) := by
  intro es hes
  induction es with
  | nil => exact sincere_pure _
  | cons e es ih =>
    obtain ⟨key, schema⟩ := e
    obtain ⟨hmem, hes⟩ := List.cons_subset.1 hes
    have hrest := ih hes
    rw [entries.eq_def]
    dsimp only
    split
    · rename_i hdirect
      cases key with
      | text n =>
        have hentry := isEntry_of_mem hkeys hmem (by simpa [Reference.isReference] using hdirect)
        exact (sincere_entry hentry).bind fun _ => hrest
      | _ => exact sincere_throw fun stack hcycle => by cases hcycle
    · exact hrest

/-- Compiling a table fails over a cycle only if references lead from an entry back to it, or from an entry to
another one of the same type name. -/
theorem cycle_of_all (hkeys : (table.map (·.1)).Nodup) {s : State} {stack : List String}
    (h : (all table s).1 = .error (.dependencyCycle stack)) : Returns table :=
  ((sincere_entries hkeys (List.Subset.refl _)).bind fun _ => Sincere.get_bind fun _ => sincere_pure _) s stack h

theorem cycle_of_sampleCircle : Returns sampleCircle := by
  have hcycle : (all sampleCircle .start).1 = .error (.dependencyCycle ["Pets", "Pets"]) := by decide +kernel
  exact cycle_of_all (by decide) hcycle

/-- A text and a record that refers to it, both of one type name. -/
def sampleTwins : Entries := [
  (.text "foo_bar", Tree.object [("type", .text "string")]),
  (.text "FooBar", Tree.object [
    ("type", .text "object"),
    ("properties", Tree.object [("x", Reference.asTree "#/components/schemas/foo_bar")])])]

theorem link_sampleTwins {n m : String} (h : Link sampleTwins n m) : n = "FooBar" ∧ m = "foo_bar" := by
  cases h with
  | edge h =>
    obtain ⟨schema, r, hn, hr, hm⟩ := h
    have hmem := mem_of_get? hn
    simp only [sampleTwins, List.mem_cons, Prod.mk.injEq, Scalar.text.injEq, List.not_mem_nil, or_false] at hmem
    rcases hmem with ⟨rfl, rfl⟩ | ⟨rfl, rfl⟩
    · exact absurd hr (not_refers rfl rfl nofun nofun nofun nofun)
    · cases hr.object rfl rfl with
      | property hproperties hx _ hmention =>
        cases hproperties
        cases List.mem_singleton.1 hx
        cases hmention with
        | reference href =>
          cases href
          exact ⟨rfl, Except.ok.inj (hm.symm.trans (by decide +kernel))⟩
        | additional hnone | item hnone => cases hnone
      | additional hadditional => cases hadditional
  | pair hn _ hkind =>
    have hmem := mem_of_get? hn
    simp only [sampleTwins, List.mem_cons, Prod.mk.injEq, Scalar.text.injEq, List.not_mem_nil, or_false] at hmem
    rcases hmem with ⟨-, heq⟩ | ⟨-, heq⟩ <;> cases heq <;> cases hkind

/-- No reference leads back to where it comes from, but there is a cycle of type names. -/
theorem cycle_sampleTwins :
    (all sampleTwins .start).1 = .error (.dependencyCycle ["FooBar", "FooBar"]) ∧
      ∀ n, ¬ TransGen (Link sampleTwins) n n := by
  refine ⟨by decide +kernel, fun n h => ?_⟩
  obtain ⟨m, hfirst, -⟩ := TransGen.head'_iff.1 h
  obtain ⟨l, -, hlast⟩ := TransGen.tail'_iff.1 h
  have heq : "FooBar" = "foo_bar" := (link_sampleTwins hfirst).1.symm.trans (link_sampleTwins hlast).2
  exact absurd heq (by decide)

end ApiContract.Compile
