import ApiContract.Proofs.Compile.Agreement
import ApiContract.Proofs.Compile.Origin

/-!
# Entries that nothing refers to

An entry that has no named type and that nothing refers to changes nothing about the other entries: they lead to
the same schemas without it (`agreeOn_insert`), and its own turn passes without a trace. Only if a type of its type
name has been compiled by then, compiling the table fails, although the entry gives no type (`all_insert`).
-/

namespace ApiContract.Compile

open Tree

variable {table pre post : Entries} {n : String} {a : Anchor} {es : Entries}

/-! ## Other entries -/

theorem get?_insert {m : String} (hm : m ≠ n) (pre post : Entries) (schema : Tree) :
    Entries.get? (pre ++ (.text n, schema) :: post) m = Entries.get? (pre ++ post) m := by
  simp only [Entries.get?_eq_at?]
  induction pre with
  | nil =>
    rw [List.nil_append, Entries.at?_cons, if_neg fun heq => hm (Scalar.text.inj heq).symm, List.nil_append]
  | cons e pre ih => rw [List.cons_append, List.cons_append, Entries.at?_cons, Entries.at?_cons, ih]

/-- References to other names lead to the same entries with a further entry. -/
theorem agreeOn_insert (hunused : ∀ e ∈ pre ++ post, ∀ r ∈ e.2.references, Reference.schemaName r ≠ .ok n)
    (schema : Tree) : AgreeOn (fun r => Reference.schemaName r ≠ .ok n) (pre ++ post)
      (pre ++ (.text n, schema) :: post) := by
  refine ⟨fun r hr => ?_, hunused⟩
  unfold entryOf
  cases hname : Reference.schemaName r with
  | error f => rfl
  | ok m =>
    have hm : m ≠ n := fun heq => hr (heq ▸ hname)
    simp only [bind, Except.bind, get?_insert hm]

/-! ## The entry's turn -/

theorem schemaType_eq_none {σ : Type} [Noting σ] {typeOf : Tree → RunOn σ TypeExpr} {name : String}
    (hes : HasExpression es) : schemaType table typeOf name n (.map a es) = pure none := by
  unfold HasExpression at hes
  unfold schemaType
  refine (lift_bind_congr (g := fun _ => pure none) fun kind hkind => ?_).trans ?_
  · rw [hkind] at hes
    cases kind with
    | object =>
      dsimp only at hes ⊢
      rw [hes]
      rfl
    | array => rfl
    | string | number | integer | boolean =>
      dsimp only at hes ⊢
      unfold enumeration
      dsimp only
      rw [if_pos hes]
      rfl
    | any =>
      dsimp only at hes ⊢
      rw [hes]
      rfl
    | _ => cases hes
  · cases hkind : Schema.kind es with
    | ok kind => rfl
    | error f =>
      rw [hkind] at hes
      cases hes

/-- A schema that has a type expression makes no named type. -/
theorem HasExpression.nameless (hes : HasExpression es) : Nameless table (.map a es) := by
  intro typeOf name n s
  rw [schemaType_eq_none hes]
  rfl

theorem entry_eq_none {s : State} (hes : HasExpression es)
    (hnone : Text.typeIdentifier n ∉ s.types.map (·.name)) : entry table n (.map a es) s = (.ok none, s) :=
  named_of_nameless hnone hes.nameless

/-- A type of the same type name is taken for a clash. -/
theorem entry_eq_clash {s : State} {m : String} {schema : Tree}
    (hsome : Text.typeIdentifier n ∈ s.types.map (·.name))
    (howner : s.owners.lookup (Text.typeIdentifier n) = some m) (hm : m ≠ n) :
    entry table n schema s = (.error (.typeNameClash m n (Text.typeIdentifier n)), s) := by
  obtain ⟨t, ht⟩ := named_of_mem hsome
  unfold entry
  rw [ht, bind_eq, claim_eq, howner]
  dsimp only
  rw [if_pos hm]

/-! ## The table -/

theorem entries_append (xs ys : Entries) :
    entries table (xs ++ ys) = entries table xs >>= fun _ => entries table ys := by
  induction xs with
  | nil => rfl
  | cons e xs ih =>
    obtain ⟨key, schema⟩ := e
    rw [List.cons_append]
    simp only [entries, ih]
    split
    · cases key with
      | text name => simp only [bind_assoc]
      | _ => rfl
    · rfl

/-- The types of a table come from its first entries and then from the others. -/
theorem all_append (xs ys : Entries) :
    all (xs ++ ys) =
      entries (xs ++ ys) xs >>= fun _ => entries (xs ++ ys) ys >>= fun _ => get >>= fun s => pure s.types := by
  unfold all
  rw [entries_append, bind_assoc]

/-- With the further entry, its own turn comes between those of the others. -/
theorem all_insert_eq (hunused : ∀ e ∈ pre ++ post, ∀ r ∈ e.2.references, Reference.schemaName r ≠ .ok n)
    (hdirect : Reference.ofEntries? es = none) :
    all (pre ++ (.text n, .map a es) :: post) =
      entries (pre ++ post) pre >>= fun _ => entry (pre ++ (.text n, .map a es) :: post) n (.map a es) >>= fun _ =>
        entries (pre ++ post) post >>= fun _ => get >>= fun s => pure s.types := by
  have hagree := agreeOn_insert hunused (.map a es)
  obtain ⟨hpre, hpost⟩ := List.forall_mem_append.1 hunused
  have hisDirect : Reference.isReference (.map a es) = false := by
    simp [Reference.isReference, Reference.ofTree?, Tree.entries?, hdirect]
  rw [all_append, entries.eq_2, hisDirect, entries_congr hagree hpre, entries_congr hagree hpost]
  simp only [Bool.not_false, if_true, bind_assoc]

/-- The owner of a type that has been compiled is the name of an entry. -/
theorem owner_of_entries {s : State} (h : entries (pre ++ post) pre .start = (.ok (), s)) {type : String}
    (htype : type ∈ s.types.map (·.name)) :
    ∃ m, s.owners.lookup type = some m ∧ Scalar.text m ∈ (pre ++ post).map (·.1) := by
  have htraces : Traces (pre ++ post) (fun m t => (.text m, t) ∈ pre ++ post) [] (entries (pre ++ post) pre) :=
    traces_entries (fun _ _ hmem _ => hmem) (List.subset_append_left pre post)
  have htraced := (htraces .start traced_start).traced
  rw [h] at htraced
  obtain ⟨t, ht, rfl⟩ := List.mem_map.1 htype
  obtain ⟨m, schema, hasked, hgave, howner⟩ := htraced.types t ht
  exact ⟨m, hgave.name ▸ howner, List.mem_map.2 ⟨_, hasked, rfl⟩⟩

/-- Compiling a table is the same with a further entry of no named type that nothing refers to, unless a type of
its type name has been compiled before its turn. Then it fails. -/
theorem all_insert (hnew : .text n ∉ (pre ++ post).map (·.1))
    (hunused : ∀ e ∈ pre ++ post, ∀ r ∈ e.2.references, Reference.schemaName r ≠ .ok n)
    (hdirect : Reference.ofEntries? es = none) (hes : HasExpression es) :
    ((∀ s, entries (pre ++ post) pre .start = (.ok (), s) → Text.typeIdentifier n ∉ s.types.map (·.name)) →
      all (pre ++ (.text n, .map a es) :: post) .start = all (pre ++ post) .start) ∧
    ∀ s, entries (pre ++ post) pre .start = (.ok (), s) → Text.typeIdentifier n ∈ s.types.map (·.name) →
      ∃ m, m ≠ n ∧ all (pre ++ (.text n, .map a es) :: post) .start =
        (.error (.typeNameClash m n (Text.typeIdentifier n)), s) := by
  rw [all_insert_eq hunused hdirect, all_append, bind_eq, bind_eq]
  -- Up to the turn of the further entry both runs are the same, and what has been compiled by then decides it.
  rcases hrun : entries (pre ++ post) pre .start with ⟨f | ⟨⟩, s⟩
  · exact ⟨fun _ => rfl, nofun⟩
  · refine ⟨fun hfree => ?_, fun s' hs' hclash => ?_⟩
    · dsimp only
      rw [bind_eq, entry_eq_none hes (hfree s rfl)]
    · cases hs'
      obtain ⟨m, howner, hm⟩ := owner_of_entries hrun hclash
      have hne : m ≠ n := fun heq => hnew (heq ▸ hm)
      refine ⟨m, hne, ?_⟩
      dsimp only
      rw [bind_eq, entry_eq_clash hclash howner hne]

/-- A record. -/
def sampleKept : Entries := [
  (.text "Pet", Tree.object [
    ("type", .text "object"),
    ("properties", Tree.object [("name", Tree.object [("type", .text "string")])])])]

/-- A record that refers to the first one. -/
def sampleKeeper : Entries := [
  (.text "Keeper", Tree.object [
    ("type", .text "object"),
    ("properties", Tree.object [("pet", Reference.asTree "#/components/schemas/Pet")])])]

/-- A list of the first record. -/
def sampleHerd : Entries :=
  [(.text "type", .text "array"), (.text "items", Reference.asTree "#/components/schemas/Pet")]

theorem all_insert_sampleHerd :
    all (sampleKept ++ (.text "Herd", .map none sampleHerd) :: sampleKeeper) .start =
      all (sampleKept ++ sampleKeeper) .start := by
  have hherd : HasExpression sampleHerd := trivial
  refine (all_insert (by decide) (by decide +kernel) rfl hherd).1 fun s hs => ?_
  have htypes : (entries (sampleKept ++ sampleKeeper) sampleKept .start).2.types.map (·.name) = ["Pet"] := by
    decide +kernel
  rw [hs] at htypes
  rw [htypes]
  decide +kernel

/-- A record. -/
def sampleFooBar : Entries := [
  (.text "FooBar", Tree.object [
    ("type", .text "object"),
    ("properties", Tree.object [("a", Tree.object [("type", .text "string")])])])]

/-- A list of which the type name is that of a record does no harm before it, and is taken for a clash after it. -/
theorem all_sampleFooBar :
    Scalar.text "foo_bar" ∉ sampleFooBar.map (·.1) ∧
      (∀ e ∈ sampleFooBar, ∀ r ∈ e.2.references, Reference.schemaName r ≠ .ok "foo_bar") ∧
      HasExpression [(.text "type", .text "array")] ∧
      (all sampleFooBar .start).1.toOption.isSome = true ∧
      (all ((.text "foo_bar", Tree.object [("type", .text "array")]) :: sampleFooBar) .start).1 =
        (all sampleFooBar .start).1 ∧
      (all (sampleFooBar ++ [(.text "foo_bar", Tree.object [("type", .text "array")])]) .start).1 =
        .error (.typeNameClash "FooBar" "foo_bar" "FooBar") :=
  ⟨by decide, by decide +kernel, trivial, by decide +kernel, by decide +kernel, by decide +kernel⟩

end ApiContract.Compile
