import ApiContract.Proofs.Inline.Account

/-!
# The table of schemas while inlining runs

* `entry`: the schema that has a name at present, added ones first.
* `Kept`: a name stands for a schema that is the same; no later step takes that away.
* `Valid`: what holds of every state. The added schemas are what inlining made of foreign ones, and
  their names were free.
* `Later`: a state that may come later. The names keep what they stand for.
* `placeSchema_run`: a foreign schema gets its name, or the name is taken.
-/

namespace ApiContract.Inline

open Tree Walk

/-- The schema that has a name at present. -/
def entry (s : State) (name : String) : Option Tree :=
  (s.added.lookup name).or (s.table.bind (Tree.get? · name))

/-- A name stands for a schema that is the same as one without foreign references, a map and no
reference itself. -/
structure Kept (table : String → Option Tree) (name : String) (n : Tree) : Prop where
  hash : '#' ∉ name.toList
  isMap : n.isMap = true
  ofTree? : Reference.ofTree? n = none
  rooted : References (fun _ r => Rooted r) (.visited .schema) n
  plain : Plain n
  held : ∃ e, table name = some e ∧ Plain e ∧ e.same n = true

variable (library : Library) (root : Place)

/-- What a table of schemas says. -/
def described (table : String → Option Tree) : Scene :=
  sceneWith library root (Kept table) fun name _ => (table name).isSome

/-- What a state says. -/
def scene (s : State) : Scene := described library root (entry s)

/-- What holds of every state. -/
structure Valid (s : State) : Prop where
  components : s.components = none
  records : s.records = []
  table : ∀ t, s.table = some t → Plain t
  maps : ∀ t name x, s.table = some t → t.get? name = some x → x.isMap = true
  added : ∀ name n, (name, n) ∈ s.added → Plain n ∧ Foreign (scene library root s) n
  fresh : ∀ t name n, s.table = some t → (name, n) ∈ s.added → t.get? name = none
  nodup : (s.added.map (·.1)).Nodup

/-- A state whose names stand for at least what they stood for before. -/
structure Knows (s s' : State) : Prop where
  kept : ∀ name n, Kept (entry s) name n → Kept (entry s') name n
  taken : ∀ name, (entry s name).isSome → (entry s' name).isSome

/-- A state that a walk may lead to: the table itself is untouched. -/
structure Later (s s' : State) : Prop extends Knows s s' where
  table : s'.table = s.table
  valid : Valid library root s → Valid library root s'

variable {library root} {s s' s'' : State}

theorem Knows.refl (s : State) : Knows s s := ⟨fun _ _ h => h, fun _ h => h⟩

theorem Knows.trans (h : Knows s s') (h' : Knows s' s'') : Knows s s'' :=
  ⟨fun _ _ hk => h'.kept _ _ (h.kept _ _ hk), fun _ ht => h'.taken _ (h.taken _ ht)⟩

theorem Later.refl (s : State) : Later library root s s := ⟨.refl s, rfl, id⟩

theorem Later.trans (h : Later library root s s') (h' : Later library root s' s'') :
    Later library root s s'' :=
  ⟨h.toKnows.trans h'.toKnows, h'.table.trans h.table, fun hv => h'.valid (h.valid hv)⟩

/-- What inlining may make of a tree, it may still make of it later. -/
theorem Inlines.later {doc : Place} {spot : Spot} {t t' : Tree} (h : Knows s s')
    (hi : Inlines (scene library root s) doc spot t t') (hs : spot.grows = false) :
    Inlines (scene library root s') doc spot t t' :=
  Inlines.mono (c := scene library root s) (d := scene library root s') rfl rfl h.kept
    (fun name _ => h.taken name) hi hs

theorem Foreign.later {n : Tree} (h : Knows s s') (hn : Foreign (scene library root s) n) :
    Foreign (scene library root s') n := by
  obtain ⟨doc, a, es, hp, hr, hi⟩ := hn
  exact ⟨doc, a, es, hp, hr, hi.later h rfl⟩

/-! ## Reading the state -/

theorem schemaNamed_run (hv : Valid library root s) (name : String) :
    schemaNamed name s = (.ok (entry s name), s) := by
  refine bind_run.2 ⟨s, s, rfl, ?_⟩
  rw [hv.components, entry]
  cases s.added.lookup name with
  | some n => rfl
  | none =>
    refine bind_run.2 ⟨s.table, s, presentTable_run hv.records, pure_run.2 ⟨?_, rfl⟩⟩
    rw [Option.none_or]
    cases hx : s.table.bind (Tree.get? · name) with
    | none => rfl
    | some x =>
      obtain ⟨t, ht, hx⟩ := Option.bind_eq_some_iff.1 hx
      have hm := hv.maps t name x ht hx
      split
      · rename_i heq
        cases heq
        cases hm
      · rfl

/-! ## Placing a schema -/

/-- The references of what inlining may make of a tree at a walk's positions name no other document. -/
theorem Inlines.rooted {doc : Place} {spot : Spot} {t t' : Tree}
    (h : Inlines (scene library root s) doc spot t t') :
    References (fun _ r => Rooted r) spot t' :=
  h.references (fun _ _ _ res _ _ => ⟨res.pointer, rfl⟩)
    (fun name _ _ => ⟨_, Reference.toSchema_eq name⟩) fun _ _ _ (hj : False) => hj.elim

/-- Nothing is lost when a schema joins under a free name. -/
theorem entry_add {name : String} {n : Tree} (h : entry s name = none) (other : String) :
    entry { s with added := s.added ++ [(name, n)] } other =
      if other = name then some n else entry s other := by
  rw [entry, Option.or_eq_none_iff] at h
  simp only [entry, List.lookup_append]
  split
  · subst other
    simp [h.1]
  · rename_i hne
    simp [List.lookup_cons, beq_false_of_ne hne]

/-- A schema under a free name. -/
theorem later_add {name : String} {n : Tree} (hfree : entry s name = none) (hn : Plain n)
    (hf : Foreign (scene library root s) n) :
    Later library root s { s with added := s.added ++ [(name, n)] } := by
  have hentry : ∀ other e, entry s other = some e →
      entry { s with added := s.added ++ [(name, n)] } other = some e := by
    intro other e he
    rw [entry_add hfree, if_neg, he]
    rintro rfl
    rw [hfree] at he
    cases he
  have hknows : Knows s { s with added := s.added ++ [(name, n)] } := by
    refine ⟨?_, fun other ho => ?_⟩
    · intro other m hk
      obtain ⟨e, he, hrest⟩ := hk.held
      exact { hk with held := ⟨e, hentry other e he, hrest⟩ }
    · obtain ⟨e, he⟩ := Option.isSome_iff_exists.1 ho
      rw [hentry other e he]
      rfl
  refine ⟨hknows, rfl, fun hv => ⟨hv.components, hv.records, hv.table, hv.maps,
    fun other m hm => ?_, fun t other m ht hm => ?_, ?_⟩⟩
  · rcases List.mem_append.1 hm with hm | hm
    · obtain ⟨hp, hf⟩ := hv.added other m hm
      exact ⟨hp, hf.later hknows⟩
    · cases List.mem_singleton.1 hm
      exact ⟨hn, hf.later hknows⟩
  · rcases List.mem_append.1 hm with hm | hm
    · exact hv.fresh t other m ht hm
    · cases List.mem_singleton.1 hm
      have ht' : s.table = some t := ht
      rw [entry, Option.or_eq_none_iff, ht'] at hfree
      exact hfree.2
  · rw [entry, Option.or_eq_none_iff] at hfree
    exact nodup_keys_snoc hv.nodup hfree.1 n

/-- The schema that has a name is plain. -/
theorem plain_entry (hv : Valid library root s) {name : String} {e : Tree}
    (he : entry s name = some e) : Plain e := by
  rcases Option.or_eq_some_iff.1 he with he | ⟨-, he⟩
  · exact (hv.added name e (mem_of_lookup he)).1
  · obtain ⟨t, ht, hx⟩ := Option.bind_eq_some_iff.1 he
    cases t with
    | map a es => exact ((plain_map.1 (hv.table _ ht)).2.2 _ (Entries.mem_of_at? hx)).2
    | _ => cases hx

/-- A foreign schema gets its name, or the name is taken by another one. -/
theorem placeSchema_run {name : String} {n u : Tree} (hv : Valid library root s)
    (hname : '#' ∉ name.toList) (hn : Plain n) (hf : Foreign (scene library root s) n)
    (h : placeSchema name n s = (.ok u, s')) :
    Later library root s s' ∧
      ((u = Reference.asTree (Reference.toSchema name) ∧ Kept (entry s') name n) ∨
        (u = n ∧ (entry s' name).isSome)) := by
  have hkept : ∀ e, entry s' name = some e → Plain e → e.same n = true → Kept (entry s') name n := by
    intro e he hpe hsame
    obtain ⟨_, _, _, _, hr, hi⟩ := hf
    obtain ⟨es', rfl, -⟩ := hi.map_inv (Spot.refers_visited_eq_none hr)
    exact ⟨hname, rfl, hi.ofTree?_eq_none (fun h => by cases h) hr, hi.rooted, hn, e, he, hpe, hsame⟩
  obtain ⟨found, s₁, h₁, h⟩ := placeSchema_cases h
  rw [schemaNamed_run hv] at h₁
  cases h₁
  rcases h hv.records with ⟨he, rfl, rfl⟩ | ⟨e, he, rfl, rfl⟩
  · refine ⟨later_add he hn hf, .inl ⟨rfl, hkept n ?_ hn (same_refl hn)⟩⟩
    rw [entry_add he, if_pos rfl]
  · refine ⟨.refl _, ?_⟩
    split
    · exact .inl ⟨rfl, hkept e he (plain_entry hv he) ‹_›⟩
    · exact .inr ⟨rfl, by rw [he]; rfl⟩

/-- The account of what names stand for. -/
def names (library : Library) (root : Place) : Account library root where
  Valid := Valid library root
  Later := Later library root
  kept s := Kept (entry s)
  taken s name _ := (entry s name).isSome
  refl := .refl
  trans h h' := h.trans h'
  valid h := h.valid
  keeps h := h.kept
  takes h name _ := h.taken name
  places hv hname hn hf h := placeSchema_run hv hname hn hf h

end ApiContract.Inline
