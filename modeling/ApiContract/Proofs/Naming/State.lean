import ApiContract.Proofs.Naming.Still
import ApiContract.Proofs.Text.Unique

/-!
# The state of a naming run

`Valid s` holds of every state of a run over a plain description. `Later s s'` says what a part of a
run makes of the state: the table of schemas only grows, in the order of the names that are given; the
schemas under those names stay (`Held`), and any other one becomes at most what naming may make of it.
`Adds s s'` is the same for a part that leaves all schemas of the table alone.

* `addSchema_run`: a schema is added under a name of its own.
* `named_run`: what naming makes of a schema that stands inline.
-/

namespace ApiContract.Naming

open Tree

/-- The schema under a key of the table. -/
def State.entry? (s : State) (k : Scalar) : Option Tree :=
  (s.table.bind Tree.entries?).bind (Entries.at? k)

/-- The keys of the table. -/
def State.keys (s : State) : List Scalar :=
  ((s.table.bind Tree.entries?).getD []).keys

/-- The table has a schema under a name that was given. -/
def State.Held (s : State) (name : String) (x : Tree) : Prop :=
  name ∈ s.created ∧ s.entry? (.text name) = some x

/-- A schema of the table that naming is done with: nothing that needs a name stands inline in it, and going
through it again changes nothing. -/
structure Done (x : Tree) : Prop where
  prepared : Prepared .own x
  still : x.isMap = true → ∃ b, Still .schema x b

/-- A schema under a name that was given. -/
structure Given (x : Tree) : Prop extends Done x where
  isMap : x.isMap = true
  direct : Reference.ofTree? x = none

/-- What holds of every state. -/
structure Valid (s : State) : Prop where
  records : s.records = []
  plain : ∀ t, s.table = some t → Plain t
  given : ∀ name x, s.Held name x → Given x

/-- Naming is done with every entry of the table, but for the entries that are still to be gone through. -/
def Settled (todo : Scalar → Prop) (s : State) : Prop :=
  ∀ k x, s.entry? k = some x → ¬ todo k → Done x

/-- A map may come where there is a map or nothing, and all else stays. -/
def Alters (t t' : Option Tree) : Prop :=
  t' = t ∨ (∀ u, t = some u → u.isMap = true) ∧ ∃ u, t' = some u ∧ u.isMap = true

/-- What a part of a run makes of the state. -/
structure Later (s s' : State) : Prop where
  home : s'.home = s.home ∨ s.home = .absent ∧ s'.home = .map ∧ s'.table ≠ none
  idle : s'.home ≠ .map → s'.created = s.created
  table : Alters s.table s'.table
  grows : ∃ names : List String, s'.created = names.reverse ++ s.created ∧
    s'.keys = s.keys ++ names.map Scalar.text
  held : ∀ name x, s.Held name x → s'.Held name x
  entry : ∀ k x, s.entry? k = some x →
    ∃ x', s'.entry? k = some x' ∧ (x' = x ∨ Names s'.Held .own x x')
  valid : Valid s → Valid s'
  settled : ∀ todo, Settled todo s → Settled todo s'

/-- The same, with every schema of the table as it was. -/
structure Adds (s s' : State) : Prop extends Later s s' where
  keeps : ∀ k x, s.entry? k = some x → s'.entry? k = some x

variable {s s' s'' : State} {st : Stand} {t t' : Tree}

theorem Alters.trans {t t' u : Option Tree} (h : Alters t t') (h' : Alters t' u) : Alters t u := by
  rcases h with rfl | ⟨ht, v, rfl, hv⟩
  · exact h'
  · rcases h' with rfl | ⟨-, hu⟩
    · exact .inr ⟨ht, v, rfl, hv⟩
    · exact .inr ⟨ht, hu⟩

theorem Later.table_ne_none (h : Later s s') (hs : s.table ≠ none) : s'.table ≠ none := by
  rcases h.table with h | ⟨-, u, h, -⟩
  · rwa [h]
  · rw [h]
    exact Option.some_ne_none u

theorem Later.home_map (h : Later s s') (hs : s.home = .map) : s'.home = .map := by
  rcases h.home with h | ⟨h, -⟩
  · exact h.trans hs
  · cases h.symm.trans hs

/-- What naming has made of a tree stays so in later states. -/
theorem Names.later (h : Names s.Held st t t') (hl : Later s s') : Names s'.Held st t t' :=
  h.mono hl.held

theorem Later.trans (h : Later s s') (h' : Later s' s'') : Later s s'' := by
  refine ⟨?_, fun hne => ?_, h.table.trans h'.table, ?_, fun name x => h'.held name x ∘ h.held name x,
    fun k x hx => ?_, h'.valid ∘ h.valid, fun todo => h'.settled todo ∘ h.settled todo⟩
  · rcases h.home with heq | ⟨hs, hs', ht⟩
    · rw [← heq]
      exact h'.home
    · exact .inr ⟨hs, h'.home_map hs', h'.table_ne_none ht⟩
  · rw [h'.idle hne, h.idle fun hs => hne (h'.home_map hs)]
  · obtain ⟨names, hc, hk⟩ := h.grows
    obtain ⟨names', hc', hk'⟩ := h'.grows
    refine ⟨names ++ names', ?_, ?_⟩
    · rw [hc', hc, List.reverse_append, List.append_assoc]
    · rw [hk', hk, List.map_append, List.append_assoc]
  · obtain ⟨x', hx', hn⟩ := h.entry k x hx
    obtain ⟨x'', hx'', hn'⟩ := h'.entry k x' hx'
    refine ⟨x'', hx'', ?_⟩
    rcases hn with rfl | hn
    · exact hn'
    · rcases hn' with rfl | hn'
      · exact .inr (hn.later h')
      · exact .inr ((hn.later h').trans hn')

/-- A state that differs in what nobody asks for. -/
theorem Adds.of_eq (hhome : s'.home = s.home) (htable : s'.table = s.table)
    (hcreated : s'.created = s.created) (hrecords : s'.records = s.records) : Adds s s' := by
  have hentry : s'.entry? = s.entry? := by
    funext k
    rw [State.entry?, State.entry?, htable]
  have hkeys : s'.keys = s.keys := by rw [State.keys, State.keys, htable]
  have hheld : s'.Held = s.Held := by
    funext name x
    rw [State.Held, State.Held, hentry, hcreated]
  refine ⟨⟨.inl hhome, fun _ => hcreated, .inl htable, ⟨[], hcreated, ?_⟩,
    fun name x hh => hheld ▸ hh, fun k x hx => ⟨x, hentry ▸ hx, .inl rfl⟩,
    fun hv => ⟨hrecords.trans hv.records, htable ▸ hv.plain, hheld ▸ hv.given⟩,
    fun todo h => ?_⟩, fun k x hx => hentry ▸ hx⟩
  · rw [hkeys, List.map_nil, List.append_nil]
  · rw [Settled, hentry]
    exact h

theorem Adds.refl (s : State) : Adds s s := .of_eq rfl rfl rfl rfl

theorem Later.refl (s : State) : Later s s := (Adds.refl s).toLater

theorem Adds.trans (h : Adds s s') (h' : Adds s' s'') : Adds s s'' :=
  ⟨h.toLater.trans h'.toLater, fun k x => h'.keeps k x ∘ h.keeps k x⟩

theorem presentTable_run (h : s.records = []) : presentTable s = (s.table, s) := by
  show ((s.table.map fun t => (t.anchor.bind (List.lookup · s.records)).getD t, s) : _ × State) = _
  rw [h]
  cases s.table with
  | none => rfl
  | some t =>
    cases t.anchor <;> simp

theorem setTable_run {u : PUnit} (hp : Plain t) (h : setTable t s = (u, s')) :
    s' = { s with table := some t } := by
  obtain rfl := modify_run.1 h
  rw [recordIn_plain hp]

theorem mem_namesIn {name : String} :
    ∀ {es : Entries}, name ∈ namesIn es ↔ (.text name : Scalar) ∈ es.map (·.1)
  | [] => by simp [namesIn]
  | (k, t) :: es => by
    have ih := @mem_namesIn name es
    simp only [namesIn] at ih
    cases k <;> simp [namesIn, ih, eq_comm]

/-! ## The table -/

/-- The table of a state has some entries, or is still to come and has none. -/
def State.Has (s : State) (es : Entries) : Prop :=
  s.table = some (.map none es) ∨ s.table = none ∧ es = []

variable {es : Entries} {k : Scalar}

theorem State.Has.entry? (h : s.Has es) (l : Scalar) : s.entry? l = es.at? l := by
  rcases h with h | ⟨h, rfl⟩ <;> rw [State.entry?, h] <;> rfl

theorem State.Has.keys (h : s.Has es) : s.keys = es.keys := by
  rcases h with h | ⟨h, rfl⟩ <;> rw [State.keys, h] <;> rfl

theorem State.has_of_entry? {x : Tree} (hv : Valid s) (h : s.entry? k = some x) :
    ∃ es, s.table = some (.map none es) ∧ Entries.at? k es = some x := by
  obtain ⟨es, hes, hx⟩ := Option.bind_eq_some_iff.1 h
  obtain ⟨u, hu, hes⟩ := Option.bind_eq_some_iff.1 hes
  cases u with
  | map a fs =>
    cases hes
    obtain ⟨rfl, -⟩ := plain_map.1 (hv.plain _ hu)
    exact ⟨_, hu, hx⟩
  | _ => cases hes

/-- An entry of a plain table is plain. -/
theorem Valid.plain_entry {x : Tree} (hv : Valid s) (h : s.entry? k = some x) : Plain x := by
  obtain ⟨es, htable, hx⟩ := State.has_of_entry? hv h
  exact ((plain_map.1 (hv.plain _ htable)).2.2 _ (Entries.mem_of_at? hx)).2

section

variable (hhas : s.Has es) (htable : s'.table = some (.map none (es.put k t)))
include hhas htable

theorem entry?_put (l : Scalar) : s'.entry? l = if l = k then some t else s.entry? l := by
  rw [State.Has.entry? (.inl htable), hhas.entry?]
  split
  · subst l
    exact Entries.at?_put_self _ _ _
  · exact Entries.at?_put_ne ‹_› _ _

theorem settled_put (hdone : Done t) {todo : Scalar → Prop}
    (h : Settled (fun l => todo l ∨ l = k) s) : Settled todo s' := by
  intro l x hx hl
  rw [entry?_put hhas htable] at hx
  split at hx
  · cases hx
    exact hdone
  · exact h l x hx fun h => h.elim hl ‹_›

theorem alters_put : Alters s.table s'.table := by
  refine .inr ⟨fun u hu => ?_, _, htable, rfl⟩
  rcases hhas with h | ⟨h, -⟩ <;> cases h.symm.trans hu
  rfl

theorem plain_table_put (hp : Plain (.map none es) → Plain (.map none (es.put k t))) (hv : Valid s) :
    ∀ u, s'.table = some u → Plain u := by
  intro u hu
  cases htable.symm.trans hu
  refine hp ?_
  rcases hhas with h | ⟨-, rfl⟩
  · exact hv.plain _ h
  · simp [Distinct]

end

/-- The table with a schema under a new name. -/
theorem adds_put {name : String} (hhas : s.Has es) (hnew : .text name ∉ es.keys)
    (htable : s'.table = some (.map none (es.put (.text name) t)))
    (hcreated : s'.created = name :: s.created) (hopen : s.home ≠ .other) (hhome : s'.home = .map)
    (hrecords : s'.records = s.records)
    (hp : Plain (.map none es) → Plain (.map none (es.put (.text name) t))) (hgiven : Given t) :
    Adds s s' ∧ s'.Held name t := by
  have hentry := entry?_put hhas htable
  have hkeeps : ∀ k x, s.entry? k = some x → s'.entry? k = some x := by
    intro k x hx
    rw [hentry, if_neg ?_, hx]
    rintro rfl
    rw [hhas.entry?] at hx
    exact hnew (List.mem_map_of_mem (Entries.mem_of_at? hx))
  have hheld : ∀ n x, s'.Held n x → n = name ∧ x = t ∨ s.Held n x := by
    rintro n x ⟨hn, hx⟩
    rw [hentry] at hx
    by_cases h : n = name
    · subst h
      rw [if_pos rfl] at hx
      exact .inl ⟨rfl, (Option.some.inj hx).symm⟩
    · rw [if_neg (by simpa using h)] at hx
      rw [hcreated] at hn
      exact .inr ⟨(List.mem_cons.1 hn).resolve_left h, hx⟩
  refine ⟨⟨⟨?_, fun hne => absurd hhome hne, alters_put hhas htable, ⟨[name], hcreated, ?_⟩,
    fun n x hh => ⟨hcreated ▸ List.mem_cons_of_mem _ hh.1, hkeeps _ _ hh.2⟩,
    fun k x hx => ⟨x, hkeeps k x hx, .inl rfl⟩, fun hv => ⟨hrecords.trans hv.records,
      plain_table_put hhas htable hp hv, fun n x hh => ?_⟩,
    fun todo hset => settled_put hhas htable hgiven.toDone fun k x hx hk =>
      hset k x hx fun h => hk (.inl h)⟩, hkeeps⟩, hcreated ▸ List.mem_cons_self, by rw [hentry, if_pos rfl]⟩
  · cases hs : s.home with
    | absent => exact .inr ⟨rfl, hhome, htable ▸ Option.some_ne_none _⟩
    | map => exact .inl hhome
    | other => exact absurd hs hopen
  · rw [State.Has.keys (.inl htable), hhas.keys, Entries.keys, Entries.put_of_notMem t hnew,
      List.map_append]
    rfl
  · rcases hheld n x hh with ⟨-, rfl⟩ | hh
    · exact hgiven
    · exact hv.given n x hh

/-- The table with what naming has made of one of its schemas. -/
theorem later_put {x : Tree} (htable : s.table = some (.map none es)) (hx : es.at? k = some x)
    (htable' : s'.table = some (.map none (es.put k t))) (hcreated : s'.created = s.created)
    (hhome : s'.home = s.home) (hrecords : s'.records = s.records) (hv : Valid s)
    (hpx : Plain x) (hn : Names s.Held .own x t) (hdone : Done t) : Later s s' := by
  have hhas : s.Has es := .inl htable
  have hentry := entry?_put hhas htable'
  have hkey : k ∈ es.map (·.1) := List.mem_map_of_mem (Entries.mem_of_at? hx)
  -- A schema under a name that was given has nothing left to be named.
  have hstays : ∀ name, k = .text name → name ∈ s.created → t = x := by
    rintro name rfl hname
    exact hn.eq_of_prepared trivial hpx (hv.given name x ⟨hname, hhas.entry? _ ▸ hx⟩).prepared
  have hheld : ∀ name y, s.Held name y → s'.Held name y := by
    rintro name y ⟨hname, hy⟩
    refine ⟨hcreated ▸ hname, ?_⟩
    rw [hentry]
    split
    · rename_i hk
      subst hk
      rw [hhas.entry?, hx] at hy
      rw [hstays name rfl hname, ← hy]
    · exact hy
  refine ⟨.inl hhome, fun _ => hcreated, alters_put hhas htable', ⟨[], hcreated, ?_⟩, hheld, fun l y hy => ?_,
    fun hv => ⟨hrecords.trans hv.records, plain_table_put hhas htable' (fun hp =>
      Entries.plain_put hp hkey (hn.plain hpx)) hv, ?_⟩,
    fun todo hset => settled_put hhas htable' hdone fun k x hx hk => hset k x hx fun h => hk (.inl h)⟩
  · rw [State.Has.keys (.inl htable'), hhas.keys, Entries.keys, Entries.keys_put_of_mem t hkey,
      List.map_nil, List.append_nil]
    rfl
  · rw [hentry]
    split
    · subst l
      rw [hhas.entry?, hx] at hy
      cases hy
      exact ⟨t, rfl, .inr (hn.mono hheld)⟩
    · exact ⟨y, hy, .inl rfl⟩
  · rintro name y ⟨hname, hy⟩
    rw [hcreated] at hname
    rw [hentry] at hy
    split at hy
    · rename_i hk
      subst hk
      cases hy
      rw [hstays name rfl hname]
      exact hv.given name x ⟨hname, hhas.entry? _ ▸ hx⟩
    · exact hv.given name y ⟨hname, hy⟩

/-! ## Adding a schema -/

/-- A schema is added under a name of its own. -/
theorem addSchema_run {wish name : String} (hv : Valid s) (hp : Plain t) (hgiven : Given t)
    (h : addSchema wish t s = (.ok name, s')) : Adds s s' ∧ s'.Held name t := by
  obtain ⟨_, _, hget, h⟩ := bind_run.1 h
  obtain ⟨rfl, rfl⟩ := get_run.1 hget
  split at h
  · cases (pure_run.1 h).1
  rename_i hopen
  obtain ⟨table, s₁, h₁, h⟩ := bind_run.1 h
  rw [presentTable_run hv.records] at h₁
  cases h₁
  obtain ⟨_, s₂, h₂, h⟩ := bind_run.1 h
  replace h₂ := modify_run.1 h₂
  obtain ⟨es, hes, hplain, hhas⟩ : ∃ es : Entries, s.table.getD (.map none []) = .map none es ∧
      Plain (.map none es) ∧ s.Has es := by
    cases htable : s.table with
    | none => exact ⟨[], rfl, by simp [Distinct], .inr ⟨htable, rfl⟩⟩
    | some u =>
      have hplain := hv.plain _ htable
      cases u with
      | map a es =>
        obtain ⟨rfl, -⟩ := plain_map.1 hplain
        exact ⟨es, rfl, hplain, .inl htable⟩
      | _ =>
        rw [htable] at h
        cases (pure_run.1 h).1
  rw [hes] at h
  obtain ⟨_, s₃, h₃, h⟩ := bind_run.1 h
  replace h₃ := setTable_run (Entries.plain_set hplain hp) h₃
  obtain ⟨_, s₄, h₄, h⟩ := bind_run.1 h
  replace h₄ := modify_run.1 h₄
  obtain ⟨he, rfl⟩ := pure_run.1 h
  cases he
  have hname := Text.uniqueName_notMem wish (namesIn es)
  refine adds_put hhas (fun hm => hname (mem_namesIn.2 hm)) ?_ ?_ hopen ?_ ?_
    (fun hes => Entries.plain_set hes hp) hgiven
  · rw [← h₄, h₃]
    rfl
  · rw [← h₄, h₃, ← h₂]
  · rw [← h₄, h₃, ← h₂]
  · rw [← h₄, h₃, ← h₂]

/-! ## Visits -/

/-- What is known of a tree that is visited in a role. -/
def Knows : Role → Tree → Prop
  | .schema, t | .properties, t => t.isMap = true
  | .alternatives _, t => t.isMap = true ∨ t.isList = true
  | .parts, t => t.isList = true

/-- What a visit in a role makes of a tree. -/
def Makes (held : String → Tree → Prop) : Role → Tree → Tree → Bool → Prop
  | .schema, .map a es, t', b => Names held .own (.map a es) t' ∧
    (Reference.ofEntries? es = none → b = needsName es ∧
      (needsName es = false → Names held .inline (.map a es) t'))
  | .properties, .map a es, t', _ => Names held .properties (.map a es) t'
  | .alternatives _, .map a es, t', _ => Names held .alternatives (.map a es) t'
  | .alternatives _, .list a ts, t', _ => Names held .alternatives (.list a ts) t'
  | .parts, .list a ts, t', _ => Names held .parts (.list a ts) t'
  | _, _, _, _ => True

/-- A visit makes of a tree what naming may make of it, and another visit then changes nothing. -/
def Visits (t : Tree) (visit : Visit) : Prop :=
  ∀ role context s t' b s', visit role context s = ((t', .ok b), s') → Plain t → Knows role t →
    Valid s → Adds s s' ∧ Makes s'.Held role t t' b ∧ Still role t' b

theorem noReference_of_skips {a : Anchor} {es : Entries} (h : Stand.own.skips (.map a es) = false) :
    Reference.ofEntries? es = none := by
  simpa [Stand.skips, Reference.isReference, Reference.ofTree?, Tree.isMap, Tree.entries?] using h

/-- A schema that is no reference becomes none. -/
theorem Names.direct {held : String → Tree → Prop} {a : Anchor} {es : Entries}
    (h : Names held .own (.map a es) t') (hr : Reference.ofEntries? es = none) :
    Reference.ofTree? t' = none := by
  cases h with
  | same => exact hr
  | map hst hk hes =>
    obtain ⟨kind, hf⟩ := hst
    exact (alike_of_names hf.kind (.inl rfl) hk hes).ofEntries?.trans hr

/-- What naming makes of a schema that stands inline. -/
theorem named_run {visit : Visit} {context : String} (hvisit : Visits t visit) (hp : Plain t)
    (h : named t visit context s = ((t', .ok ()), s')) (hv : Valid s) :
    Adds s s' ∧ Names s'.Held .inline t t' ∧ Rests t' := by
  cases hskip : Stand.inline.skips t with
  | true =>
    rw [named_of_skips hskip] at h
    obtain ⟨he, rfl⟩ := pure_run.1 h
    cases he
    exact ⟨.refl _, .same hskip, .inl hskip⟩
  | false =>
    rw [named, if_neg (by simpa [Stand.skips] using hskip)] at h
    obtain ⟨⟨u, r⟩, s₁, h₁, h⟩ := bind_run.1 h
    cases t with
    | map a es =>
      have hr := noReference_of_skips hskip
      cases r with
      | error f => cases (pure_run.1 h).1
      | ok b =>
        obtain ⟨hl, ⟨hn, hmakes⟩, hstill⟩ := hvisit _ _ _ _ _ _ h₁ hp rfl hv
        obtain ⟨rfl, hinline⟩ := hmakes hr
        cases hneeds : needsName es with
        | false =>
          rw [hneeds] at h
          obtain ⟨he, rfl⟩ := pure_run.1 h
          cases he
          exact ⟨hl, hinline hneeds, .inr (hneeds ▸ hstill)⟩
        | true =>
          rw [hneeds] at h
          obtain ⟨r, s₂, h₂, h⟩ := bind_run.1 h
          cases r with
          | error f => cases (pure_run.1 h).1
          | ok name =>
            obtain ⟨he, rfl⟩ := pure_run.1 h
            cases he
            have hgiven : Given u := ⟨⟨hn.prepared hp, fun _ => ⟨_, hstill⟩⟩, hn.isMap, hn.direct hr⟩
            obtain ⟨hl', hheld⟩ := addSchema_run (hl.valid hv) (hn.plain hp) hgiven h₂
            exact ⟨hl.trans hl', .moved (hn.later hl'.toLater) hr hneeds hheld, .inl (by
              simp [Stand.skips, Reference.isReference, Reference.ofTree?_asTree])⟩
    | _ => cases hskip

end ApiContract.Naming
