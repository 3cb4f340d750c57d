import ApiContract.Proofs.Naming.Outcome

/-!
# The positions of a description

`positions t st`: the positions that naming goes through from a tree that stands as `st`, with what
stands there, from the outside in.

* `prepared_positions`: at every position of a prepared tree stands a prepared one.
* `prepared_document`: a named description is prepared as a whole.
-/

namespace ApiContract.Naming

open Tree

/-- The positions that are gone through from a tree on. -/
def positions (t : Tree) : Stand → List (Stand × Tree) :=
  t.para {
    scalar s st := [(st, .scalar s)]
    list a items st :=
      let whole := Tree.list a (items.map (·.1))
      (st, whole) :: if st.skips whole then [] else items.flatMap fun i => i.2 st.item
    map a entries st :=
      let es := entries.map fun e => (e.1, e.2.1)
      (st, .map a es) ::
        if st.skips (.map a es) then [] else entries.flatMap fun e => e.2.2 (st.part es e.1)
    set a ms st := [(st, .set a ms)]
    pair x y st := [(st, .pair x.1 y.1)]
    back a isMap st := [(st, .back a isMap)] }

variable {st st' : Stand} {t x : Tree} {a : Anchor} {es : Entries} {ts : List Tree}

theorem positions_list (a : Anchor) (ts : List Tree) (st : Stand) :
    positions (.list a ts) st = (st, .list a ts) ::
      if st.skips (.list a ts) then [] else ts.flatMap fun t => positions t st.item := by
  simp only [positions, para, paraItems_eq, List.map_map, Function.comp_def, List.map_id',
    List.flatMap_map]

theorem positions_map (a : Anchor) (es : Entries) (st : Stand) :
    positions (.map a es) st = (st, .map a es) ::
      if st.skips (.map a es) then [] else es.flatMap fun e => positions e.2 (st.part es e.1) := by
  simp only [positions, para, paraEntries_eq, List.map_map, Function.comp_def, List.map_id',
    List.flatMap_map]

theorem mem_positions_self (t : Tree) (st : Stand) : (st, t) ∈ positions t st := by
  cases t with
  | list => rw [positions_list]; exact List.mem_cons_self
  | map => rw [positions_map]; exact List.mem_cons_self
  | _ => exact List.mem_cons_self

/-- A position further in is the tree's own or one of a part. -/
theorem mem_positions {p : Stand × Tree} (h : p ∈ positions t st) :
    p = (st, t) ∨ st.skips t = false ∧
      ((∃ a ts, t = .list a ts ∧ ∃ x ∈ ts, p ∈ positions x st.item) ∨
        ∃ a es, t = .map a es ∧ ∃ e ∈ es, p ∈ positions e.2 (st.part es e.1)) := by
  cases t with
  | list a ts =>
    rw [positions_list, List.mem_cons] at h
    refine h.imp_right fun h => ?_
    split at h
    · exact absurd h List.not_mem_nil
    · exact ⟨Bool.eq_false_iff.2 ‹_›, .inl ⟨a, ts, rfl, List.mem_flatMap.1 h⟩⟩
  | map a es =>
    rw [positions_map, List.mem_cons] at h
    refine h.imp_right fun h => ?_
    split at h
    · exact absurd h List.not_mem_nil
    · exact ⟨Bool.eq_false_iff.2 ‹_›, .inr ⟨a, es, rfl, List.mem_flatMap.1 h⟩⟩
  | _ => exact .inl (List.mem_singleton.1 h)

theorem mem_positions_item (hs : st.skips (.list a ts) = false) (hx : x ∈ ts) {p : Stand × Tree}
    (hp : p ∈ positions x st.item) : p ∈ positions (.list a ts) st := by
  rw [positions_list, hs]
  exact List.mem_cons_of_mem _ (List.mem_flatMap.2 ⟨x, hx, hp⟩)

theorem mem_positions_entry (hs : st.skips (.map a es) = false) {e : Scalar × Tree} (he : e ∈ es)
    {p : Stand × Tree} (hp : p ∈ positions e.2 (st.part es e.1)) : p ∈ positions (.map a es) st := by
  rw [positions_map, hs]
  exact List.mem_cons_of_mem _ (List.mem_flatMap.2 ⟨e, he, hp⟩)

/-- The positions from a position on are positions. -/
theorem positions_trans (t : Tree) : ∀ {st : Stand} {p q : Stand × Tree}, p ∈ positions t st →
    q ∈ positions p.2 p.1 → q ∈ positions t st := by
  induction t using Tree.induct with
  | list a ts ih =>
    intro st p q hp hq
    rcases mem_positions hp with rfl | ⟨hs, ⟨_, _, ⟨⟩, x, hx, hp⟩ | ⟨_, _, ⟨⟩, _⟩⟩
    · exact hq
    · exact mem_positions_item hs hx (ih x hx hp hq)
  | map a es ih =>
    intro st p q hp hq
    rcases mem_positions hp with rfl | ⟨hs, ⟨_, _, ⟨⟩, _⟩ | ⟨_, _, ⟨⟩, e, he, hp⟩⟩
    · exact hq
    · exact mem_positions_entry hs he (ih e he hp hq)
  | _ =>
    intro st p q hp hq
    rcases mem_positions hp with rfl | ⟨-, ⟨_, _, ⟨⟩, _⟩ | ⟨_, _, ⟨⟩, _⟩⟩
    exact hq

theorem position_item {u : Tree} (h : (st', .list a ts) ∈ positions u st)
    (hs : st'.skips (.list a ts) = false) (hx : x ∈ ts) : (st'.item, x) ∈ positions u st :=
  positions_trans u h (mem_positions_item hs hx (mem_positions_self x _))

theorem position_entry {u : Tree} (h : (st', .map a es) ∈ positions u st)
    (hs : st'.skips (.map a es) = false) {e : Scalar × Tree} (he : e ∈ es) :
    (st'.part es e.1, e.2) ∈ positions u st :=
  positions_trans u h (mem_positions_entry hs he (mem_positions_self e.2 _))

/-! ## Prepared positions -/

/-- At every position of a prepared tree stands a prepared one. -/
theorem prepared_positions (t : Tree) : ∀ {st : Stand} {p : Stand × Tree}, Prepared st t →
    p ∈ positions t st → Prepared p.1 p.2 := by
  induction t using Tree.induct with
  | list a ts ih =>
    intro st p h hp
    rcases mem_positions hp with rfl | ⟨hs, ⟨_, _, ⟨⟩, x, hx, hp⟩ | ⟨_, _, ⟨⟩, _⟩⟩
    · exact h
    · exact ih x hx (h.item hs hx) hp
  | map a es ih =>
    intro st p h hp
    rcases mem_positions hp with rfl | ⟨hs, ⟨_, _, ⟨⟩, _⟩ | ⟨_, _, ⟨⟩, e, he, hp⟩⟩
    · exact h
    · exact ih e he (h.entry hs he) hp
  | _ =>
    intro st p h hp
    rcases mem_positions hp with rfl | ⟨-, ⟨_, _, ⟨⟩, _⟩ | ⟨_, _, ⟨⟩, _⟩⟩
    exact h

/-! ## The named description -/

/-- Another table of schemas, which is gone through by itself. -/
theorem prepared_schemas (h : Prepared (.object .components) (.map a es)) (u : Tree) :
    Prepared (.object .components) (.map a (es.set "schemas" u)) := by
  cases h with
  | skip hs =>
    have href : Reference.ofEntries? (es.set "schemas" u) = Reference.ofEntries? es := by
      rw [Reference.ofEntries?, Reference.ofEntries?, Entries.get?_eq_at?, Entries.get?_eq_at?,
        Entries.set, Entries.at?_put_ne (by decide)]
    refine .skip ?_
    simpa only [Stand.skips, Reference.isReference, Reference.ofTree?, Tree.isMap, Tree.entries?,
      Option.isSome_some, Option.bind_some, href] using hs
  | map _ hes =>
    refine .map trivial fun e he => ?_
    rcases Entries.mem_put he with rfl | he
    · exact .skip rfl
    · exact hes e he

theorem prepared_withTable (home : Home) (table : Option Tree) (h : Prepared .document t) :
    Prepared .document (withTable home table t) := by
  have hput : ∀ {a : Anchor} {es : Entries} {x : Tree}, t = .map a es →
      Prepared (.object .components) x → Prepared .document (.map a (es.set "components" x)) := by
    rintro a es x rfl hx
    refine .map trivial fun e he => ?_
    rcases Entries.mem_put he with rfl | he
    · exact hx
    · exact h.entry rfl he
  cases t with
  | map a es =>
    simp only [withTable]
    split
    · rename_i hcomponents
      split
      · exact hput rfl (prepared_schemas (h.entry rfl (Entries.mem_of_at? hcomponents)) _)
      · exact h
    · refine hput rfl (.map trivial fun e he => ?_)
      obtain ⟨f, hf, rfl⟩ := List.mem_map.1 he
      obtain ⟨u, -, rfl⟩ := Option.map_eq_some_iff.1 (Option.mem_toList.1 hf)
      exact .skip rfl
    · exact h
  | _ => exact h

/-- In a named description nothing that needs a name stands inline. -/
theorem prepared_document (hp : Plain t) (h : (nameSchemas t).result = .ok ()) :
    Prepared .document (nameSchemas t).document := by
  obtain ⟨s, he⟩ := ends_nameSchemas hp h
  obtain ⟨t', hn, hout⟩ := he.names
  rw [hout]
  exact prepared_withTable _ _ (hn.prepared hp)

end ApiContract.Naming
