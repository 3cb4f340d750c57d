import ApiContract.Proofs.Inline.Consult

/-!
# Chains of foreign references

A `Chain` goes from a position into the targets of foreign references, each of which is met in the target
before. What `follow` is asked on a path is answered only if no chain from there meets a target twice
(`nodup_of_answered`), and leads to a cycle only along a chain that does (`chain_of_cyclic`).

All targets of chains are candidates (`mem_candidates`), so that nothing but what is on the path can stop
`follow`: followed to a depth above their number without asking for candidates, references are answered
alike (`followWithin_eq`).
-/

namespace ApiContract.Inline

open Tree Walk

/-- The targets of foreign references that lie within each other: the first reference is met in a tree, each
other one in the target before it. -/
inductive Chain (library : Library) (root : Place) : Place → Spot → Tree → List Marker → Prop
  | nil {doc : Place} {spot : Spot} {t : Tree} : Chain library root doc spot t []
  | cons {doc : Place} {spot : Spot} {t : Tree} {kind : Kind} {r : String} {res : Library.Resolved}
      {markers : List Marker} : Met spot t kind r → library.resolve doc r = .ok res → res.path ≠ root →
      Chain library root res.path (.visited kind) res.target.tree markers →
      Chain library root doc spot t (⟨res.path, res.pointer⟩ :: markers)

/-! ## Where references lead -/

/-- No failure to find a target is a cycle. -/
def Findable (library : Library) : Prop :=
  ∀ doc r chain, library.resolve doc r ≠ .error (.inliningCycle chain)

theorem split_ne_cycle {r : String} {chain : List (String × String)} :
    Reference.split r ≠ .error (.inliningCycle chain) := by
  intro h
  unfold Reference.split at h
  split at h
  · split at h <;> cases h
  · cases h

theorem follow_ne_cycle {r : String} {chain : List (String × String)} :
    ∀ {segments : List String} {t : Tree} {walked : List String} {name : String},
      Reference.follow r segments t walked name ≠ .error (.inliningCycle chain)
  | [], t, walked, name, h => by
    cases t with
    | map a es =>
      simp only [Reference.follow] at h
      split at h <;> cases h
    | _ => cases h
  | segment :: segments, t, walked, name, h => by
    simp only [Reference.follow] at h
    split at h
    · cases h
    · split at h
      · cases h
      · exact follow_ne_cycle h

/-- Failures to find a target are no cycles if those of the documents are none. -/
theorem findable {library : Library}
    (h : ∀ e ∈ library, ∀ chain, e.2 ≠ .error (.inliningCycle chain)) : Findable library := by
  intro doc r chain hres
  simp only [Library.resolve, bind, Except.bind] at hres
  split at hres
  · rename_i e he
    cases hres
    exact split_ne_cycle he
  split at hres
  · cases hres
  split at hres
  · rename_i e he
    cases hres
    rw [Library.get] at he
    split at he
    · rename_i heq
      exact h _ (List.mem_of_find?_eq_some heq) chain he
    · cases he
  split at hres
  · rename_i e he
    cases hres
    exact follow_ne_cycle he
  · cases hres

/-! ## Candidates -/

theorem texts_map {a : Anchor} {es : Entries} : texts (.map a es) = es.flatMap fun e => texts e.2 := by
  simp only [texts, para, paraEntries_eq, List.flatMap_map]

theorem texts_list {a : Anchor} {ts : List Tree} : texts (.list a ts) = ts.flatMap texts := by
  simp only [texts, para, paraItems_eq, List.flatMap_map]

/-- The references that a visit meets are among the texts of a tree. -/
theorem mem_texts_of_met {t : Tree} {spot : Spot} {kind : Kind} {r : String}
    (h : Met spot t kind r) : r ∈ texts t := by
  induction t using Tree.induct generalizing spot with
  | map a es ih =>
    rw [texts_map, List.mem_flatMap]
    cases hr : spot.refers (.map a es) with
    | none =>
      obtain ⟨k, x, hx, hm⟩ := (met_map hr).1 h
      have hmem := Entries.mem_of_at? hx
      exact ⟨_, hmem, ih _ hmem hm⟩
    | some y =>
      obtain ⟨-, rfl⟩ := (met_of_refers hr).1 h
      rcases Spot.refers_eq_some hr with ⟨-, -, href⟩ | ⟨-, -, he, -⟩
      · rw [Reference.ofTree?_map, Option.bind_eq_some_iff] at href
        obtain ⟨x, hx, href⟩ := href
        refine ⟨_, Entries.mem_of_at? hx, ?_⟩
        cases x with
        | scalar s =>
          cases s with
          | text s =>
            cases href
            exact List.mem_singleton_self _
          | _ => cases href
        | _ => cases href
      · cases he
  | list a ts ih =>
    rw [texts_list, List.mem_flatMap]
    obtain ⟨t, ht, hm⟩ := met_list.1 h
    exact ⟨t, ht, ih t ht hm⟩
  | scalar s =>
    cases hr : spot.refers (.scalar s) with
    | none => exact absurd h (not_met_leaf hr rfl rfl)
    | some y =>
      obtain ⟨-, rfl⟩ := (met_of_refers hr).1 h
      rcases Spot.refers_eq_some hr with ⟨-, -, href⟩ | ⟨-, -, he, -⟩
      · cases href
      · cases he
        exact List.mem_singleton_self _
  | _ =>
    cases hr : spot.refers _ with
    | none => exact absurd h (not_met_leaf hr rfl rfl)
    | some y =>
      rcases Spot.refers_eq_some hr with ⟨-, -, href⟩ | ⟨-, -, he, -⟩
      · cases href
      · cases he

/-- The texts of what keys lead to are texts of the tree. -/
theorem texts_down : ∀ {keys : List String} {t x : Tree}, t.down? keys = some x → texts x ⊆ texts t
  | [], t, x, h => by
    cases h
    exact fun _ h => h
  | key :: keys, t, x, h => by
    obtain ⟨y, hy, hyx⟩ := Option.bind_eq_some_iff.1 h
    cases t with
    | map a es =>
      intro r hr
      rw [texts_map, List.mem_flatMap]
      exact ⟨_, Entries.mem_of_at? hy, texts_down hyx hr⟩
    | _ => cases hy

theorem mem_documents {library : Library} {p : Place} {d : Tree}
    (h : library.get p = .ok d) : (p, d) ∈ library.documents := by
  rw [Library.get] at h
  split at h
  · rename_i q document heq
    have hp : q = p := by simpa using List.find?_some heq
    subst hp h
    exact List.mem_filterMap.2 ⟨_, List.mem_of_find?_eq_some heq, rfl⟩
  · cases h

/-- What a text of a document leads to is a candidate. -/
theorem mem_candidates {library : Library} {doc : Place} {d : Tree} {r : String}
    {res : Library.Resolved} (hd : library.get doc = .ok d) (hr : r ∈ texts d)
    (hres : library.resolve doc r = .ok res) : ⟨res.path, res.pointer⟩ ∈ candidates library := by
  obtain ⟨other, fragment, d', hsplit, hpath, hpointer, hd', -⟩ :=
    Library.target?_eq_some.1 (Library.target?_of_resolve hres)
  have hmem : res.pointer ∈ pointers d := by
    refine List.mem_flatMap.2 ⟨r, hr, ?_⟩
    rw [hsplit, hpointer]
    exact List.mem_cons_self
  refine List.mem_flatMap.2 ⟨(res.path, d'), mem_documents hd', List.mem_map.2 ⟨_, ?_, rfl⟩⟩
  exact List.mem_eraseDups.2 (List.mem_flatMap.2 ⟨(doc, d), mem_documents hd, hmem⟩)

variable {st : Setting}

/-! ## What following a reference does -/

/-- Looking a name up changes nothing, and finds no cycle. -/
theorem schemaNamed_keeps {name : String} {s s' : State} {a : Except Failure (Option Tree)}
    (hs : s.records = []) (h : schemaNamed name s = (a, s')) :
    s' = s ∧ ∀ chain, a ≠ .error (.inliningCycle chain) := by
  obtain ⟨s₁, _, h₁, h⟩ := bind_run.1 h
  obtain ⟨rfl, rfl⟩ := get_run.1 h₁
  cases hlookup : s.added.lookup name with
  | some u =>
    simp only [hlookup] at h
    obtain ⟨rfl, rfl⟩ := pure_run.1 h
    exact ⟨rfl, nofun⟩
  | none =>
    cases hcomponents : s.components with
    | some u =>
      simp only [hlookup, hcomponents] at h
      obtain ⟨rfl, rfl⟩ := pure_run.1 h
      exact ⟨rfl, nofun⟩
    | none =>
      simp only [hlookup, hcomponents] at h
      rw [bind_of_run (presentTable_run hs)] at h
      obtain ⟨rfl, rfl⟩ := pure_run.1 h
      exact ⟨rfl, nofun⟩

/-- Placing a schema leaves the table, and finds no cycle. -/
theorem placeSchema_keeps {name : String} {t : Tree} {s s' : State} {a : Except Failure Tree}
    {table : Option Tree} (hs : At table s) (h : placeSchema name t s = (a, s')) :
    At table s' ∧ ∀ chain, a ≠ .error (.inliningCycle chain) := by
  obtain ⟨named, s₁, h₁, h⟩ := bind_run.1 h
  obtain ⟨rfl, hnamed⟩ := schemaNamed_keeps hs.1 h₁
  cases named with
  | error e =>
    obtain ⟨rfl, rfl⟩ := pure_run.1 h
    exact ⟨hs, fun chain he => hnamed chain (by cases he; rfl)⟩
  | ok found =>
    cases found with
    | none =>
      obtain ⟨_, s₂, h₂, h⟩ := bind_run.1 h
      obtain ⟨rfl, rfl⟩ := pure_run.1 h
      cases modify_run.1 h₂
      exact ⟨hs, nofun⟩
    | some existing =>
      obtain ⟨_, s₂, h₂, h⟩ := bind_run.1 h
      rw [present_run hs.1] at h₂
      cases h₂
      obtain ⟨_, s₂, h₂, h⟩ := bind_run.1 h
      rw [present_run hs.1] at h₂
      cases h₂
      obtain ⟨rfl, rfl⟩ := pure_run.1 h
      exact ⟨hs, nofun⟩

/-- What `follow` has done. -/
inductive Followed (st : Setting) (path : List Marker) (doc : Place) (kind : Kind) (r : String)
    (s : State) : Except Failure Tree → State → Prop
  | missing {e : Failure} : st.library.resolve doc r = .error e →
      Followed st path doc kind r s (.error e) s
  | home {res : Library.Resolved} : st.library.resolve doc r = .ok res → res.path = st.root →
      Followed st path doc kind r s (.ok (localReference res.pointer)) s
  | again {res : Library.Resolved} : st.library.resolve doc r = .ok res → res.path ≠ st.root →
      ⟨res.path, res.pointer⟩ ∈ path → Followed st path doc kind r s
        (.error (.inliningCycle (chainOf (path ++ [⟨res.path, res.pointer⟩])))) s
  | unknown {res : Library.Resolved} : st.library.resolve doc r = .ok res →
      ⟨res.path, res.pointer⟩ ∉ st.targets → Followed st path doc kind r s (.error .malformed) s
  | failed {res : Library.Resolved} {t : Tree} {e : Failure} {s₁ : State} :
      st.library.resolve doc r = .ok res → res.path ≠ st.root → ⟨res.path, res.pointer⟩ ∉ path →
      ⟨res.path, res.pointer⟩ ∈ st.targets →
      walk (visitor (follow st (path ++ [⟨res.path, res.pointer⟩]) res.path)) st.sharedDepth
        res.target.tree kind s = ((t, .error e), s₁) → Followed st path doc kind r s (.error e) s₁
  | walked {res : Library.Resolved} {t : Tree} {s₁ : State} {a : Except Failure Tree} {s' : State} :
      st.library.resolve doc r = .ok res → res.path ≠ st.root → ⟨res.path, res.pointer⟩ ∉ path →
      ⟨res.path, res.pointer⟩ ∈ st.targets →
      walk (visitor (follow st (path ++ [⟨res.path, res.pointer⟩]) res.path)) st.sharedDepth
        res.target.tree kind s = ((t, .ok ()), s₁) →
      (placeSchema res.target.name t s₁ = (a, s') ∨ a = .ok t ∧ s₁ = s') →
      Followed st path doc kind r s a s'

variable (hdocs : ∀ p d, st.library.get p = .ok d → Plain d)
include hdocs

theorem followed_follow {path : List Marker} {doc : Place} {kind : Kind} {r : String} {s s' : State}
    {a : Except Failure Tree} (h : follow st path doc kind r s = (a, s')) :
    Followed st path doc kind r s a s' := by
  rw [follow] at h
  cases hres : st.library.resolve doc r with
  | error e =>
    rw [hres] at h
    obtain ⟨rfl, rfl⟩ := pure_run.1 h
    exact .missing hres
  | ok res =>
    simp only [hres] at h
    by_cases hroot : res.path = st.root
    · simp only [if_pos hroot] at h
      obtain ⟨rfl, rfl⟩ := pure_run.1 h
      exact .home hres hroot
    simp only [if_neg hroot] at h
    split at h
    · obtain ⟨rfl, rfl⟩ := pure_run.1 h
      exact .again hres hroot ‹_›
    rename_i hpath
    split at h
    · rename_i hmem
      have hp := plain_target hdocs (Library.target?_of_resolve hres)
      obtain ⟨target, s₁, h₁, h⟩ := bind_run.1 h
      rw [copy_run hp] at h₁
      cases h₁
      obtain ⟨⟨t, e⟩, s₁, h₁, h⟩ := bind_run.1 h
      cases e with
      | error e =>
        obtain ⟨rfl, rfl⟩ := pure_run.1 h
        exact .failed hres hroot hpath hmem h₁
      | ok =>
        refine .walked hres hroot hpath hmem h₁ ?_
        cases kind with
        | schema => exact .inl h
        | _ => exact .inr ((pure_run.1 h).imp Eq.symm id)
    · obtain ⟨rfl, rfl⟩ := pure_run.1 h
      exact .unknown hres ‹_›

/-- The target of a foreign reference is plain and no reference. -/
theorem asks_target {doc : Place} {r : String} {res : Library.Resolved}
    (hres : st.library.resolve doc r = .ok res) (table : Option Tree) (kind : Kind) :
    Asks table (Met (.visited kind) res.target.tree) fun f =>
      walk (visitor f.answer) f.bound res.target.tree kind :=
  have htarget := Library.target?_of_resolve hres
  asks_walk (plain_target hdocs htarget) kind
    (Spot.refers_visited_eq_none (Library.ofTree?_target htarget))

/-- What following references is given. -/
def answers (st : Setting) (path : List Marker) (doc : Place) : Answers :=
  ⟨st.sharedDepth, follow st path doc⟩

theorem keeps_answers : ∀ (path : List Marker) (doc : Place), Keeps (answers st path doc) := by
  intro path
  induction hm : unvisited st.targets path using Nat.strongRecOn generalizing path with
  | ind m ih =>
    intro doc kind r s a s' table h hs
    cases followed_follow hdocs h with
    | failed hres _ hpath hmem hwalk =>
      exact ((asks_target hdocs hres table kind).error
        (ih _ (hm ▸ unvisited_append_lt hmem hpath) _ rfl _) hs hwalk).1
    | walked hres _ hpath hmem hwalk hplace =>
      have hs₁ := ((asks_target hdocs hres table kind).ok
        (ih _ (hm ▸ unvisited_append_lt hmem hpath) _ rfl _) hs hwalk).1
      rcases hplace with hplace | ⟨-, rfl⟩
      · exact (placeSchema_keeps hs₁ hplace).1
      · exact hs₁
    | _ => exact hs

/-! ## Chains -/

/-- If everything that is met has been answered, no chain from there meets a target twice. -/
theorem nodup_of_answered {doc : Place} {spot : Spot} {t : Tree} {markers : List Marker}
    (hc : Chain st.library st.root doc spot t markers) : ∀ {path : List Marker}, path.Nodup →
      (∀ kind r, Met spot t kind r → Answered (answers st path doc) kind r) →
        (path ++ markers).Nodup := by
  induction hc with
  | nil => exact fun hn _ => by rwa [List.append_nil]
  | cons hmet hres hroot hrest ih =>
    intro path hn hall
    obtain ⟨s, n, s', hs, h⟩ := hall _ _ hmet
    cases followed_follow hdocs h with
    | home hres' hroot' =>
      cases hres.symm.trans hres'
      exact absurd hroot' hroot
    | walked hres' _ hpath _ hwalk =>
      cases hres.symm.trans hres'
      have hasked := ((asks_target hdocs hres s.table _).ok (keeps_answers hdocs _ _) ⟨hs, rfl⟩ hwalk).2
      rw [List.append_cons]
      exact ih (List.nodup_append_comm.1 (List.nodup_cons.2 ⟨hpath, hn⟩)) hasked

/-- A cycle is found only along a chain that meets a target twice. -/
theorem chain_of_cyclic (hfind : Findable st.library) {chain : List (String × String)} :
    ∀ {path : List Marker} {doc : Place} {spot : Spot} {t : Tree} {kind : Kind} {r : String},
      Met spot t kind r → Cyclic (answers st path doc) kind r chain →
        ∃ markers, Chain st.library st.root doc spot t markers ∧ ¬ (path ++ markers).Nodup ∧
          chain = chainOf (path ++ markers) := by
  intro path
  induction hm : unvisited st.targets path using Nat.strongRecOn generalizing path with
  | ind m ih =>
    intro doc spot t kind r hmet ⟨s, s', hs, h⟩
    cases followed_follow hdocs h with
    | missing hres => exact absurd hres (hfind doc r chain)
    | again hres hroot hmem =>
      refine ⟨_, .cons hmet hres hroot .nil, fun hn => ?_, rfl⟩
      exact (List.nodup_append.1 hn).2.2 _ hmem _ List.mem_cons_self rfl
    | failed hres hroot hpath hmem hwalk =>
      obtain ⟨kind', r', hmet', hcyclic⟩ := ((asks_target hdocs hres s.table kind).error
        (keeps_answers hdocs _ _) ⟨hs, rfl⟩ hwalk).2 chain rfl
      obtain ⟨markers, hc, hn, hchain⟩ := ih _ (hm ▸ unvisited_append_lt hmem hpath) rfl hmet' hcyclic
      rw [← List.append_cons] at hn hchain
      exact ⟨_, .cons hmet hres hroot hc, hn, hchain⟩
    | walked hres _ _ _ hwalk hplace =>
      have hs₁ := ((asks_target hdocs hres s.table kind).ok (keeps_answers hdocs _ _) ⟨hs, rfl⟩ hwalk).1
      rcases hplace with hplace | ⟨ha, -⟩
      · exact absurd rfl ((placeSchema_keeps hs₁ hplace).2 chain)
      · cases ha

/-! ## Following to a depth -/

omit hdocs

/-- Follows references as `follow` does, but asks for no candidates. `cut` answers what lies deeper than that
many targets within each other. -/
def followWithin (library : Library) (root : Place) (bound : Nat)
    (cut : Kind → String → Run (Except Failure Tree)) :
    Nat → List Marker → Place → Kind → String → Run (Except Failure Tree)
  | 0, _, _, kind, reference => cut kind reference
  | depth + 1, path, doc, kind, reference =>
    match library.resolve doc reference with
    | .error f => pure (.error f)
    | .ok resolved =>
      if resolved.path = root then pure (.ok (localReference resolved.pointer))
      else
        let marker := Marker.mk resolved.path resolved.pointer
        if marker ∈ path then pure (.error (.inliningCycle (chainOf (path ++ [marker]))))
        else do
          let target ← copy resolved.target.tree
          let (t, r) ← walk (visitor
            (followWithin library root bound cut depth (path ++ [marker]) resolved.path)) bound target kind
          match r, kind with
          | .error f, _ => return .error f
          | .ok _, .schema => placeSchema resolved.target.name t
          | .ok _, _ => return .ok t

include hdocs in
/-- Below a depth that exceeds the number of candidates, nothing is ever cut off. -/
theorem followWithin_eq (htargets : st.targets = candidates st.library) (bound : Nat)
    (cut : Kind → String → Run (Except Failure Tree)) :
    ∀ {depth : Nat} {path : List Marker} {doc : Place} {d : Tree} {kind : Kind} {r : String} {s : State},
      unvisited st.targets path < depth → st.library.get doc = .ok d → r ∈ texts d → s.records = [] →
        followWithin st.library st.root bound cut depth path doc kind r s = follow st path doc kind r s := by
  intro depth
  induction depth with
  | zero => exact fun h => absurd h (Nat.not_lt_zero _)
  | succ depth ih =>
    intro path doc d kind r s hdepth hd hr hs
    rw [follow, followWithin]
    cases hres : st.library.resolve doc r with
    | error e => rfl
    | ok res =>
      by_cases hroot : res.path = st.root
      · simp only [if_pos hroot]
      by_cases hpath : (⟨res.path, res.pointer⟩ : Marker) ∈ path
      · simp only [if_neg hroot, if_pos hpath, dif_pos hpath]
      have hmem : (⟨res.path, res.pointer⟩ : Marker) ∈ st.targets :=
        htargets ▸ mem_candidates hd hr hres
      obtain ⟨_, _, d', -, -, -, hd', hleads⟩ :=
        Library.target?_eq_some.1 (Library.target?_of_resolve hres)
      simp only [if_neg hroot, if_neg hpath, dif_neg hpath, dif_pos hmem]
      have hcopy := copy_run (s := s) (plain_target hdocs (Library.target?_of_resolve hres))
      rw [bind_of_run hcopy, bind_of_run hcopy]
      have hlt := Nat.lt_of_lt_of_le (unvisited_append_lt hmem hpath) (Nat.le_of_lt_succ hdepth)
      have hwalk := (asks_target hdocs hres s.table kind).congr
        (f := answers st (path ++ [Marker.mk res.path res.pointer]) res.path)
        (g := .mk bound (followWithin st.library st.root bound cut depth
          (path ++ [Marker.mk res.path res.pointer]) res.path))
        (keeps_answers hdocs _ _) ⟨hs, rfl⟩
        fun _ _ hmet _ hs' => (ih hlt hd' (texts_down hleads.1 (mem_texts_of_met hmet)) hs').symm
      rcases hrun : walk (visitor (follow st (path ++ [⟨res.path, res.pointer⟩]) res.path))
        st.sharedDepth res.target.tree kind s with ⟨⟨t, e⟩, s₁⟩
      refine ((bind_of_run (hwalk.symm.trans hrun)).trans ?_).trans (bind_of_run hrun).symm
      cases e with
      | error => rfl
      | ok => cases kind <;> rfl

end ApiContract.Inline
