import ApiContract.Proofs.Inline.Table

/-!
# What schemas are compared with

Whether a foreign schema gets its name is decided by a comparison, and what it is compared with may change
later: the turn of the table's own schema of that name may still be to come. `Seen` says what a name may
have been seen to stand for, as long as its turn is pending and in the end. In the account `comparing`, a
name that is kept or taken has been compared with what it stands for at present. `schemasFrom_turned`
follows the table of schemas: at the turn of a schema, the names that are pending are its own and those of
the schemas after it (`Turned.inlined`).
-/

namespace ApiContract.Inline

open Tree Walk

variable {library : Library} {root : Place} {s s' : State} {name : String} {e n u : Tree}

/-- What the table of schemas has under a name. -/
def declared (s : State) (name : String) : Option Tree := s.table.bind (Tree.get? · name)

/-- What a name stands for if nothing follows. The schemas of the table stay before added ones. -/
def standing (s : State) (name : String) : Option Tree := (declared s name).or (s.added.lookup name)

/-- What holds of every state: schemas are added under names that the table has nothing under. -/
structure Comparable (s : State) : Prop where
  records : s.records = []
  table : ∀ t, s.table = some t → Plain t
  added : ∀ name n, (name, n) ∈ s.added →
    Plain n ∧ (declared s name = none ∨ declared s name = some .null)
  nodup : (s.added.map (·.1)).Nodup

/-- A state that a walk may lead to: names that stand for something keep it. -/
structure Added (s s' : State) : Prop where
  table : s'.table = s.table
  standing : ∀ name e, standing s name = some e → standing s' name = some e
  valid : Comparable s → Comparable s'

theorem Added.refl (s : State) : Added s s := ⟨rfl, fun _ _ h => h, id⟩

theorem Added.trans {s'' : State} (h : Added s s') (h' : Added s' s'') : Added s s'' :=
  ⟨h'.table.trans h.table, fun _ _ hs => h'.standing _ _ (h.standing _ _ hs),
    fun hv => h'.valid (h.valid hv)⟩

theorem Added.declared (h : Added s s') (name : String) : declared s' name = declared s name := by
  rw [Inline.declared, h.table, Inline.declared]

theorem Added.isSome (h : Added s s') (hs : (Inline.standing s name).isSome) :
    (Inline.standing s' name).isSome := by
  obtain ⟨e, he⟩ := Option.isSome_iff_exists.1 hs
  rw [h.standing name e he]
  rfl

section

variable (first : String → Option Tree) (seen : String → Tree → Prop)

/-- The name is seen to stand for the same schema, or it was declared as `null`, which is nothing. -/
def Same (name : String) (n : Tree) : Prop :=
  (∃ e, seen name e ∧ e.same n = true) ∨ first name = some .null

/-- The name is seen to stand for another schema. -/
def Differs (name : String) (n : Tree) : Prop := ∃ e, seen name e ∧ e.same n = false

/-- A scene in which foreign schemas have been compared with what their names were seen to stand for. -/
def compared (library : Library) (root : Place) : Scene :=
  sceneWith library root (Same first seen) (Differs seen)

end

variable {first first' : String → Option Tree} {seen seen' : String → Tree → Prop}

theorem Same.mono (h : Same first seen name n) (hseen : ∀ name e, seen name e → seen' name e)
    (hnull : ∀ name, first name = some .null → first' name = some .null) : Same first' seen' name n :=
  h.imp (fun ⟨e, he, hsame⟩ => ⟨e, hseen _ e he, hsame⟩) (hnull name)

theorem Differs.mono (h : Differs seen name n) (hseen : ∀ name e, seen name e → seen' name e) :
    Differs seen' name n := by
  obtain ⟨e, he, hdiffers⟩ := h
  exact ⟨e, hseen _ e he, hdiffers⟩

/-- More that names are seen to stand for keeps what inlining may make of a tree. -/
theorem compared_mono {doc : Place} {spot : Spot} {t t' : Tree}
    (hi : Inlines (compared first seen library root) doc spot t t') (hs : spot.grows = false)
    (hseen : ∀ name e, seen name e → seen' name e)
    (hnull : ∀ name, first name = some .null → first' name = some .null) :
    Inlines (compared first' seen' library root) doc spot t t' :=
  Inlines.mono (c := compared first seen library root) (d := compared first' seen' library root) rfl rfl
    (fun _ _ h => h.mono hseen hnull) (fun _ _ h => h.mono hseen) hi hs

/-- What a name stands for at present. -/
def Stands (s : State) (name : String) (e : Tree) : Prop := standing s name = some e

/-! ## Placing a schema -/

/-- A name is looked up among the added schemas, then in the table, where `null` is nothing. -/
theorem schemaNamed_cases {found : Option Tree} (hrec : s.records = [])
    (h : schemaNamed name s = (.ok found, s')) : s = s' ∧
      ((∃ e, s.added.lookup name = some e ∧ found = some e) ∨
        s.added.lookup name = none ∧
          ((found = none ∧ (declared s name = none ∨ declared s name = some .null)) ∨
            found.isSome ∧ declared s name = found)) := by
  obtain ⟨_, _, hget, h⟩ := bind_run.1 h
  obtain ⟨rfl, rfl⟩ := get_run.1 hget
  cases hadded : s.added.lookup name with
  | some e =>
    rw [hadded] at h
    obtain ⟨heq, rfl⟩ := pure_run.1 h
    cases heq
    exact ⟨rfl, .inl ⟨e, rfl, rfl⟩⟩
  | none =>
    rw [hadded] at h
    cases hc : s.components with
    | some t =>
      rw [hc] at h
      cases (pure_run.1 h).1
    | none =>
      rw [hc] at h
      obtain ⟨table, _, htable, h⟩ := bind_run.1 h
      rw [presentTable_run hrec] at htable
      cases htable
      obtain ⟨heq, rfl⟩ := pure_run.1 h
      refine ⟨rfl, .inr ⟨rfl, ?_⟩⟩
      rw [← Except.ok.inj heq, declared]
      cases hx : s.table.bind (Tree.get? · name) with
      | none => exact .inl ⟨rfl, .inl rfl⟩
      | some x =>
        split
        · rename_i hnull
          exact .inl ⟨rfl, .inr hnull⟩
        · exact .inr ⟨rfl, rfl⟩

/-- A schema joins under a name that the table has nothing under. -/
theorem added_snoc (hv : Comparable s) (hfree : s.added.lookup name = none)
    (hname : declared s name = none ∨ declared s name = some .null) (hn : Plain n) :
    Added s { s with added := s.added ++ [(name, n)] } := by
  refine ⟨rfl, fun other e he => ?_, fun _ => ⟨hv.records, hv.table, fun other m hm => ?_, ?_⟩⟩
  · rcases Option.or_eq_some_iff.1 he with he | ⟨hnone, he⟩
    · exact Option.or_eq_some_iff.2 (.inl he)
    · refine Option.or_eq_some_iff.2 (.inr ⟨hnone, ?_⟩)
      simp [List.lookup_append, he]
  · rcases List.mem_append.1 hm with hm | hm
    · exact hv.added other m hm
    · cases List.mem_singleton.1 hm
      exact ⟨hn, hname⟩
  · exact nodup_keys_snoc hv.nodup hfree n

theorem not_same_null (hm : n.isMap = true) : Tree.null.same n = false := by
  cases n with
  | map a es => rfl
  | _ => cases hm

/-- A foreign schema gets its name if the name stands for the same schema, and else takes its own place. -/
theorem placeSchema_added (hv : Comparable s) (hn : Plain n) (hm : n.isMap = true)
    (h : placeSchema name n s = (.ok u, s')) :
    Added s s' ∧
      ((u = Reference.asTree (Reference.toSchema name) ∧ Same (declared s') (Stands s') name n) ∨
        (u = n ∧ Differs (Stands s') name n)) := by
  obtain ⟨found, s₁, h₁, h⟩ := placeSchema_cases h
  obtain ⟨rfl, hfound⟩ := schemaNamed_cases hv.records h₁
  rcases h hv.records with ⟨rfl, rfl, rfl⟩ | ⟨e, rfl, rfl, rfl⟩
  · rcases hfound with ⟨_, -, heq⟩ | ⟨hfree, ⟨-, hname⟩ | ⟨hsome, -⟩⟩
    · cases heq
    · refine ⟨added_snoc hv hfree hname hn, .inl ⟨rfl, ?_⟩⟩
      refine hname.imp (fun hnone => ⟨n, ?_, same_refl hn⟩) id
      have hnone' : declared { s with added := s.added ++ [(name, n)] } name = none := hnone
      simp [Stands, standing, hnone', List.lookup_append, hfree]
    · cases hsome
  · -- what a name was seen to stand for, it stands for unless the table has `null` under it
    have hstands : standing s name = some e ∨ declared s name = some .null := by
      rcases hfound with ⟨_, hlookup, heq⟩ | ⟨-, ⟨heq, -⟩ | ⟨-, hdeclared⟩⟩
      · cases heq
        rcases (hv.added name e (mem_of_lookup hlookup)).2 with hnone | hnull
        · exact .inl (by simp [standing, hnone, hlookup])
        · exact .inr hnull
      · cases heq
      · exact .inl (by simp [standing, hdeclared])
    refine ⟨.refl _, ?_⟩
    cases hsame : e.same n with
    | true => exact .inl ⟨if_pos rfl, hstands.imp (fun hs => ⟨e, hs, hsame⟩) id⟩
    | false =>
      refine .inr ⟨if_neg (by simp), ?_⟩
      rcases hstands with hs | hnull
      · exact ⟨e, hs, hsame⟩
      · exact ⟨.null, by simp [Stands, standing, hnull], not_same_null hm⟩

/-- What inlining made of a foreign schema is a map. -/
theorem Foreign.isMap {c : Scene} (h : Foreign c n) : n.isMap = true := by
  obtain ⟨_, _, _, _, hr, hi⟩ := h
  obtain ⟨_, rfl, -⟩ := hi.map_inv (Spot.refers_visited_eq_none hr)
  rfl

/-- The account of what foreign schemas have been compared with. -/
def comparing (library : Library) (root : Place) : Account library root where
  Valid := Comparable
  Later := Added
  kept s := Same (declared s) (Stands s)
  taken s := Differs (Stands s)
  refl := .refl
  trans h h' := h.trans h'
  valid h := h.valid
  keeps h _ _ hs := hs.mono h.standing fun name => (h.declared name).trans
  takes h _ _ hd := hd.mono h.standing
  places hv _ hn hf h := placeSchema_added hv hn hf.isMap h

/-! ## The turns of the schemas -/

/-- What a name may have been seen to stand for: what it stands for in the end, or what it stood for at
first, while its turn is pending. -/
def Seen (first final : String → Option Tree) (pending : String → Prop) (name : String) (e : Tree) :
    Prop :=
  final name = some e ∨ (pending name ∧ first name = some e)

/-- Only `null` becomes `null`. -/
theorem Inlines.eq_null {c : Scene} {doc : Place} {kind : Kind} {t : Tree}
    (h : Inlines c doc (.visited kind) t .null) : t = .null := by
  cases h with
  | home _ _ _ hw | named _ _ _ _ _ hw => cases hw
  | copied _ hres _ hn _ hw =>
    cases hw
    obtain ⟨_, hmap, -⟩ := hn.map_inv (Spot.refers_visited_eq_none (Library.ofTree?_target hres))
    cases hmap
  | leaf => rfl

theorem Inlines.of_null {c : Scene} {doc : Place} {kind : Kind} {t : Tree}
    (h : Inlines c doc (.visited kind) .null t) : t = .null := by
  cases h with
  | home hr | copied hr | named hr => cases (Spot.refers_visited.1 hr).2.2
  | leaf => rfl

theorem declared_withTable {es : Entries} (name : String) :
    declared (withTable s es) name = es.at? (.text name) := rfl

theorem declared_of_table {es : Entries} (ht : s.table = some (.map none es)) (name : String) :
    declared s name = es.at? (.text name) := by
  rw [declared, ht]
  rfl

/-- What the turns of some keys of the table do. -/
structure Turned (library : Library) (root : Place) (turns : List Scalar) (es : Entries) (s s' : State)
    (es' : Entries) : Prop where
  valid : Comparable s'
  table : s'.table = some (.map none es')
  keys : es'.keys = es.keys
  others : ∀ k, k ∉ turns → es'.at? k = es.at? k
  null : ∀ name, declared s' name = some .null → declared s name = some .null
  stands : ∀ name, (standing s name).isSome → (standing s' name).isSome
  seen : ∀ name e, Stands s name e →
    Seen (declared s) (standing s') (fun name => .text name ∈ turns) name e
  inlined : ∀ before k rest x, turns = before ++ k :: rest → es.at? k = some x →
    ∃ x', es'.at? k = some x' ∧ Inlines (compared (declared s)
        (Seen (declared s) (standing s') fun name => .text name ∈ k :: rest) library root)
      root (.visited .schema) x x'

/-- Putting an inlined schema in its place leaves what all other names stand for. -/
theorem standing_put {es : Entries} {key : Scalar} {t : Tree} (ht : s.table = some (.map none es))
    (hname : (.text name : Scalar) ≠ key) :
    declared (withTable s (es.put key t)) name = declared s name ∧
      standing (withTable s (es.put key t)) name = standing s name := by
  have hdeclared : declared (withTable s (es.put key t)) name = declared s name := by
    rw [declared_withTable, declared_of_table ht, Entries.at?_put_ne hname]
  exact ⟨hdeclared, by rw [standing, hdeclared]; rfl⟩

/-- The table is as good with an inlined schema in it. -/
theorem comparable_put {es : Entries} {key : Scalar} {t t' : Tree} (hv : Comparable s)
    (ht : s.table = some (.map none es)) (hkey : es.at? key = some t) (hnull : t = .null → t' = .null)
    (hp : Plain t') : Comparable (withTable s (es.put key t')) := by
  refine ⟨hv.records, ?_, fun name n hm => ?_, hv.nodup⟩
  · rintro _ ⟨⟩
    exact Entries.plain_put (hv.table _ ht) (List.mem_map_of_mem (Entries.mem_of_at? hkey)) hp
  · obtain ⟨hpn, hname⟩ := hv.added name n hm
    refine ⟨hpn, ?_⟩
    by_cases hk : (.text name : Scalar) = key
    · subst hk
      rw [declared_of_table ht, hkey] at hname
      rw [declared_withTable, Entries.at?_put_self]
      rcases hname with hnone | hn
      · cases hnone
      · exact .inr (congrArg some (hnull (Option.some.inj hn)))
    · rwa [(standing_put ht hk).1]

/-- The turn of one schema, before those of others. -/
theorem Turned.cons {key : Scalar} {turns : List Scalar} {es es' : Entries} {s₁ : State} {x x' : Tree}
    (hl : Added s s₁) (ht : s.table = some (.map none es)) (hx : es.at? key = some x)
    (hi : Inlines ((comparing library root).scene s₁) root (.visited .schema) x x')
    (hnot : key ∉ turns)
    (h : Turned library root turns (es.put key x') (withTable s₁ (es.put key x')) s' es') :
    Turned library root (key :: turns) es s s' es' := by
  have hother : ∀ name, (.text name : Scalar) ≠ key →
      declared (withTable s₁ (es.put key x')) name = declared s name ∧
        standing (withTable s₁ (es.put key x')) name = standing s₁ name := fun name hk =>
    have hput := standing_put (t := x') (hl.table.trans ht) hk
    ⟨hput.1.trans (hl.declared name), hput.2⟩
  have hown : ∀ name, (.text name : Scalar) = key → declared s name = some x ∧
      declared (withTable s₁ (es.put key x')) name = some x' := by
    rintro name rfl
    exact ⟨(declared_of_table ht name).trans hx, Entries.at?_put_self _ _ _⟩
  -- what stood under the key itself is what it was declared as, and its turn was pending
  have hseen : ∀ name e, Stands s₁ name e →
      Seen (declared s) (standing s') (fun name => .text name ∈ key :: turns) name e := by
    intro name e he
    by_cases hk : (.text name : Scalar) = key
    · have hfirst := (hown name hk).1
      rw [Stands, standing, hl.declared, hfirst] at he
      cases he
      exact .inr ⟨hk ▸ List.mem_cons_self, hfirst⟩
    · rcases h.seen name e ((hother name hk).2.trans he) with hfinal | ⟨hm, hfirst⟩
      · exact .inl hfinal
      · exact .inr ⟨List.mem_cons_of_mem _ hm, (hother name hk).1 ▸ hfirst⟩
  have hnulls : ∀ name, declared (withTable s₁ (es.put key x')) name = some .null →
      declared s name = some .null := by
    intro name hname
    by_cases hk : (.text name : Scalar) = key
    · cases (hown name hk).2.symm.trans hname
      rw [(hown name hk).1, hi.eq_null]
    · rwa [← (hother name hk).1]
  have hkeys := Entries.keys_put_of_mem x' (List.mem_map_of_mem (Entries.mem_of_at? hx))
  refine ⟨h.valid, h.table, h.keys.trans hkeys, fun k hk => ?_,
    fun name hname => hnulls name (h.null name hname), fun name hs => h.stands name ?_,
    fun name e he => hseen name e (hl.standing name e he), ?_⟩
  · obtain ⟨hne, hk⟩ := not_or.1 (fun h => hk (List.mem_cons.2 h))
    rw [h.others k hk, Entries.at?_put_ne hne]
  · by_cases hk : (.text name : Scalar) = key
    · simp [standing, (hown name hk).2]
    · rw [(hother name hk).2]
      exact hl.isSome hs
  · rintro (_ | ⟨first, before⟩) k rest y hturns hy
    · cases hturns
      cases hx.symm.trans hy
      refine ⟨x', by rw [h.others _ hnot, Entries.at?_put_self], ?_⟩
      exact compared_mono hi rfl hseen fun name hname => (hl.declared name).symm.trans hname
    · obtain ⟨rfl, rfl⟩ := List.cons.inj hturns
      have hne : ∀ l ∈ k :: rest, l ≠ key := by
        rintro l hl rfl
        exact hnot (List.mem_append_right _ hl)
      obtain ⟨y', hy', hi'⟩ := h.inlined before k rest y rfl
        (by rwa [Entries.at?_put_ne (hne k List.mem_cons_self)])
      refine ⟨y', hy', compared_mono hi' rfl (fun name e he => ?_) hnulls⟩
      exact he.imp id fun ⟨hm, hfirst⟩ => ⟨hm, (hother name (hne _ hm)).1 ▸ hfirst⟩

/-- The turns of some keys, one after the other. -/
theorem schemasFrom_turned {st : Setting} (hdocs : ∀ p d, st.library.get p = .ok d → Plain d) :
    ∀ {turns : List Scalar} {es : Entries} {s s' : State}, turns.Nodup → turns ⊆ es.keys →
      s.table = some (.map none es) → Comparable s →
      schemasFrom (visitor (follow st [] st.root)) st.sharedDepth turns s = (.ok (), s') →
      ∃ es', Turned st.library st.root turns es s s' es'
  | [], es, s, s', _, _, ht, hv, h => by
    obtain ⟨-, rfl⟩ := pure_run.1 h
    exact ⟨es, hv, ht, rfl, fun _ _ => rfl, fun _ h => h, fun _ h => h, fun _ _ => .inl, by simp⟩
  | key :: turns, es, s, s', hn, hsub, ht, hv, h => by
    obtain ⟨hnot, hn⟩ := List.nodup_cons.1 hn
    have hkey : key ∈ es.keys := hsub List.mem_cons_self
    obtain ⟨x, hx⟩ : ∃ x, es.at? key = some x := by
      rwa [← Option.ne_none_iff_exists', ne_eq, Entries.at?_eq_none, not_not]
    have hp : Plain x := ((plain_map.1 (hv.table _ ht)).2.2 _ (Entries.mem_of_at? hx)).2
    obtain ⟨x', s₁, h₁, h⟩ := turn_run hv.records ht hx h
    have hfollows := follows_follow (comparing st.library st.root) hdocs [] st.root
    obtain ⟨hl, hi⟩ := visits_slot hfollows (fun hr => visits_walk hfollows st.sharedDepth hp _ hr)
      _ _ _ h₁ hv
    have hv₁ : Comparable s₁ := hl.valid hv
    have ht₁ : s₁.table = some (.map none es) := hl.table.trans ht
    have hv₂ := comparable_put hv₁ ht₁ hx (fun hnull => by subst hnull; exact hi.of_null)
      (hi.plain hdocs rfl hp)
    obtain ⟨es', hturned⟩ := schemasFrom_turned hdocs hn
      (fun k hk => by
        rw [Entries.keys, Entries.keys_put_of_mem x' hkey]
        exact hsub (List.mem_cons_of_mem _ hk))
      rfl hv₂ (h hv₁.records ht₁)
    exact ⟨es', .cons hl ht hx hi hnot hturned⟩

/-- The turns of all schemas of the table, if there is one. -/
theorem schemas_turned {st : Setting} (hdocs : ∀ p d, st.library.get p = .ok d → Plain d)
    (hv : Comparable s) {t t' : Tree}
    (h : schemas (visitor (follow st [] st.root)) st.sharedDepth t s = ((t', .ok ()), s')) :
    t' = t ∧ ((∃ es es', s.table = some (.map none es) ∧
        Turned st.library st.root (Entries.keys es) es s s' es') ∨
      ((∀ a es, s.table ≠ some (.map a es)) ∧ s' = s)) := by
  obtain ⟨rfl, hrun⟩ := schemas_cases hv.records h
  refine ⟨rfl, ?_⟩
  cases ht : s.table with
  | some u =>
    rw [ht] at hrun
    cases u with
    | map a es =>
      obtain ⟨rfl, hd, -⟩ := plain_map.1 (hv.table _ ht)
      obtain ⟨es', hturned⟩ := schemasFrom_turned hdocs hd.nodup (fun _ hk => hk) ht hv hrun
      exact .inl ⟨es, es', rfl, hturned⟩
    | _ => exact .inr ⟨fun _ _ hu => (by cases hu), (pure_run.1 hrun).2.symm⟩
  | none =>
    rw [ht] at hrun
    exact .inr ⟨fun _ _ hu => (by cases hu), (pure_run.1 hrun).2.symm⟩

end ApiContract.Inline
