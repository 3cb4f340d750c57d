import ApiContract.Proofs.Inline.State
import ApiContract.Proofs.Inline.Walk

/-!
# Inlining the table of schemas

The schemas of the table are inlined one after the other, while names of the table are already being
looked up. `knows_put` is why this does no harm: a schema that a name has been found to stand for has
no foreign references, so its own turn leaves it as it is. `schemasFrom_run` follows the whole table.
-/

namespace ApiContract.Inline

open Tree Walk

variable {library : Library} {root : Place} {s s' : State} {es es' : Entries}

/-- A map stays a map. -/
theorem Inlines.isMap {c : Scene} {doc : Place} {kind : Kind} {t t' : Tree}
    (h : Inlines c doc (.visited kind) t t') (hm : t.isMap = true) : t'.isMap = true := by
  cases h with
  | home _ _ _ hw | named _ _ _ _ _ hw => cases hw; rfl
  | copied _ hres _ hn _ hw =>
    cases hw
    obtain ⟨_, rfl, -⟩ := hn.map_inv (Spot.refers_visited_eq_none (Library.ofTree?_target hres))
    rfl
  | list => cases hm
  | map => rfl
  | leaf => exact hm

/-- A state with another table. -/
def withTable (s : State) (es : Entries) : State :=
  { s with table := some (.map none es), records := s.records }

theorem setTable_run {a : PUnit} (h : setTable (.map none es) s = (a, s')) : s' = withTable s es :=
  (modify_run.1 h).symm

theorem entry_withTable (name : String) :
    entry (withTable s es) name = (s.added.lookup name).or (es.at? (.text name)) := rfl

/-- A schema of the table is inlined and put in its place, then it is the turn of the others. -/
theorem turn_run {v : Visitor Run} {bound : Nat} {key : Scalar} {keys : List Scalar} {t : Tree}
    (hrec : s.records = []) (ht : s.table = some (.map none es)) (hkey : es.at? key = some t)
    (h : schemasFrom v bound (key :: keys) s = (.ok (), s')) :
    ∃ t' s₁, slot v .schema t (walk v bound t) s = ((t', .ok ()), s₁) ∧
      (s₁.records = [] → s₁.table = some (.map none es) →
        schemasFrom v bound keys (withTable s₁ (es.put key t')) = (.ok (), s')) := by
  obtain ⟨table, s₁, h₁, h⟩ := bind_run.1 h
  rw [presentTable_run hrec] at h₁
  cases h₁
  simp only [ht, Option.bind_some, Tree.entries?, hkey] at h
  obtain ⟨⟨t', r⟩, s₁, h₁, h⟩ := bind_run.1 h
  obtain ⟨table, s₂, h₂, h⟩ := bind_run.1 h
  cases r with
  | error e =>
    cases table with
    | none => cases (pure_run.1 h).1
    | some u =>
      cases u with
      | map a entries =>
        obtain ⟨_, _, -, h⟩ := bind_run.1 h
        cases (pure_run.1 h).1
      | _ => cases (pure_run.1 h).1
  | ok =>
    refine ⟨t', s₁, h₁, fun hrec₁ ht₁ => ?_⟩
    rw [presentTable_run hrec₁, ht₁] at h₂
    cases h₂
    obtain ⟨_, s₂, h₂, h⟩ := bind_run.1 h
    cases setTable_run h₂
    exact h

/-- The keys of a table of schemas. -/
def tableKeys : Option Tree → List Scalar
  | some (.map _ entries) => Entries.keys entries
  | _ => []

/-- Inlining the table of schemas goes through its keys. -/
theorem schemas_cases {v : Visitor Run} {bound : Nat} {t t' : Tree} (hrec : s.records = [])
    (h : schemas v bound t s = ((t', .ok ()), s')) :
    t' = t ∧ schemasFrom v bound (tableKeys s.table) s = (.ok (), s') := by
  obtain ⟨table, s₁, h₁, h⟩ := bind_run.1 h
  rw [presentTable_run hrec] at h₁
  cases h₁
  obtain ⟨r, s₁, h₁, h⟩ := bind_run.1 h
  obtain ⟨heq, rfl⟩ := pure_run.1 h
  cases heq
  refine ⟨rfl, Eq.trans ?_ h₁⟩
  cases s.table with
  | none => rfl
  | some u => cases u <;> rfl

/-- Inlining one schema of the table takes no name away. -/
theorem knows_put (hdocs : ∀ p d, library.get p = .ok d → Plain d) (hv : Valid library root s)
    (ht : s.table = some (.map none es)) {key : Scalar} {t t' : Tree} (hkey : es.at? key = some t)
    (hl : Lone t) (hi : Inlines (scene library root s) root (.visited .schema) t t') :
    Knows s (withTable s (es.put key t')) ∧
      Valid library root (withTable s (es.put key t')) := by
  have hpes := hv.table _ ht
  have hmem := Entries.mem_of_at? hkey
  have hp := ((plain_map.1 hpes).2.2 _ hmem).2
  have hkeys : (es.put key t').map (·.1) = es.map (·.1) :=
    Entries.keys_put_of_mem _ (List.mem_map_of_mem hmem)
  have hentry : ∀ name, entry s name = (s.added.lookup name).or (es.at? (.text name)) := by
    intro name
    simp only [entry, ht]
    rfl
  have hknows : Knows s (withTable s (es.put key t')) := by
    refine ⟨?_, fun name hn => ?_⟩
    · intro name n hk
      obtain ⟨e, he, hpe, hsame⟩ := hk.held
      refine { hk with held := ⟨e, ?_, hpe, hsame⟩ }
      rw [hentry] at he
      rw [entry_withTable]
      rcases Option.or_eq_some_iff.1 he with he | ⟨hnone, he⟩
      · rw [he]; rfl
      · rw [hnone, Option.none_or]
        by_cases hname : (.text name : Scalar) = key
        · subst hname
          cases hkey.symm.trans he
          have hself := hi.eq_self rfl rfl hp hl (hk.rooted.of_same hp hk.plain hsame)
          rw [Entries.at?_put_self, hself]
        · rw [Entries.at?_put_ne hname, he]
    · rw [hentry, Option.isSome_or] at hn
      rw [entry_withTable, Option.isSome_or]
      by_cases hk : (.text name : Scalar) = key
      · subst hk
        simp
      · rwa [Entries.at?_put_ne hk]
  refine ⟨hknows, hv.components, hv.records, ?_, ?_, fun name n hm => ?_, ?_, hv.nodup⟩
  · rintro _ ⟨⟩
    exact Entries.plain_put hpes (List.mem_map_of_mem hmem) (hi.plain hdocs rfl hp)
  · rintro _ name x ⟨⟩ hx
    have hx : Entries.at? (.text name) (es.put key t') = some x := hx
    by_cases hk : (.text name : Scalar) = key
    · subst hk
      rw [Entries.at?_put_self] at hx
      cases hx
      exact hi.isMap (hv.maps _ name t ht hkey)
    · rw [Entries.at?_put_ne hk] at hx
      exact hv.maps _ name x ht hx
  · obtain ⟨hpn, hf⟩ := hv.added name n hm
    exact ⟨hpn, hf.later hknows⟩
  · rintro _ name n ⟨⟩ hm
    have hnone : Entries.at? (.text name) es = none := hv.fresh _ name n ht hm
    exact (Entries.at?_eq_none_congr hkeys).2 hnone

/-- The schemas of the table that are still to come are untouched, the others are inlined. -/
structure Partly (c : Scene) (todo : List Scalar) (es es' : Entries) : Prop where
  keys : es'.keys = es.keys
  untouched : ∀ k ∈ todo, es'.at? k = es.at? k
  done : ∀ k x x', k ∉ todo → es.at? k = some x → es'.at? k = some x' →
    Inlines c c.root (.visited .schema) x x'

theorem schemasFrom_run {st : Setting} (hdocs : ∀ p d, st.library.get p = .ok d → Plain d)
    (hlone : ∀ k x, es.at? k = some x → Lone x) :
    ∀ {keys : List Scalar} {es₁ : Entries} {s s' : State}, keys.Nodup → keys ⊆ es.keys →
      s.table = some (.map none es₁) →
      Partly (scene st.library st.root s) keys es es₁ →
      schemasFrom (visitor (follow st [] st.root)) st.sharedDepth keys s = (.ok (), s') → Valid st.library st.root s →
      Knows s s' ∧ Valid st.library st.root s' ∧ ∃ es', s'.table = some (.map none es') ∧
        Partly (scene st.library st.root s') [] es es'
  | [], es₁, s, s', _, _, ht, hpart, h, hv => by
    obtain ⟨-, rfl⟩ := pure_run.1 h
    exact ⟨.refl _, hv, es₁, ht, hpart⟩
  | key :: keys, es₁, s, s', hn, hsub, ht, hpart, h, hv => by
    obtain ⟨hnot, hn⟩ := List.nodup_cons.1 hn
    obtain ⟨x, hx⟩ : ∃ x, es.at? key = some x := by
      rw [← Option.ne_none_iff_exists', ne_eq, Entries.at?_eq_none, not_not]
      exact hsub List.mem_cons_self
    have hx₁ := (hpart.untouched key List.mem_cons_self).trans hx
    have hp : Plain x := ((plain_map.1 (hv.table _ ht)).2.2 _ (Entries.mem_of_at? hx₁)).2
    obtain ⟨x', s₁, h₁, h⟩ := turn_run hv.records ht hx₁ h
    have hfollows := follows_follow (names st.library st.root) hdocs [] st.root
    obtain ⟨hl, hi⟩ := visits_slot hfollows (fun hr => visits_walk hfollows st.sharedDepth hp _ hr)
      _ _ _ h₁ hv
    have hv₁ := hl.valid hv
    replace h := h hv₁.records (hl.table.trans ht)
    obtain ⟨hknows, hv₂⟩ := knows_put hdocs hv₁ (hl.table.trans ht) hx₁ (hlone key x hx) hi
    have hall := hl.toKnows.trans hknows
    have hkeys := Entries.keys_put_of_mem x' (List.mem_map_of_mem (Entries.mem_of_at? hx₁))
    have hpart' : Partly (scene st.library st.root (withTable s₁ (es₁.put key x'))) keys es
        (es₁.put key x') := by
      refine ⟨hkeys.trans hpart.keys, fun k hk => ?_, fun k y y' hk hy hy' => ?_⟩
      · rw [Entries.at?_put_ne (by rintro rfl; exact hnot hk)]
        exact hpart.untouched k (List.mem_cons_of_mem _ hk)
      · by_cases hkey : k = key
        · subst hkey
          rw [Entries.at?_put_self] at hy'
          cases hx.symm.trans hy
          cases hy'
          exact hi.later hknows rfl
        · rw [Entries.at?_put_ne hkey] at hy'
          exact (hpart.done k y y' (by simp [hkey, hk]) hy hy').later hall rfl
    obtain ⟨hknows', hv', hrest⟩ := schemasFrom_run hdocs hlone hn
      (fun k hk => hsub (List.mem_cons_of_mem _ hk)) rfl hpart' h hv₂
    exact ⟨hall.trans hknows', hv', hrest⟩

end ApiContract.Inline
