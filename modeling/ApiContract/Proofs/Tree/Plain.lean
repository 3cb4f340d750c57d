import ApiContract.Edit
import Mathlib.Data.List.Forall2

/-!
# Plain trees

`Tree.Plain`: no node of the tree is shared with another place, and the keys of each of its maps
stand for different scalars. Trees read from a text without repeated nodes are plain.

* `Tree.induct`: induction over a tree, with one hypothesis for each item and each entry.
* `anchorBound_eq_zero`: a plain tree uses no anchor.
* `Entries.at?` after `Entries.put` and `Entries.set`: the look-up laws of entries.
-/

namespace ApiContract

namespace Scalar

theorem same_iff {k l : Scalar} : k.same l = true ↔ k.canonical = l.canonical := by
  simp [same]

@[simp] theorem same_self (k : Scalar) : k.same k = true := same_iff.2 rfl

theorem same_comm {k l : Scalar} : k.same l = l.same k := by
  rw [Bool.eq_iff_iff, same_iff, same_iff, eq_comm]

theorem same_congr {k l : Scalar} (h : k.same l = true) (m : Scalar) : m.same k = m.same l := by
  rw [Bool.eq_iff_iff, same_iff, same_iff, same_iff.1 h]

/-- A text stands for no other scalar. -/
@[simp] theorem same_text {s : String} {k : Scalar} : k.same (.text s) = true ↔ k = .text s := by
  rw [same_iff]
  cases k with
  | float x =>
    simp only [canonical]
    split <;> simp
  | _ => simp [canonical]

end Scalar

namespace Tree

/-! ## Recursion and induction -/

theorem paraItems_eq {β : Type u} (c : Cases β) :
    ∀ ts : List Tree, paraItems c ts = ts.map fun t => (t, para c t)
  | [] => rfl
  | t :: ts => by rw [paraItems, paraItems_eq c ts, List.map_cons]

theorem paraEntries_eq {β : Type u} (c : Cases β) :
    ∀ es : Entries, paraEntries c es = es.map fun e => (e.1, e.2, para c e.2)
  | [] => rfl
  | (k, t) :: es => by rw [paraEntries, paraEntries_eq c es, List.map_cons]

section
set_option linter.unusedSectionVars false
variable {P : Tree → Prop} (scalar : ∀ s, P (.scalar s))
  (list : ∀ a ts, (∀ t ∈ ts, P t) → P (.list a ts))
  (map : ∀ a es, (∀ e ∈ es, P e.2) → P (.map a es))
  (set : ∀ a ms, P (.set a ms)) (pair : ∀ x y, P x → P y → P (.pair x y))
  (back : ∀ a m, P (.back a m))
include scalar list map set pair back

mutual

/-- Induction over a tree. -/
theorem induct : ∀ t, P t
  | .scalar s => scalar s
  | .list a ts => list a ts (inductItems ts)
  | .map a es => map a es (inductEntries es)
  | .set a ms => set a ms
  | .pair x y => pair x y (induct x) (induct y)
  | .back a m => back a m

private theorem inductItems : ∀ ts : List Tree, ∀ t ∈ ts, P t
  | [] => fun _ h => absurd h List.not_mem_nil
  | t :: ts => List.forall_mem_cons.2 ⟨induct t, inductItems ts⟩

private theorem inductEntries : ∀ es : List (Scalar × Tree), ∀ e ∈ es, P e.2
  | [] => fun _ h => absurd h List.not_mem_nil
  | (_, t) :: es => List.forall_mem_cons.2 ⟨induct t, inductEntries es⟩

end

end

/-! ## Plain trees -/

/-- Keys that stand for different scalars. -/
def Distinct (ks : List Scalar) : Prop := ks.Pairwise fun k l => k.same l = false

/-- No node is shared and the keys of every map differ. -/
def Plain : Tree → Prop :=
  para {
    scalar s := s.anchor = none
    list a items := a = none ∧ ∀ i ∈ items, i.2
    map a entries := a = none ∧ Distinct (entries.map (·.1)) ∧ ∀ e ∈ entries, e.1.anchor = none ∧ e.2.2
    set a ms := a = none ∧ Distinct ms ∧ ∀ m ∈ ms, m.anchor = none
    pair x y := x.2 ∧ y.2
    back _ _ := False }

@[simp] theorem plain_scalar {s : Scalar} : Plain (.scalar s) ↔ s.anchor = none := Iff.rfl

@[simp] theorem plain_list {a : Anchor} {ts : List Tree} :
    Plain (.list a ts) ↔ a = none ∧ ∀ t ∈ ts, Plain t := by
  simp only [Plain, para, paraItems_eq, List.forall_mem_map]

@[simp] theorem plain_map {a : Anchor} {es : Entries} :
    Plain (.map a es) ↔
      a = none ∧ Distinct (es.map (·.1)) ∧ ∀ e ∈ es, e.1.anchor = none ∧ Plain e.2 := by
  simp only [Plain, para, paraEntries_eq, List.map_map, List.forall_mem_map]
  rfl

@[simp] theorem plain_set {a : Anchor} {ms : List Scalar} :
    Plain (.set a ms) ↔ a = none ∧ Distinct ms ∧ ∀ m ∈ ms, m.anchor = none := Iff.rfl

@[simp] theorem plain_pair {x y : Tree} : Plain (.pair x y) ↔ Plain x ∧ Plain y := Iff.rfl

@[simp] theorem plain_back {a : Nat} {m : Bool} : ¬ Plain (.back a m) := id

theorem anchorBound_list (a : Anchor) (ts : List Tree) :
    (list a ts).anchorBound = (ts.map anchorBound).foldl max (anchorBound.above a) := by
  simp only [anchorBound, para, paraItems_eq, List.map_map]
  rfl

theorem anchorBound_map (a : Anchor) (es : Entries) :
    (map a es).anchorBound =
      (es.map fun e => max (anchorBound.above e.1.anchor) e.2.anchorBound).foldl max
        (anchorBound.above a) := by
  simp only [anchorBound, para, paraEntries_eq, List.map_map]
  rfl

theorem foldl_max_zero : ∀ {ns : List Nat}, (∀ n ∈ ns, n = 0) → ns.foldl max 0 = 0
  | [], _ => rfl
  | n :: ns, h => by
    obtain rfl : n = 0 := h n (by simp)
    simpa using foldl_max_zero fun m hm => h m (by simp [hm])

/-- A plain tree uses no anchor. -/
theorem anchorBound_eq_zero {t : Tree} : Plain t → t.anchorBound = 0 := by
  induction t using induct with
  | scalar s => intro h; simp [anchorBound, para, anchorBound.above, plain_scalar.1 h]
  | list a ts ih =>
    intro h
    obtain ⟨rfl, hts⟩ := plain_list.1 h
    rw [anchorBound_list]
    refine foldl_max_zero fun n hn => ?_
    obtain ⟨t, ht, rfl⟩ := List.mem_map.1 hn
    exact ih t ht (hts t ht)
  | map a es ih =>
    intro h
    obtain ⟨rfl, -, hes⟩ := plain_map.1 h
    rw [anchorBound_map]
    refine foldl_max_zero fun n hn => ?_
    obtain ⟨e, he, rfl⟩ := List.mem_map.1 hn
    simp [ih e he (hes e he).2, (hes e he).1, anchorBound.above]
  | set a ms =>
    intro h
    obtain ⟨rfl, -, hms⟩ := plain_set.1 h
    simp only [anchorBound, para]
    refine foldl_max_zero fun n hn => ?_
    obtain ⟨m, hm, rfl⟩ := List.mem_map.1 hn
    simp [anchorBound.above, hms m hm]
  | pair x y ihx ihy =>
    intro h
    have hx : para _ x = 0 := ihx h.1
    have hy : para _ y = 0 := ihy h.2
    simp [anchorBound, para, hx, hy]
  | back a m => intro h; exact absurd h plain_back

theorem Plain.anchor_eq {t : Tree} (h : Plain t) : Tree.anchor t = none := by
  cases t with
  | list a ts => exact (plain_list.1 h).1
  | map a es => exact (plain_map.1 h).1
  | _ => rfl

theorem Plain.eq_map {t : Tree} (h : Plain t) (hm : t.isMap = true) : ∃ es, t = .map none es := by
  cases t with
  | map a es => exact ⟨es, by rw [(plain_map.1 h).1]⟩
  | _ => cases hm

theorem Distinct.nodup {ks : List Scalar} (h : Distinct ks) : ks.Nodup :=
  h.imp fun hkl he => by simp [he, Scalar.same] at hkl

@[simp] theorem plain_object {fields : List (String × Tree)} :
    Plain (object fields) ↔ (fields.map (·.1)).Nodup ∧ ∀ f ∈ fields, Plain f.2 := by
  have hkeys : Distinct ((fields.map fun f => (Scalar.text f.1, f.2)).map (·.1)) ↔
      (fields.map (·.1)).Nodup := by
    rw [List.map_map, Distinct, List.pairwise_map, List.Nodup, List.pairwise_map]
    refine ⟨List.Pairwise.imp fun h => ?_, List.Pairwise.imp fun h => ?_⟩ <;>
      simpa [Bool.eq_false_iff] using h
  rw [object, plain_map, hkeys, List.forall_mem_map]
  simp only [Scalar.anchor, true_and]

end Tree

/-! ## Entries -/

theorem mem_of_lookup {α β : Type} [BEq α] [LawfulBEq α] {k : α} {b : β} {l : List (α × β)}
    (h : l.lookup k = some b) : (k, b) ∈ l := by
  obtain ⟨l₁, l₂, rfl, -⟩ := List.lookup_eq_some_iff.1 h
  exact List.mem_append_right _ List.mem_cons_self

namespace Entries

@[simp] theorem at?_nil (k : Scalar) : at? k [] = none := rfl

theorem at?_cons (k l : Scalar) (t : Tree) (es : Entries) :
    at? k ((l, t) :: es) = if l = k then some t else at? k es := rfl

theorem at?_erase (es : Entries) (key : String) (k : Scalar) :
    Entries.at? k (es.erase key) = if k = .text key then none else Entries.at? k es := by
  induction es with
  | nil => split <;> rfl
  | cons e es ih =>
    obtain ⟨l, t⟩ := e
    by_cases hl : l = .text key
    · have herase : Entries.erase ((l, t) :: es) key = Entries.erase es key := by
        simp [Entries.erase, hl]
      rw [herase, ih, Entries.at?_cons, hl]
      split
      · rfl
      · rename_i hk
        rw [if_neg fun he => hk he.symm]
    · have herase : Entries.erase ((l, t) :: es) key = (l, t) :: Entries.erase es key := by
        simp [Entries.erase, hl]
      rw [herase, Entries.at?_cons, Entries.at?_cons, ih]
      by_cases hk : l = k
      · rw [if_pos hk, if_pos hk, if_neg (hk ▸ hl)]
      · rw [if_neg hk, if_neg hk]

theorem mem_of_at? {k : Scalar} {t : Tree} : ∀ {es : Entries}, at? k es = some t → (k, t) ∈ es
  | (l, u) :: es, h => by
    rw [at?_cons] at h
    split at h
    · cases h; simp_all
    · exact List.mem_cons_of_mem _ (mem_of_at? h)

theorem at?_eq_none {k : Scalar} : ∀ {es : Entries}, at? k es = none ↔ k ∉ es.map (·.1)
  | [] => by simp
  | (l, u) :: es => by
    rw [at?_cons]
    split
    · simp_all
    · rename_i hne
      rw [at?_eq_none, List.map_cons, List.mem_cons, not_or]
      exact ⟨fun h => ⟨fun he => hne he.symm, h⟩, fun h => h.2⟩

theorem at?_of_mem {k : Scalar} {t : Tree} :
    ∀ {es : Entries}, (es.map (·.1)).Nodup → (k, t) ∈ es → at? k es = some t
  | (l, u) :: es, hn, h => by
    rw [List.map_cons, List.nodup_cons] at hn
    rw [at?_cons]
    rcases List.mem_cons.1 h with h | h
    · cases h; simp
    · rw [if_neg, at?_of_mem hn.2 h]
      rintro rfl
      exact hn.1 (List.mem_map.2 ⟨_, h, rfl⟩)

@[simp] theorem at?_put_self (k : Scalar) (t : Tree) : ∀ es : Entries, at? k (put k t es) = some t
  | [] => by simp [put, at?_cons]
  | (l, u) :: es => by
    rw [put]
    split
    · simp_all [at?_cons]
    · rw [at?_cons, if_neg ‹_›, at?_put_self k t es]

theorem at?_put_ne {k l : Scalar} (h : l ≠ k) (t : Tree) :
    ∀ es : Entries, at? l (put k t es) = at? l es
  | [] => by simp [put, at?_cons, h.symm]
  | (m, u) :: es => by
    rw [put]
    split
    · subst m; simp [at?_cons, h.symm]
    · rw [at?_cons, at?_cons, at?_put_ne h t es]

theorem put_put (k : Scalar) (t u : Tree) : ∀ es : Entries, put k u (put k t es) = put k u es
  | [] => by simp [put]
  | (l, v) :: es => by
    rw [put, put]
    split
    · rw [put, if_pos ‹_›]
    · rw [put, if_neg ‹_›, put_put k t u es]

/-- A new key goes to the end. -/
theorem put_of_notMem {k : Scalar} (t : Tree) :
    ∀ {es : Entries}, k ∉ es.map (·.1) → put k t es = es ++ [(k, t)]
  | [], _ => rfl
  | (l, u) :: es, h => by
    rw [List.map_cons, List.mem_cons, not_or] at h
    rw [put, if_neg fun he => h.1 he.symm, put_of_notMem t h.2, List.cons_append]

/-- Entries with new keys go to the end one by one. -/
theorem foldl_put_of_nodup : ∀ {es done : Entries}, ((done ++ es).map (·.1)).Nodup →
    es.foldl (fun done e => put e.1 e.2 done) done = done ++ es
  | [], done, _ => (List.append_nil done).symm
  | (k, t) :: es, done, h => by
    have hfree : k ∉ done.map (·.1) := by
      rw [List.map_append, List.nodup_append] at h
      exact fun hk => h.2.2 k hk k List.mem_cons_self rfl
    rw [List.append_cons] at h
    rw [List.foldl_cons, put_of_notMem t hfree, foldl_put_of_nodup h, ← List.append_cons]

/-- What is under a key may be put there. -/
theorem put_self {k : Scalar} {t : Tree} : ∀ {es : Entries}, at? k es = some t → put k t es = es
  | (l, u) :: es, h => by
    rw [at?_cons] at h
    rw [put]
    split at h
    · cases h
      rw [if_pos ‹_›, ‹l = k›]
    · rw [if_neg ‹_›, put_self h]

/-- Replacing the value of a key keeps all keys. -/
theorem keys_put_of_mem {k : Scalar} (t : Tree) :
    ∀ {es : Entries}, k ∈ es.map (·.1) → (put k t es).map (·.1) = es.map (·.1)
  | (l, u) :: es, h => by
    rw [put]
    split
    · simp_all
    · rename_i hne
      rw [List.map_cons, List.mem_cons] at h
      rcases h with h | h
      · exact absurd h.symm hne
      · rw [List.map_cons, List.map_cons, keys_put_of_mem t h]

/-- Replacing the value of a key leaves the other entries alone. -/
theorem put_eq_map {k : Scalar} (t : Tree) : ∀ {es : Entries}, es.keys.Nodup → k ∈ es.keys →
    put k t es = es.map fun e => if e.1 = k then (k, t) else e
  | (l, u) :: es, hn, hk => by
    obtain ⟨hnot, hn⟩ := List.nodup_cons.1 hn
    rw [put, List.map_cons]
    by_cases hl : l = k
    · subst hl
      have hrest : es.map (fun e => if e.1 = l then (l, t) else e) = es := by
        refine (List.map_congr_left fun e he => if_neg fun heq => hnot ?_).trans (List.map_id _)
        exact List.mem_map.2 ⟨e, he, heq⟩
      rw [if_pos rfl, if_pos rfl, hrest]
    · rw [if_neg hl, if_neg hl, put_eq_map t hn ((List.mem_cons.1 hk).resolve_left (Ne.symm hl))]

/-- Entries with the same keys lack the same ones. -/
theorem at?_eq_none_congr {es fs : Entries} (h : fs.keys = es.keys) {k : Scalar} :
    at? k fs = none ↔ at? k es = none := by
  rw [at?_eq_none, at?_eq_none]
  exact not_congr (by rw [← keys, h, keys])

theorem exists_at?_of_keys {es fs : Entries} (h : es.keys <+: fs.keys) {k : Scalar} {t : Tree}
    (ht : at? k es = some t) : ∃ u, at? k fs = some u := by
  rw [← Option.ne_none_iff_exists', ne_eq, at?_eq_none, not_not]
  exact h.subset (List.mem_map_of_mem (mem_of_at? ht))

theorem exists_at?_of_keys_eq {es fs : Entries} (h : fs.keys = es.keys) {k : Scalar} {t : Tree}
    (ht : at? k es = some t) : ∃ u, at? k fs = some u :=
  exists_at?_of_keys ⟨[], by rw [List.append_nil, h]⟩ ht

/-- Entries are known by their keys and what is under them. -/
theorem ext_at? : ∀ {es fs : Entries}, fs.keys = es.keys → es.keys.Nodup →
    (∀ k, at? k fs = at? k es) → fs = es
  | [], fs, hk, _, _ => List.map_eq_nil_iff.1 hk
  | (k, t) :: es, [], hk, _, _ => by cases hk
  | (k, t) :: es, (l, u) :: fs, hk, hn, h => by
    obtain ⟨rfl, hk'⟩ := List.cons.inj hk
    obtain ⟨hnot, hn'⟩ := List.nodup_cons.1 hn
    have hu : some u = some t := by simpa [at?_cons] using h l
    rw [Option.some.inj hu, ext_at? hk' hn' fun m => ?_]
    by_cases hm : l = m
    · subst hm
      rw [at?_eq_none.2 hnot, at?_eq_none_congr hk', at?_eq_none.2 hnot]
    · simpa [at?_cons, hm] using h m

theorem get?_eq_at? (es : Entries) (key : String) : get? es key = at? (.text key) es := rfl

theorem mem_put {k : Scalar} {t : Tree} {e : Scalar × Tree} :
    ∀ {es : Entries}, e ∈ put k t es → e = (k, t) ∨ e ∈ es
  | [], h => .inl (List.mem_singleton.1 h)
  | (l, u) :: es, h => by
    rw [put] at h
    split at h
    · subst l
      exact (List.mem_cons.1 h).imp_right (List.mem_cons_of_mem _)
    · rcases List.mem_cons.1 h with rfl | h
      · exact .inr List.mem_cons_self
      · exact (mem_put h).imp_right (List.mem_cons_of_mem _)

theorem mem_foldl_put {e : Scalar × Tree} {es done : Entries}
    (h : e ∈ es.foldl (fun done e => put e.1 e.2 done) done) : e ∈ done ∨ e ∈ es := by
  induction es generalizing done with
  | nil => exact .inl h
  | cons f es ih =>
    rcases ih h with h | h
    · exact (mem_put h).symm.imp_right fun (h : e = f) => h ▸ List.mem_cons_self
    · exact .inr (List.mem_cons_of_mem _ h)

/-- Entries that are put behind an entry with another key leave it where it is. -/
theorem foldl_put_cons {k : Scalar} {t : Tree} : ∀ {es done : Entries}, k ∉ es.map (·.1) →
    es.foldl (fun done e => put e.1 e.2 done) ((k, t) :: done) =
      (k, t) :: es.foldl (fun done e => put e.1 e.2 done) done
  | [], _, _ => rfl
  | (l, u) :: es, done, h => by
    rw [List.map_cons, List.mem_cons, not_or] at h
    rw [List.foldl_cons, List.foldl_cons, put, if_neg h.1, foldl_put_cons h.2]

/-- A plain map stays plain with another plain value under one of its keys. -/
theorem plain_put {k : Scalar} {t : Tree} {es : Entries} (hes : Tree.Plain (.map none es))
    (hk : k ∈ es.map (·.1)) (ht : Tree.Plain t) : Tree.Plain (.map none (put k t es)) := by
  obtain ⟨-, hd, hpl⟩ := Tree.plain_map.1 hes
  refine Tree.plain_map.2 ⟨rfl, keys_put_of_mem t hk ▸ hd, fun e he => ?_⟩
  rcases mem_put he with rfl | he
  · obtain ⟨e', he', rfl⟩ := List.mem_map.1 hk
    exact ⟨(hpl e' he').1, ht⟩
  · exact hpl e he

/-- A map with the keys of a plain map and plain values is plain. -/
theorem plain_of_keys {es fs : Entries} (hes : Tree.Plain (.map none es)) (hkeys : fs.keys = es.keys)
    (h : ∀ k t, at? k fs = some t → Tree.Plain t) : Tree.Plain (.map none fs) := by
  obtain ⟨-, hd, hpl⟩ := Tree.plain_map.1 hes
  have hd' : Tree.Distinct (fs.map (·.1)) := by rwa [← keys, hkeys]
  refine Tree.plain_map.2 ⟨rfl, hd', fun e he => ⟨?_, h _ _ (at?_of_mem hd'.nodup he)⟩⟩
  have hmem : e.1 ∈ es.keys := hkeys ▸ List.mem_map_of_mem he
  obtain ⟨e', he', hk⟩ := List.mem_map.1 hmem
  rw [← hk]
  exact (hpl e' he').1

/-- Entries of which the value under one key has changed. -/
theorem plain_of_changed {es fs : Entries} {key : Scalar} (hes : Tree.Plain (.map none es))
    (hkeys : fs.keys = es.keys) (hother : ∀ k, k ≠ key → at? k fs = at? k es)
    (hkey : ∀ t, at? key fs = some t → Tree.Plain t) : Tree.Plain (.map none fs) := by
  refine plain_of_keys hes hkeys fun k t ht => ?_
  by_cases hk : k = key
  · subst hk
    exact hkey t ht
  · rw [hother k hk] at ht
    exact ((Tree.plain_map.1 hes).2.2 _ (mem_of_at? ht)).2

theorem keys_prefix_put (k : Scalar) (t : Tree) (es : Entries) : es.keys <+: (put k t es).keys := by
  by_cases hk : k ∈ es.map (·.1)
  · exact ⟨[], by rw [List.append_nil, keys, keys, keys_put_of_mem t hk]⟩
  · rw [put_of_notMem t hk, keys, keys, List.map_append]
    exact List.prefix_append _ _

/-- A plain map stays plain with a plain value under a text key. -/
theorem plain_set {key : String} {t : Tree} {es : Entries} (hes : Tree.Plain (.map none es))
    (ht : Tree.Plain t) : Tree.Plain (.map none (es.set key t)) := by
  by_cases hk : (.text key : Scalar) ∈ es.map (·.1)
  · exact plain_put hes hk ht
  · obtain ⟨-, hd, hpl⟩ := Tree.plain_map.1 hes
    rw [set, put_of_notMem t hk]
    refine Tree.plain_map.2 ⟨rfl, ?_, fun e he => ?_⟩
    · rw [List.map_append]
      refine List.pairwise_append.2 ⟨hd, List.pairwise_singleton _ _, fun k hk' l hl => ?_⟩
      cases List.mem_singleton.1 hl
      rw [Bool.eq_false_iff]
      intro hs
      rw [Scalar.same_text] at hs
      exact hk (hs ▸ hk')
    · rcases List.mem_append.1 he with he | he
      · exact hpl e he
      · cases List.mem_singleton.1 he
        exact ⟨rfl, ht⟩

theorem at?_append (k : Scalar) (fs : Entries) :
    ∀ es : Entries, at? k (es ++ fs) = (at? k es).or (at? k fs)
  | [] => by simp
  | (l, u) :: es => by
    rw [List.cons_append, at?_cons, at?_cons, at?_append k fs es]
    split <;> rfl

theorem at?_map (f : Scalar → Tree → Tree) (k : Scalar) :
    ∀ es : Entries, at? k (es.map fun e => (e.1, f e.1 e.2)) = (at? k es).map (f k)
  | [] => rfl
  | (l, t) :: es => by
    rw [List.map_cons, at?_cons, at?_cons, at?_map f k es]
    split
    · subst k; rfl
    · rfl

/-- What is left under a key of entries that keep their keys or are left out. -/
theorem at?_filterMap {f : Scalar × Tree → Option (Scalar × Tree)} {k : Scalar} : ∀ {es : Entries},
    (∀ e ∈ es, ∀ e' ∈ f e, e'.1 = e.1) → es.keys.Nodup →
      at? k (es.filterMap f) = (es.at? k).bind fun t => (f (k, t)).map (·.2)
  | [], _, _ => rfl
  | (l, t) :: es, hf, hes => by
    obtain ⟨hl, hes⟩ := List.nodup_cons.1 hes
    obtain ⟨hhead, htail⟩ := List.forall_mem_cons.1 hf
    have ih := at?_filterMap (k := k) htail hes
    rw [at?_cons]
    by_cases hk : l = k
    · subst hk
      have hrest : at? l (es.filterMap f) = none := by
        rw [ih, at?_eq_none.2 hl]
        rfl
      rw [if_pos rfl, Option.bind_some]
      cases he : f (l, t) with
      | none => rw [List.filterMap_cons_none he, hrest, Option.map_none]
      | some e' =>
        obtain ⟨l', t'⟩ := e'
        obtain rfl : l' = l := hhead _ he
        rw [List.filterMap_cons_some he, at?_cons, if_pos rfl, Option.map_some]
    · rw [if_neg hk, ← ih]
      cases he : f (l, t) with
      | none => rw [List.filterMap_cons_none he]
      | some e' =>
        obtain ⟨l', t'⟩ := e'
        obtain rfl : l' = l := hhead _ he
        rw [List.filterMap_cons_some he, at?_cons, if_neg hk]

theorem map_put (f : Scalar → Tree → Tree) (k : Scalar) (t : Tree) :
    ∀ es : Entries, (put k t es).map (fun e => (e.1, f e.1 e.2)) =
      put k (f k t) (es.map fun e => (e.1, f e.1 e.2))
  | [] => rfl
  | (l, u) :: es => by
    rw [put, List.map_cons, put]
    split
    · subst k; rfl
    · rw [List.map_cons, map_put f k t es]

/-- What holds entry by entry holds under every key. -/
theorem at?_of_forall₂_keyed {R : Scalar → Tree → Tree → Prop} {es es' : Entries}
    (h : List.Forall₂ (fun e e' => e'.1 = e.1 ∧ R e.1 e.2 e'.2) es es') :
    es'.keys = es.keys ∧
      ∀ k x x', es.at? k = some x → es'.at? k = some x' → R k x x' := by
  induction h with
  | nil => exact ⟨rfl, fun _ _ _ hx => by cases hx⟩
  | @cons e e' es es' he _ ih =>
    obtain ⟨k, x⟩ := e
    obtain ⟨_, x'⟩ := e'
    obtain ⟨rfl, hR⟩ := he
    refine ⟨congrArg (_ :: ·) ih.1, fun l y y' hy hy' => ?_⟩
    rw [at?_cons] at hy hy'
    split at hy
    · rename_i heq
      subst heq
      rw [if_pos rfl] at hy'
      cases hy
      cases hy'
      exact hR
    · rw [if_neg ‹_›] at hy'
      exact ih.2 l y y' hy hy'

theorem at?_of_forall₂ {R : Tree → Tree → Prop} {es es' : Entries}
    (h : List.Forall₂ (fun e e' => e'.1 = e.1 ∧ R e.2 e'.2) es es') :
    es'.keys = es.keys ∧
      ∀ k x x', es.at? k = some x → es'.at? k = some x' → R x x' :=
  at?_of_forall₂_keyed (R := fun _ => R) h

theorem lookup_children {α : Type} (g : Tree → α) (k : Scalar) :
    ∀ es : Entries, (es.map fun e => (e.1, e.2, g e.2)).lookup k =
      (es.at? k).map fun t => (t, g t)
  | [] => rfl
  | (l, t) :: es => by
    rw [List.map_cons, List.lookup_cons, at?_cons, lookup_children g k es]
    by_cases h : l = k
    · simp [h]
    · simp [h, beq_false_of_ne (Ne.symm h)]

/-- Entries of which one value is replaced. -/
structure Replaced (R : Tree → Tree → Prop) (key : String) (es es' : Entries) : Prop where
  keys : es'.keys = es.keys
  others : ∀ k, k ≠ .text key → es'.at? k = es.at? k
  value : ∀ x x', es.at? (.text key) = some x → es'.at? (.text key) = some x' → R x x'

theorem Replaced.of_self {R : Tree → Tree → Prop} {key : String} {es : Entries}
    (h : ∀ x, es.at? (.text key) = some x → R x x) : Replaced R key es es :=
  ⟨rfl, fun _ _ => rfl, fun x x' hx hx' => by cases hx.symm.trans hx'; exact h x hx⟩

theorem Replaced.mono {R R' : Tree → Tree → Prop} {key : String} {es es' : Entries}
    (h : Replaced R key es es') (hR : ∀ x x', R x x' → R' x x') : Replaced R' key es es' :=
  ⟨h.keys, h.others, fun x x' hx hx' => hR _ _ (h.value x x' hx hx')⟩

theorem Replaced.of_set {R : Tree → Tree → Prop} {key : String} {es : Entries} {x x' : Tree}
    (hx : es.at? (.text key) = some x) (h : R x x') : Replaced R key es (es.set key x') := by
  refine ⟨keys_put_of_mem _ (List.mem_map_of_mem (mem_of_at? hx)), fun k hk => at?_put_ne hk _ _, ?_⟩
  intro y y' hy hy'
  rw [set, at?_put_self] at hy'
  cases hy'
  cases hx.symm.trans hy
  exact h

end Entries

end ApiContract
