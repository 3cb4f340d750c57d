import ApiContract.Proofs.Tree.Plain
import Mathlib.Data.List.Nodup
import Mathlib.Data.List.Perm.Subperm

/-!
# Sameness of trees

`Tree.same` is an equivalence on plain trees: reflexive and symmetric there (`same_refl`,
`same_symm`), transitive on all trees (`same_trans`). Looking up a key among the entries of one map
finds the same value as among those of a map that is the same (`findSame?_of_same`).
-/

namespace ApiContract

namespace Tree

open Scalar (same_iff same_self)

/-! ## The entries of maps -/

theorem findSame?_cons (k l : Scalar) (t : Tree) (es : Entries) :
    findSame? k ((l, t) :: es) = if l.same k then some t else findSame? k es := by
  simp only [findSame?, List.find?_cons]
  split <;> simp_all

theorem findSame?_eq_some {k : Scalar} {t : Tree} {es : Entries} (h : findSame? k es = some t) :
    ∃ e ∈ es, e.1.same k = true ∧ e.2 = t := by
  simp only [findSame?, Option.map_eq_some_iff] at h
  obtain ⟨e, he, rfl⟩ := h
  have hk : e.1.same k = true := by simpa using List.find?_some he
  exact ⟨e, List.mem_of_find?_eq_some he, hk, rfl⟩

/-- Two keys that stand for one scalar find the same value. -/
theorem findSame?_congr {k l : Scalar} (h : k.same l = true) (es : Entries) :
    findSame? k es = findSame? l es := by
  simp only [findSame?, Scalar.same_congr h]

/-- A text key finds what it is the key of. -/
theorem findSame?_text (s : String) : ∀ es : Entries, findSame? (.text s) es = Entries.at? (.text s) es
  | [] => rfl
  | (l, t) :: es => by
    rw [findSame?_cons, Entries.at?_cons, findSame?_text s es]
    simp only [Scalar.same_text]

theorem findSame?_of_mem {es : Entries} (hd : Distinct (es.map (·.1))) {e : Scalar × Tree}
    (he : e ∈ es) {k : Scalar} (hk : e.1.same k = true) : findSame? k es = some e.2 := by
  induction es with
  | nil => exact absurd he List.not_mem_nil
  | cons f es ih =>
    obtain ⟨hf, hd⟩ := List.pairwise_cons.1 hd
    rw [findSame?_cons]
    rcases List.mem_cons.1 he with rfl | he
    · simp [hk]
    · have hne : f.1.same k = false := by
        rw [← Scalar.same_congr hk]
        exact hf _ (List.mem_map_of_mem he)
      rw [if_neg (by simp [hne])]
      exact ih hd he

/-! ## Sameness by the shape of a tree -/

theorem same_scalar {s : Scalar} {t : Tree} :
    same (.scalar s) t = true ↔ ∃ s', t = .scalar s' ∧ s.same s' = true := by
  cases t <;> simp [same, para]

theorem same_list {a : Anchor} {ts : List Tree} {t : Tree} :
    same (.list a ts) t = true ↔
      ∃ b us, t = .list b us ∧ List.Forall₂ (fun x y => same x y = true) ts us := by
  cases t with
  | list b us =>
    simp only [same, para, paraItems_eq, Bool.and_eq_true, beq_iff_eq, List.length_map,
      List.zip_map_left, List.all_map, List.all_eq_true, Tree.list.injEq]
    constructor
    · rintro ⟨hl, h⟩
      refine ⟨b, us, ⟨rfl, rfl⟩, List.forall₂_iff_zip.2 ⟨hl, fun {x y} hxy => ?_⟩⟩
      exact h (x, y) hxy
    · rintro ⟨b', us', ⟨rfl, rfl⟩, h⟩
      exact ⟨h.length_eq, fun p hp => (List.forall₂_iff_zip.1 h).2 hp⟩
  | _ => simp [same, para]

theorem same_map {a : Anchor} {es : Entries} {t : Tree} :
    same (.map a es) t = true ↔
      ∃ b fs, t = .map b fs ∧ es.length = fs.length ∧
        ∀ e ∈ es, ∃ v, findSame? e.1 fs = some v ∧ same e.2 v = true := by
  cases t with
  | map b fs =>
    simp only [same, para, paraEntries_eq, Bool.and_eq_true, beq_iff_eq, List.length_map,
      List.all_map, List.all_eq_true, Tree.map.injEq, Function.comp_apply, Option.any_eq_true]
    constructor
    · rintro ⟨hl, h⟩
      exact ⟨b, fs, ⟨rfl, rfl⟩, hl, h⟩
    · rintro ⟨b', fs', ⟨rfl, rfl⟩, hl, h⟩
      exact ⟨hl, h⟩
  | _ => simp [same, para]

theorem same_set {a : Anchor} {ms : List Scalar} {t : Tree} :
    same (.set a ms) t = true ↔
      ∃ b ns, t = .set b ns ∧ ms.length = ns.length ∧ ∀ m ∈ ms, ∃ n ∈ ns, m.same n = true := by
  cases t <;> simp [same, para]

theorem same_pair {x y t : Tree} :
    same (.pair x y) t = true ↔ ∃ z w, t = .pair z w ∧ same x z = true ∧ same y w = true := by
  cases t <;> simp [same, para]

theorem same_back {a : Nat} {m : Bool} {t : Tree} : same (.back a m) t = true ↔ t = .back a m := by
  simp [same, para]

/-- Looking up a key in maps that are the same finds the same value. -/
theorem findSame?_of_same {a b : Anchor} {es fs : Entries} (h : same (.map a es) (.map b fs) = true)
    {k : Scalar} {v : Tree} (hv : findSame? k es = some v) :
    ∃ w, findSame? k fs = some w ∧ same v w = true := by
  obtain ⟨_, _, he, -, hes⟩ := same_map.1 h
  cases he
  obtain ⟨e, he, hk, rfl⟩ := findSame?_eq_some hv
  rw [← findSame?_congr hk]
  exact hes e he

/-! ## An equivalence -/

theorem same_trans : ∀ {t u v : Tree}, same t u = true → same u v = true → same t v = true := by
  intro t
  induction t using induct with
  | scalar s =>
    intro u v h h'
    obtain ⟨s', rfl, hs⟩ := same_scalar.1 h
    obtain ⟨s'', rfl, hs'⟩ := same_scalar.1 h'
    exact same_scalar.2 ⟨s'', rfl, same_iff.2 ((same_iff.1 hs).trans (same_iff.1 hs'))⟩
  | list a ts ih =>
    intro u v h h'
    obtain ⟨b, us, rfl, hus⟩ := same_list.1 h
    obtain ⟨c, vs, rfl, hvs⟩ := same_list.1 h'
    refine same_list.2 ⟨c, vs, rfl, ?_⟩
    clear h h'
    induction hus generalizing vs with
    | nil => exact hvs
    | cons hxy _ ihus =>
      obtain ⟨z, vs', hyz, hvs', rfl⟩ := List.forall₂_cons_left_iff.1 hvs
      exact .cons (ih _ (by simp) hxy hyz) (ihus (fun t ht => ih t (by simp [ht])) vs' hvs')
  | map a es ih =>
    intro u v h h'
    obtain ⟨b, fs, rfl, hl, hfs⟩ := same_map.1 h
    obtain ⟨c, gs, rfl, hl', -⟩ := same_map.1 h'
    refine same_map.2 ⟨c, gs, rfl, hl.trans hl', fun e he => ?_⟩
    obtain ⟨x, hx, hex⟩ := hfs e he
    obtain ⟨y, hy, hxy⟩ := findSame?_of_same h' hx
    exact ⟨y, hy, ih e he hex hxy⟩
  | set a ms =>
    intro u v h h'
    obtain ⟨b, ns, rfl, hl, hns⟩ := same_set.1 h
    obtain ⟨c, os, rfl, hl', hos⟩ := same_set.1 h'
    refine same_set.2 ⟨c, os, rfl, hl.trans hl', fun m hm => ?_⟩
    obtain ⟨n, hn, hmn⟩ := hns m hm
    obtain ⟨o, ho, hno⟩ := hos n hn
    exact ⟨o, ho, same_iff.2 ((same_iff.1 hmn).trans (same_iff.1 hno))⟩
  | pair x y ihx ihy =>
    intro u v h h'
    obtain ⟨z, w, rfl, hx, hy⟩ := same_pair.1 h
    obtain ⟨z', w', rfl, hz, hw⟩ := same_pair.1 h'
    exact same_pair.2 ⟨z', w', rfl, ihx hx hz, ihy hy hw⟩
  | back a m =>
    intro u v h h'
    rwa [same_back.1 h] at h'

theorem same_refl : ∀ {t : Tree}, Plain t → same t t = true := by
  intro t
  induction t using induct with
  | scalar s => exact fun _ => same_scalar.2 ⟨s, rfl, same_self s⟩
  | list a ts ih =>
    intro h
    exact same_list.2 ⟨a, ts, rfl, List.forall₂_same.2 fun t ht => ih t ht ((plain_list.1 h).2 t ht)⟩
  | map a es ih =>
    intro h
    obtain ⟨-, hd, hes⟩ := plain_map.1 h
    exact same_map.2 ⟨a, es, rfl, rfl, fun e he =>
      ⟨e.2, findSame?_of_mem hd he (same_self _), ih e he (hes e he).2⟩⟩
  | set a ms => exact fun _ => same_set.2 ⟨a, ms, rfl, rfl, fun m hm => ⟨m, hm, same_self m⟩⟩
  | pair x y ihx ihy => exact fun h => same_pair.2 ⟨x, y, rfl, ihx h.1, ihy h.2⟩
  | back a m => exact fun h => absurd h plain_back

theorem canonical_nodup {ks : List Scalar} (h : Distinct ks) : (ks.map Scalar.canonical).Nodup := by
  rw [List.Nodup, List.pairwise_map]
  exact h.imp fun hkl he => by simp [same_iff.2 he] at hkl

/-- Keys that stand for the same scalar are one. -/
theorem Distinct.eq_of_same {ks : List Scalar} (h : Distinct ks) {k l m : Scalar} (hk : k ∈ ks)
    (hl : l ∈ ks) (hkm : k.same m = true) (hlm : l.same m = true) : k = l :=
  List.inj_on_of_nodup_map (canonical_nodup h) hk hl ((same_iff.1 hkm).trans (same_iff.1 hlm).symm)

/-- Among lists of different scalars of one length, inclusion goes both ways. -/
theorem exists_same_of_length_eq {ks ls : List Scalar} (hk : Distinct ks)
    (hlen : ks.length = ls.length) (h : ∀ k ∈ ks, ∃ l ∈ ls, k.same l = true) :
    ∀ l ∈ ls, ∃ k ∈ ks, k.same l = true := by
  intro l hl
  have hsub : ks.map Scalar.canonical ⊆ ls.map Scalar.canonical := by
    intro c hc
    obtain ⟨k, hk, rfl⟩ := List.mem_map.1 hc
    obtain ⟨l, hl, hkl⟩ := h k hk
    exact List.mem_map.2 ⟨l, hl, (same_iff.1 hkl).symm⟩
  have hperm := (List.subperm_of_subset (canonical_nodup hk) hsub).perm_of_length_le (by simp [hlen])
  obtain ⟨k, hk, hkl⟩ := List.mem_map.1 (hperm.symm.subset (List.mem_map_of_mem hl))
  exact ⟨k, hk, same_iff.2 hkl⟩

theorem same_symm : ∀ {t u : Tree}, Plain t → Plain u → same t u = true → same u t = true := by
  intro t
  induction t using induct with
  | scalar s =>
    intro u _ _ h
    obtain ⟨s', rfl, hs⟩ := same_scalar.1 h
    exact same_scalar.2 ⟨s, rfl, by rwa [Scalar.same_comm]⟩
  | list a ts ih =>
    intro u ht hu h
    obtain ⟨b, us, rfl, hus⟩ := same_list.1 h
    refine same_list.2 ⟨a, ts, rfl, ?_⟩
    replace ht := (plain_list.1 ht).2
    replace hu := (plain_list.1 hu).2
    clear h
    induction hus with
    | nil => exact .nil
    | cons hxy _ ihus =>
      refine .cons (ih _ (by simp) (ht _ (by simp)) (hu _ (by simp)) hxy) (ihus ?_ ?_ ?_)
      · exact fun t hm => ih t (by simp [hm])
      · exact fun t hm => ht t (by simp [hm])
      · exact fun t hm => hu t (by simp [hm])
  | map a es ih =>
    intro u ht hu h
    obtain ⟨b, fs, rfl, hl, hfs⟩ := same_map.1 h
    obtain ⟨-, hd, hes⟩ := plain_map.1 ht
    obtain ⟨-, hd', hfs'⟩ := plain_map.1 hu
    refine same_map.2 ⟨a, es, rfl, hl.symm, fun f hf => ?_⟩
    have hkeys : ∀ k ∈ es.map (·.1), ∃ l ∈ fs.map (·.1), k.same l = true := by
      intro k hk
      obtain ⟨e, he, rfl⟩ := List.mem_map.1 hk
      obtain ⟨v, hv, -⟩ := hfs e he
      obtain ⟨f, hf, hfe, -⟩ := findSame?_eq_some hv
      exact ⟨f.1, List.mem_map_of_mem hf, by rwa [Scalar.same_comm]⟩
    obtain ⟨k, hk, hkf⟩ :=
      exists_same_of_length_eq hd (by simpa using hl) hkeys f.1 (List.mem_map_of_mem hf)
    obtain ⟨e, he, rfl⟩ := List.mem_map.1 hk
    obtain ⟨v, hv, hev⟩ := hfs e he
    obtain rfl : f.2 = v := by
      rw [findSame?_of_mem hd' hf (by rwa [Scalar.same_comm])] at hv
      exact Option.some.inj hv
    exact ⟨e.2, findSame?_of_mem hd he hkf, ih e he (hes e he).2 (hfs' f hf).2 hev⟩
  | set a ms =>
    intro u ht hu h
    obtain ⟨b, ns, rfl, hl, hns⟩ := same_set.1 h
    refine same_set.2 ⟨a, ms, rfl, hl.symm, fun n hn => ?_⟩
    obtain ⟨m, hm, hmn⟩ := exists_same_of_length_eq (plain_set.1 ht).2.1 hl hns n hn
    exact ⟨m, hm, by rwa [Scalar.same_comm]⟩
  | pair x y ihx ihy =>
    intro u ht hu h
    obtain ⟨z, w, rfl, hx, hy⟩ := same_pair.1 h
    exact same_pair.2 ⟨x, y, rfl, ihx ht.1 hu.1 hx, ihy ht.2 hu.2 hy⟩
  | back a m => exact fun ht => absurd ht plain_back

end Tree

end ApiContract
