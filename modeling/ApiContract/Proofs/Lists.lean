import Mathlib.Data.List.Forall2
import Mathlib.Data.List.Nodup

/-!
# Lists

Lists that are related item by item, lists of named values, and lists of which the values of interest
are all different.
-/

namespace ApiContract

variable {α β : Type}

theorem mem_of_forall₂_left {R : α → β → Prop} {xs : List α} {ys : List β}
    (h : List.Forall₂ R xs ys) {x : α} (hx : x ∈ xs) : ∃ y ∈ ys, R x y := by
  induction h with
  | nil => exact absurd hx List.not_mem_nil
  | cons hR _ ih =>
    rcases List.mem_cons.1 hx with rfl | hx
    · exact ⟨_, List.mem_cons_self, hR⟩
    · obtain ⟨y, hy, hxy⟩ := ih hx
      exact ⟨y, List.mem_cons_of_mem _ hy, hxy⟩

theorem mem_of_forall₂_right {R : α → β → Prop} {xs : List α} {ys : List β}
    (h : List.Forall₂ R xs ys) {y : β} (hy : y ∈ ys) : ∃ x ∈ xs, R x y := by
  obtain ⟨x, hx, hR⟩ := mem_of_forall₂_left h.flip hy
  exact ⟨x, hx, hR⟩

theorem forall₂_of_mem {R S : α → β → Prop} {xs : List α} {ys : List β} (h : List.Forall₂ R xs ys)
    (hS : ∀ x ∈ xs, ∀ y ∈ ys, R x y → S x y) : List.Forall₂ S xs ys := by
  induction h with
  | nil => exact .nil
  | cons hR _ ih =>
    refine .cons (hS _ List.mem_cons_self _ List.mem_cons_self hR) (ih fun x hx y hy => ?_)
    exact hS x (List.mem_cons_of_mem _ hx) y (List.mem_cons_of_mem _ hy)

theorem forall₂_comp {γ : Type} {R : α → β → Prop} {S : β → γ → Prop} {T : α → γ → Prop} {xs : List α}
    {ys : List β} {zs : List γ} (h : List.Forall₂ R xs ys) (h' : List.Forall₂ S ys zs)
    (hT : ∀ x y z, R x y → S y z → T x z) : List.Forall₂ T xs zs := by
  induction h generalizing zs with
  | nil =>
    cases h'
    exact .nil
  | cons hR _ ih =>
    cases h' with
    | cons hS hrest => exact .cons (hT _ _ _ hR hS) (ih hrest)

theorem forall₂_filter {R : α → β → Prop} {p : α → Bool} {q : β → Bool} {xs : List α} {ys : List β}
    (h : List.Forall₂ R xs ys) (hpq : ∀ x y, R x y → p x = q y) :
    List.Forall₂ R (xs.filter p) (ys.filter q) := by
  induction h with
  | nil => exact .nil
  | @cons x y xs ys hR _ ih =>
    rw [List.filter_cons, List.filter_cons, hpq x y hR]
    cases q y with
    | true => exact .cons hR ih
    | false => exact ih

theorem forall₂_eq_iff {γ : Type} {f : α → γ} {g : β → γ} {xs : List α} {ys : List β} :
    List.Forall₂ (fun x y => f x = g y) xs ys ↔ xs.map f = ys.map g := by
  rw [← List.forall₂_eq_eq_eq, List.forall₂_map_left_iff, List.forall₂_map_right_iff]

theorem exists_forall₂ {R : α → β → Prop} {xs : List α} :
    (∃ ys, List.Forall₂ R xs ys) ↔ ∀ x ∈ xs, ∃ y, R x y := by
  constructor
  · rintro ⟨ys, h⟩ x hx
    obtain ⟨y, -, hy⟩ := mem_of_forall₂_left h hx
    exact ⟨y, hy⟩
  · intro h
    induction xs with
    | nil => exact ⟨[], .nil⟩
    | cons x xs ih =>
      obtain ⟨y, hy⟩ := h x List.mem_cons_self
      obtain ⟨ys, hys⟩ := ih fun x hx => h x (List.mem_cons_of_mem _ hx)
      exact ⟨y :: ys, .cons hy hys⟩

/-- Where items of a kind end is seen in a list that goes on with another kind. -/
theorem append_inj_of_forall {p : α → Bool} {l l' r r' : List α} (hl : ∀ a ∈ l, p a = true)
    (hl' : ∀ a ∈ l', p a = true) (hr : ∀ a ∈ r.head?, p a = false) (hr' : ∀ a ∈ r'.head?, p a = false)
    (h : l ++ r = l' ++ r') : l = l' ∧ r = r' := by
  have hkind : ∀ {l r : List α}, (∀ a ∈ l, p a = true) → (∀ a ∈ r.head?, p a = false) →
      (l ++ r).takeWhile p = l := by
    intro l r hl hr
    rw [List.takeWhile_append_of_pos hl]
    cases r with
    | nil => exact List.append_nil l
    | cons a r => rw [List.takeWhile_cons_of_neg (by simp [hr a rfl]), List.append_nil]
  have hll : l = l' := by rw [← hkind hl hr, h, hkind hl' hr']
  subst hll
  exact ⟨rfl, List.append_cancel_left h⟩

/-- A key that is different everywhere finds the one item that has it. -/
theorem find?_key_eq_some {κ : Type} [DecidableEq κ] {key : α → κ} {l : List α} (hl : (l.map key).Nodup)
    {k : κ} {a : α} : (l.find? fun x => key x = k) = some a ↔ a ∈ l ∧ key a = k := by
  constructor
  · intro h
    exact ⟨List.mem_of_find?_eq_some h, by simpa using List.find?_some h⟩
  · rintro ⟨ha, hkey⟩
    cases hfound : l.find? fun x => key x = k with
    | none => exact absurd hkey (by simpa using List.find?_eq_none.1 hfound a ha)
    | some b =>
      have hb : key b = k := by simpa using List.find?_some hfound
      rw [List.inj_on_of_nodup_map hl (List.mem_of_find?_eq_some hfound) ha (hb.trans hkey.symm)]

theorem lookup_cons_ite (n k : String) (b : β) (l : List (String × β)) :
    ((k, b) :: l).lookup n = if n = k then some b else l.lookup n := by
  rw [List.lookup_cons]
  by_cases h : n = k
  · rw [if_pos h, beq_iff_eq.2 h]
  · rw [if_neg h, beq_false_of_ne h]

theorem lookup_eq_none {l : List (String × β)} {k : String} :
    l.lookup k = none ↔ k ∉ l.map (·.1) := by
  rw [List.lookup_eq_none_iff, List.mem_map]
  simp only [bne_iff_ne, ne_eq, not_exists, not_and, eq_comm (a := k)]

theorem exists_lookup {l : List (String × β)} {k : String} (h : k ∈ l.map (·.1)) :
    ∃ b, l.lookup k = some b :=
  Option.ne_none_iff_exists'.1 fun hnone => lookup_eq_none.1 hnone h

theorem lookup_extended {l l' : List (String × β)} (h : l <+: l') {k : String} {b : β}
    (hl : l.lookup k = some b) : l'.lookup k = some b := by
  obtain ⟨more, rfl⟩ := h
  rw [List.lookup_append, hl, Option.some_or]

theorem lookup_none_before {l l' : List (String × β)} (h : l <+: l') {k : String}
    (hl : l'.lookup k = none) : l.lookup k = none := by
  cases hx : l.lookup k with
  | none => rfl
  | some b => cases hl.symm.trans (lookup_extended h hx)

theorem lookup_snoc {l : List (String × β)} {k n : String} {b c : β}
    (h : (l ++ [(n, b)]).lookup k = some c) : l.lookup k = some c ∨ (k = n ∧ c = b) := by
  rw [List.lookup_append, lookup_cons_ite] at h
  cases hl : l.lookup k with
  | some x =>
    rw [hl] at h
    exact .inl h
  | none =>
    rw [hl, Option.none_or] at h
    split at h
    · rename_i hk
      exact .inr ⟨hk, (Option.some.inj h).symm⟩
    · cases h

/-- A new key is different from those that are there. -/
theorem nodup_keys_snoc {l : List (String × β)} (h : (l.map (·.1)).Nodup) {k : String}
    (hk : l.lookup k = none) (b : β) : ((l ++ [(k, b)]).map (·.1)).Nodup := by
  rw [List.map_append, List.map_singleton, List.nodup_append]
  refine ⟨h, List.pairwise_singleton _ _, fun other ho other' ho' he => ?_⟩
  obtain ⟨entry, hmem, rfl⟩ := List.mem_map.1 ho
  cases List.mem_singleton.1 ho'
  simpa [he] using List.lookup_eq_none_iff.1 hk entry hmem

theorem lookup_map {γ : Type} (f : β → γ) (k : String) (l : List (String × β)) :
    (l.map fun e => (e.1, f e.2)).lookup k = (l.lookup k).map f := by
  induction l with
  | nil => rfl
  | cons e l ih =>
    rw [List.map_cons, lookup_cons_ite, lookup_cons_ite k e.1 e.2, ih]
    by_cases hk : k = e.1 <;> simp [hk]

theorem lookup_of_mem {l : List (String × β)} (hl : (l.map (·.1)).Nodup) {e : String × β} (he : e ∈ l) :
    l.lookup e.1 = some e.2 := by
  induction l with
  | nil => exact absurd he List.not_mem_nil
  | cons e' l ih =>
    obtain ⟨hfree, hl⟩ := List.nodup_cons.1 hl
    rw [lookup_cons_ite e.1 e'.1 e'.2]
    rcases List.mem_cons.1 he with rfl | he
    · rw [if_pos rfl]
    · have hne : e.1 ≠ e'.1 := fun heq => hfree (List.mem_map.2 ⟨e, he, heq⟩)
      rw [if_neg hne, ih hl he]

/-- In lists with the same keys the same keys are found. -/
theorem lookup_forall₂ {γ : Type} {R : β → γ → Prop} {l : List (String × β)} {l' : List (String × γ)}
    (h : List.Forall₂ (fun e e' => R e.2 e'.2 ∧ e.1 = e'.1) l l') (k : String) :
    (l.lookup k = none ∧ l'.lookup k = none) ∨
      ∃ b c, l.lookup k = some b ∧ l'.lookup k = some c ∧ R b c := by
  induction h with
  | nil => exact .inl ⟨rfl, rfl⟩
  | @cons e e' l l' hR _ ih =>
    rw [lookup_cons_ite k e.1 e.2, lookup_cons_ite k e'.1 e'.2, ← hR.2]
    by_cases hk : k = e.1
    · rw [if_pos hk, if_pos hk]
      exact .inr ⟨_, _, rfl, rfl, hR.1⟩
    · rw [if_neg hk, if_neg hk]
      exact ih

theorem lookup_filter (p : String → Bool) (k : String) (l : List (String × β)) :
    (l.filter fun e => p e.1).lookup k = if p k then l.lookup k else none := by
  induction l with
  | nil => simp
  | cons e l ih =>
    rw [List.filter_cons, lookup_cons_ite k e.1 e.2]
    by_cases hp : p e.1 = true
    · rw [if_pos hp, lookup_cons_ite k e.1 e.2, ih]
      by_cases hk : k = e.1
      · rw [if_pos hk, hk, if_pos hp, if_pos rfl]
      · rw [if_neg hk, if_neg hk]
    · rw [if_neg hp, ih]
      by_cases hk : k = e.1
      · rw [hk, if_neg hp, if_neg hp]
      · rw [if_neg hk]

theorem eq_of_filterMap_nodup {f : α → Option β} {l : List α} (h : (l.filterMap f).Nodup)
    {x y : α} {b : β} (hx : x ∈ l) (hy : y ∈ l) (hfx : f x = some b) (hfy : f y = some b) : x = y := by
  induction l with
  | nil => exact absurd hx List.not_mem_nil
  | cons a l ih =>
    have hrest : (l.filterMap f).Nodup := by
      rw [List.filterMap_cons] at h
      split at h
      · exact h
      · exact (List.nodup_cons.1 h).2
    have hhead : ∀ {z : α}, z ∈ l → f z = some b → f a ≠ some b := by
      intro z hz hfz hfa
      rw [List.filterMap_cons, hfa] at h
      exact (List.nodup_cons.1 h).1 (List.mem_filterMap.2 ⟨z, hz, hfz⟩)
    rcases List.mem_cons.1 hx with hxa | hx <;> rcases List.mem_cons.1 hy with hya | hy
    · rw [hxa, hya]
    · exact absurd (hxa ▸ hfx) (hhead hy hfy)
    · exact absurd (hya ▸ hfy) (hhead hx hfx)
    · exact ih hrest hx hy

end ApiContract
