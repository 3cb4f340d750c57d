import ApiContract.Text.Identifier
import Mathlib.Data.List.Nodup
import Mathlib.Data.List.Perm.Subperm
import Std.Data.String.ToNat

/-!
# Names that are free

`uniqueName_notMem`: a name that is made to differ from the taken ones differs from all of them. As many
steps as there are taken names are enough, since the candidates differ from each other. So a list of names
that are made to differ has no name twice (`uniqueNames_free`).

The number at the end is the one at which a search without any bound ends (`Ends`), and so the smallest that
does it, whatever the names are and however they end (`uniqueName_least`).
-/

namespace ApiContract.Text

theorem candidate_injective (name : String) {k l : Nat}
    (h : name ++ toString k = name ++ toString l) : k = l :=
  Nat.repr_injective ((String.append_right_inj name).1 h)

/-- If the search ends with a taken name, all candidates are taken. -/
theorem mem_of_firstFree {name : String} {taken : List String} :
    ∀ {n k : Nat}, firstFree name taken n k ∈ taken → ∀ i ≤ n, name ++ toString (k + i) ∈ taken
  | 0, k, h, i, hi => by
    obtain rfl := Nat.le_zero.1 hi
    exact h
  | n + 1, k, h, i, hi => by
    rw [firstFree] at h
    split at h
    · rename_i hk
      cases i with
      | zero => simpa using hk
      | succ i =>
        rw [show k + (i + 1) = k + 1 + i by omega]
        exact mem_of_firstFree h i (Nat.le_of_succ_le_succ hi)
    · rename_i hk
      exact absurd h (by simpa using hk)

theorem firstFree_notMem (name : String) (taken : List String) (k : Nat) :
    firstFree name taken taken.length k ∉ taken := by
  intro h
  have hall := mem_of_firstFree h
  have hn : ((List.range (taken.length + 1)).map fun i => name ++ toString (k + i)).Nodup :=
    List.Nodup.map_on (fun i _ j _ he => by
      have := candidate_injective name he
      omega) List.nodup_range
  have hsub : ((List.range (taken.length + 1)).map fun i => name ++ toString (k + i)) ⊆ taken := by
    intro x hx
    obtain ⟨i, hi, rfl⟩ := List.mem_map.1 hx
    exact hall i (Nat.le_of_lt_succ (List.mem_range.1 hi))
  have hlen := (List.subperm_of_subset hn hsub).length_le
  rw [List.length_map, List.length_range] at hlen
  exact absurd hlen (Nat.not_succ_le_self _)

/-- A name that is made to differ from the taken ones is none of them. -/
theorem uniqueName_notMem (name : String) (taken : List String) : uniqueName name taken ∉ taken := by
  unfold uniqueName
  split
  · exact firstFree_notMem name taken 2
  · rename_i h
    simpa using h

/-- A name is made to differ by a number at its end, if by anything. -/
theorem uniqueName_eq (name : String) (taken : List String) :
    uniqueName name taken = name ∨ ∃ k : Nat, uniqueName name taken = name ++ toString k := by
  have hfree : ∀ n k, ∃ l : Nat, firstFree name taken n k = name ++ toString l := by
    intro n
    induction n with
    | zero => exact fun k => ⟨k, rfl⟩
    | succ n ih =>
      intro k
      rw [firstFree]
      split
      · exact ih (k + 1)
      · exact ⟨k, rfl⟩
  unfold uniqueName
  split
  · exact .inr (hfree _ _)
  · exact .inl rfl

/-- What a number at the end keeps is kept when names are made to differ. -/
theorem forall_mem_uniqueNames {P : String → Prop} (hnumber : ∀ n (k : Nat), P n → P (n ++ toString k)) :
    ∀ {taken names : List String}, (∀ n ∈ names, P n) → ∀ n ∈ uniqueNames taken names, P n
  | _, [], _ => fun _ h => absurd h List.not_mem_nil
  | taken, name :: names, h => by
    obtain ⟨hname, hnames⟩ := List.forall_mem_cons.1 h
    rw [uniqueNames]
    refine List.forall_mem_cons.2 ⟨?_, forall_mem_uniqueNames hnumber hnames⟩
    obtain heq | ⟨k, heq⟩ := uniqueName_eq name taken
    · rwa [heq]
    · rw [heq]
      exact hnumber name k hname

/-- A name that no number makes of another is kept where it comes first. -/
theorem mem_uniqueNames {n : String} (hnumber : ∀ m (k : Nat), m ++ toString k ≠ n) :
    ∀ {taken names : List String}, n ∈ names → n ∉ taken → n ∈ uniqueNames taken names
  | taken, name :: names, hn, hfree => by
    rw [uniqueNames]
    by_cases hname : n = name
    · subst hname
      rw [uniqueName, if_neg (by simpa using hfree)]
      exact List.mem_cons_self
    · refine List.mem_cons_of_mem _ (mem_uniqueNames hnumber ((List.mem_cons.1 hn).resolve_left hname) ?_)
      rw [List.mem_cons, not_or]
      refine ⟨fun heq => ?_, hfree⟩
      obtain hsame | ⟨k, hk⟩ := uniqueName_eq name taken
      · exact hname (heq.trans hsame)
      · exact hnumber name k (heq.trans hk).symm

theorem length_uniqueNames : ∀ (taken names : List String),
    (uniqueNames taken names).length = names.length
  | _, [] => rfl
  | taken, name :: names => by
    rw [uniqueNames, List.length_cons, List.length_cons, length_uniqueNames]

/-- Names that are made to differ are none of the taken ones and differ from each other. -/
theorem uniqueNames_free : ∀ (taken names : List String),
    (∀ n ∈ uniqueNames taken names, n ∉ taken) ∧ (uniqueNames taken names).Nodup
  | _, [] => ⟨fun _ h => absurd h List.not_mem_nil, List.nodup_nil⟩
  | taken, name :: names => by
    obtain ⟨hfree, hnodup⟩ := uniqueNames_free (uniqueName name taken :: taken) names
    have hrest : ∀ n ∈ uniqueNames (uniqueName name taken :: taken) names,
        n ≠ uniqueName name taken ∧ n ∉ taken := fun n hn => by
      simpa only [List.mem_cons, not_or] using hfree n hn
    rw [uniqueNames]
    refine ⟨List.forall_mem_cons.2 ⟨uniqueName_notMem name taken, fun n hn => (hrest n hn).2⟩, ?_⟩
    exact List.nodup_cons.2 ⟨fun h => (hrest _ h).1 rfl, hnodup⟩

/-! ## The smallest number -/

/-- The search from a number on, without any bound on its steps, ends at another. -/
inductive Ends (name : String) (taken : List String) : Nat → Nat → Prop
  | here {k : Nat} (hfree : name ++ toString k ∉ taken) : Ends name taken k k
  | later {k l : Nat} (htaken : name ++ toString k ∈ taken) (h : Ends name taken (k + 1) l) :
      Ends name taken k l

section

variable {name : String} {taken : List String} {k l : Nat}

/-- A search goes past what is taken and ends at what is free. -/
theorem Ends.least (h : Ends name taken k l) :
    k ≤ l ∧ name ++ toString l ∉ taken ∧ ∀ j, k ≤ j → j < l → name ++ toString j ∈ taken := by
  induction h with
  | here hfree => exact ⟨Nat.le_refl _, hfree, fun j hkj hj => absurd hkj (Nat.not_le_of_lt hj)⟩
  | later htaken _ ih =>
    obtain ⟨hle, hfree, hbefore⟩ := ih
    refine ⟨Nat.le_of_succ_le hle, hfree, fun j hkj hj => ?_⟩
    rcases Nat.eq_or_lt_of_le hkj with rfl | hkj
    · exact htaken
    · exact hbefore j hkj hj

/-- A search that is long enough ends where one without a bound does. -/
theorem firstFree_eq (h : Ends name taken k l) {n : Nat} (hn : l ≤ k + n) :
    firstFree name taken n k = name ++ toString l := by
  induction h generalizing n with
  | here hfree =>
    cases n with
    | zero => rfl
    | succ n => rw [firstFree, if_neg (by simpa using hfree)]
  | later htaken h ih =>
    cases n with
    | zero => exact absurd (Nat.lt_of_lt_of_le (Nat.lt_succ_self _) h.least.1) (Nat.not_lt_of_le hn)
    | succ n =>
      rw [firstFree, if_pos (by simpa using htaken)]
      exact ih (by omega)

/-- A search that has found a free name is over. -/
theorem exists_ends_of_firstFree {n : Nat} :
    ∀ {k : Nat}, firstFree name taken n k ∉ taken → ∃ l, Ends name taken k l ∧ l ≤ k + n := by
  induction n with
  | zero => exact fun h => ⟨_, .here h, Nat.le_refl _⟩
  | succ n ih =>
    intro k h
    rw [firstFree] at h
    split at h
    · rename_i htaken
      obtain ⟨l, hl, hle⟩ := ih h
      exact ⟨l, .later (by simpa using htaken) hl, by omega⟩
    · rename_i hfree
      exact ⟨k, .here (by simpa using hfree), Nat.le_add_right _ _⟩

/-- Every search ends, after as many steps as there are taken names at most. -/
theorem exists_ends (name : String) (taken : List String) (k : Nat) :
    ∃ l, Ends name taken k l ∧ l ≤ k + taken.length :=
  exists_ends_of_firstFree (firstFree_notMem name taken k)

/-- A search ends at one number. -/
theorem Ends.unique {l' : Nat} (h : Ends name taken k l) (h' : Ends name taken k l') : l = l' := by
  obtain ⟨hle, hfree, hbefore⟩ := h.least
  obtain ⟨hle', hfree', hbefore'⟩ := h'.least
  rcases Nat.lt_trichotomy l l' with hlt | heq | hlt
  · exact absurd (hbefore' l hle hlt) hfree
  · exact heq
  · exact absurd (hbefore l' hle' hlt) hfree'

theorem Ends.congr {taken' : List String} (htaken : ∀ n, n ∈ taken ↔ n ∈ taken')
    (h : Ends name taken k l) : Ends name taken' k l := by
  induction h with
  | here hfree => exact .here (mt (htaken _).2 hfree)
  | later hmem _ ih => exact .later ((htaken _).1 hmem) ih

theorem uniqueName_of_notMem (h : name ∉ taken) : uniqueName name taken = name := by
  rw [uniqueName, if_neg (by simpa using h)]

/-- A taken name gets the number at which the search from 2 on ends. -/
theorem exists_uniqueName_eq (h : name ∈ taken) :
    ∃ k, Ends name taken 2 k ∧ k ≤ 2 + taken.length ∧ uniqueName name taken = name ++ toString k := by
  obtain ⟨k, hk, hle⟩ := exists_ends name taken 2
  refine ⟨k, hk, hle, ?_⟩
  rw [uniqueName, if_pos (by simpa using h), firstFree_eq hk hle]

/-- Which names are taken is all that counts, not how often or in which order they are given. -/
theorem uniqueName_congr {taken' : List String} (htaken : ∀ n, n ∈ taken ↔ n ∈ taken') :
    uniqueName name taken = uniqueName name taken' := by
  by_cases h : name ∈ taken
  · obtain ⟨k, hk, -, hname⟩ := exists_uniqueName_eq h
    obtain ⟨k', hk', -, hname'⟩ := exists_uniqueName_eq ((htaken name).1 h)
    rw [hname, hname', (hk.congr htaken).unique hk']
  · rw [uniqueName_of_notMem h, uniqueName_of_notMem (mt (htaken name).2 h)]

end

/-- A name that is free is kept, and a taken one gets the smallest number from 2 on that makes it free; the
search for that number ends by itself. It is only the set of the taken names that counts. So names that are made
to differ one after the other, each from the taken ones and from those before it, are all different. -/
theorem uniqueName_least (name : String) (taken : List String) :
    uniqueName name taken ∉ taken ∧
    (name ∉ taken → uniqueName name taken = name) ∧
    (name ∈ taken → ∃ k, Ends name taken 2 k ∧ 2 ≤ k ∧ k ≤ 2 + taken.length ∧
      uniqueName name taken = name ++ toString k ∧ ∀ j, 2 ≤ j → j < k → name ++ toString j ∈ taken) ∧
    (∀ taken', (∀ n, n ∈ taken ↔ n ∈ taken') → uniqueName name taken = uniqueName name taken') ∧
    ∀ names, (uniqueNames taken names).length = names.length ∧ (uniqueNames taken names).Nodup ∧
      ∀ n ∈ uniqueNames taken names, n ∉ taken := by
  refine ⟨uniqueName_notMem name taken, uniqueName_of_notMem, fun h => ?_, fun _ => uniqueName_congr,
    fun names => ?_⟩
  · obtain ⟨k, hk, hle, hname⟩ := exists_uniqueName_eq h
    obtain ⟨htwo, -, hbefore⟩ := hk.least
    exact ⟨k, hk, htwo, hle, hname, hbefore⟩
  · obtain ⟨hfree, hnodup⟩ := uniqueNames_free taken names
    exact ⟨length_uniqueNames taken names, hnodup, hfree⟩

/-- Taken names, some of which end with a number. -/
def sampleTaken : List String := ["a3", "a", "a2"]

theorem uniqueName_sampleTaken :
    ("a" ∈ sampleTaken ∧ ∃ k, Ends "a" sampleTaken 2 k ∧ uniqueName "a" sampleTaken = "a" ++ toString k ∧
      ∀ j, 2 ≤ j → j < k → "a" ++ toString j ∈ sampleTaken) ∧
    ("a4" ∉ sampleTaken ∧ uniqueName "a4" sampleTaken = "a4") ∧
    uniqueName "a2" sampleTaken = uniqueName "a2" ["a", "a2", "a2", "a3"] ∧
    uniqueName "a2" sampleTaken ∉ sampleTaken := by
  have htaken : "a" ∈ sampleTaken := by decide
  have hfree : "a4" ∉ sampleTaken := by decide
  obtain ⟨k, hk, -, -, hname, hbefore⟩ := (uniqueName_least "a" sampleTaken).2.2.1 htaken
  obtain ⟨hnew, -, -, hset, -⟩ := uniqueName_least "a2" sampleTaken
  exact ⟨⟨htaken, k, hk, hname, hbefore⟩, ⟨hfree, (uniqueName_least "a4" sampleTaken).2.1 hfree⟩,
    hset _ (fun n => by simp [sampleTaken]; tauto), hnew⟩

example : uniqueNames ["a3"] ["a", "a", "a2", "a", "a2"] = ["a", "a2", "a22", "a4", "a23"] := by
  decide +kernel

end ApiContract.Text
