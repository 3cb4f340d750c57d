import ApiContract.Compilation
import ApiContract.Proofs.Except
import ApiContract.Proofs.Lists
import ApiContract.Proofs.Tree.Plain
import Mathlib.Data.List.Nodup

/-!
# Operations and the units that serve them

* `lookup_assign`: a unit is assigned the operations that no other unit serves.
* `lookup_targets`: the function of an identifier is that of the unit with an operation of that
  identifier.
-/

namespace ApiContract

namespace Operation

variable {operations : List Operation}

theorem nodup_of_ensureUniqueIds (h : ensureUniqueIds operations = .ok ()) :
    (operations.filterMap (·.id)).Nodup := by
  unfold ensureUniqueIds at h
  dsimp only at h
  split at h
  · rename_i hempty
    rw [List.nodup_iff_count_le_one]
    intro id
    by_contra hcount
    have hmem : id ∈ operations.filterMap (·.id) := by
      by_contra hmem
      rw [List.count_eq_zero_of_not_mem hmem] at hcount
      omega
    have hdup : id ∈ duplicateIds operations := by
      rw [duplicateIds, List.mem_mergeSort, List.mem_eraseDups, List.mem_filter]
      exact ⟨hmem, by simpa using hcount⟩
    rw [List.isEmpty_iff.1 hempty] at hdup
    exact absurd hdup List.not_mem_nil
  · cases h

/-- No two operations share an identifier. -/
theorem eq_of_id (h : ensureUniqueIds operations = .ok ()) {o o' : Operation} {id : String}
    (ho : o ∈ operations) (ho' : o' ∈ operations) (hid : o.id = some id) (hid' : o'.id = some id) :
    o = o' :=
  eq_of_filterMap_nodup (nodup_of_ensureUniqueIds h) ho ho' hid hid'

end Operation

namespace Deployment

variable {units : List Deployment} {assigned assigned' : List (String × List Operation)}
  {operations : List Operation} {o : Operation} {n : String}

/-- The names of the units that serve an operation. -/
def servers (units : List Deployment) (o : Operation) : List String :=
  (units.filter (·.serves o)).map (·.name)

theorem lookup_addTo (unit : String) : (addTo assigned unit o).lookup n =
    (assigned.lookup n).map fun os => if n = unit then os ++ [o] else os := by
  induction assigned with
  | nil => rfl
  | cons a assigned ih =>
    obtain ⟨m, os⟩ := a
    have hcons : addTo ((m, os) :: assigned) unit o =
        (m, if m = unit then os ++ [o] else os) :: addTo assigned unit o := by
      by_cases hm : m = unit <;> simp [addTo, hm]
    rw [hcons, lookup_cons_ite, lookup_cons_ite, ih]
    by_cases hn : n = m
    · rw [if_pos hn, if_pos hn, hn, Option.map_some]
    · rw [if_neg hn, if_neg hn]

theorem keys_addTo (unit : String) : (addTo assigned unit o).map (·.1) = assigned.map (·.1) := by
  rw [addTo, List.map_map]
  refine List.map_congr_left fun a _ => ?_
  obtain ⟨m, os⟩ := a
  dsimp only [Function.comp]
  split <;> rfl

theorem assignOne_eq_ok (h : assignOne units assigned o = .ok assigned') :
    assigned'.map (·.1) = assigned.map (·.1) ∧ ∀ n, assigned'.lookup n =
      (assigned.lookup n).map fun os => if servers units o = [n] then os ++ [o] else os := by
  unfold assignOne at h
  split at h
  · rename_i hs
    cases h
    rw [servers, hs]
    simp
  · rename_i unit hs
    split at h
    · cases h
    · cases h
      refine ⟨keys_addTo unit, fun n => ?_⟩
      rw [lookup_addTo, servers, hs]
      simp only [List.cons.injEq, and_true, eq_comm]
  · cases h

theorem foldlM_assignOne (h : operations.foldlM (assignOne units) assigned = .ok assigned') :
    assigned'.map (·.1) = assigned.map (·.1) ∧ ∀ n, assigned'.lookup n =
      (assigned.lookup n).map (· ++ operations.filter fun o => servers units o = [n]) := by
  induction operations generalizing assigned with
  | nil => cases h; simp
  | cons o operations ih =>
    rw [List.foldlM_cons] at h
    obtain ⟨assigned₁, h₁, h⟩ := bind_eq_ok.1 h
    obtain ⟨hkeys, hlookup⟩ := assignOne_eq_ok h₁
    obtain ⟨hkeys', hlookup'⟩ := ih h
    refine ⟨hkeys'.trans hkeys, fun n => ?_⟩
    rw [hlookup', hlookup, Option.map_map, List.filter_cons]
    congr 1
    funext os
    by_cases hs : servers units o = [n] <;> simp [hs]

theorem lookup_pairs {β : Type} (b : β) {l : List String} (hn : n ∈ l) :
    (l.map fun m => (m, b)).lookup n = some b := by
  induction l with
  | nil => exact absurd hn List.not_mem_nil
  | cons m l ih =>
    rw [List.map_cons, lookup_cons_ite]
    by_cases h : n = m
    · rw [if_pos h]
    · rw [if_neg h]
      exact ih ((List.mem_cons.1 hn).resolve_left h)

/-- A unit is assigned the operations that it alone serves, in order. -/
theorem lookup_assign (h : assign operations units = .ok assigned) (hn : n ∈ units.map (·.name)) :
    assigned.lookup n = some (operations.filter fun o => servers units o = [n]) := by
  rw [(foldlM_assignOne h).2, lookup_pairs [] (List.mem_eraseDups.2 hn)]
  rfl

end Deployment

namespace Compilation

/-- Units that are added one after the other have different names. -/
theorem nodup_addUnit {added units units' : List Deployment} (hn : (units.map (·.name)).Nodup)
    (h : added.foldlM addUnit units = .ok units') : (units'.map (·.name)).Nodup := by
  induction added generalizing units with
  | nil =>
    cases h
    exact hn
  | cons u added ih =>
    rw [List.foldlM_cons] at h
    obtain ⟨units₁, h₁, h⟩ := bind_eq_ok.1 h
    unfold addUnit at h₁
    split at h₁
    · cases h₁
    · rename_i hnew
      cases h₁
      refine ih ?_ h
      rw [List.map_append, List.map_singleton]
      refine List.Nodup.append hn (List.nodup_singleton _) fun name hmem hu => hnew ?_
      obtain ⟨v, hv, rfl⟩ := List.mem_map.1 hmem
      exact List.any_eq_true.2 ⟨v, hv, by simpa using hu⟩

variable {units : List Deployment} {assigned : List (String × List Operation)}
  {ts : List (String × Target)} {id : String} {target : Target}

theorem mem_targets (h : targets units assigned = .ok ts) :
    (id, target) ∈ ts ↔ ∃ u ∈ units, u.target = some target ∧
      ∃ o ∈ (assigned.lookup u.name).getD [], o.id = some id := by
  obtain ⟨parts, hparts, h⟩ := bind_eq_ok.1 h
  cases h
  rw [List.mem_flatten]
  constructor
  · rintro ⟨part, hpart, hmem⟩
    obtain ⟨u, hu, hok⟩ := mem_of_mapM hparts hpart
    refine ⟨u, hu, ?_⟩
    dsimp only at hok
    split at hok
    · rename_i t ht
      cases hok
      obtain ⟨o, ho, heq⟩ := List.mem_filterMap.1 hmem
      obtain ⟨id', hid, heq⟩ := Option.map_eq_some_iff.1 heq
      cases heq
      exact ⟨ht, o, ho, hid⟩
    · split at hok
      · cases hok
        exact absurd hmem List.not_mem_nil
      · cases hok
  · rintro ⟨u, hu, ht, o, ho, hid⟩
    obtain ⟨part, hok, hpart⟩ := exists_of_mapM hparts hu
    refine ⟨part, hpart, ?_⟩
    dsimp only at hok
    rw [ht] at hok
    cases hok
    exact List.mem_filterMap.2 ⟨o, ho, by rw [hid]; rfl⟩

/-- The function of an identifier is that of the unit that was assigned the operation. -/
theorem lookup_targets {operations : List Operation} (h : targets units assigned = .ok ts)
    (hassigned : Deployment.assign operations units = .ok assigned)
    (hunique : Operation.ensureUniqueIds operations = .ok ()) (hunits : (units.map (·.name)).Nodup) :
    ts.lookup id = some target ↔ ∃ u ∈ units, u.target = some target ∧
      ∃ o ∈ (assigned.lookup u.name).getD [], o.id = some id := by
  rw [← mem_targets h]
  refine ⟨mem_of_lookup, fun hmem => ?_⟩
  cases hl : ts.lookup id with
  | none =>
    have := List.lookup_eq_none_iff.1 hl _ hmem
    simp at this
  | some t =>
    obtain ⟨u, hu, ht, o, ho, hid⟩ := (mem_targets h).1 (mem_of_lookup hl)
    obtain ⟨u', hu', ht', o', ho', hid'⟩ := (mem_targets h).1 hmem
    rw [Deployment.lookup_assign hassigned (List.mem_map_of_mem hu), Option.getD_some,
      List.mem_filter] at ho
    rw [Deployment.lookup_assign hassigned (List.mem_map_of_mem hu'), Option.getD_some,
      List.mem_filter] at ho'
    -- The operation is the same, and one unit alone serves it.
    obtain rfl := Operation.eq_of_id hunique ho.1 ho'.1 hid hid'
    have hname : u.name = u'.name :=
      List.singleton_inj.1 ((of_decide_eq_true ho.2).symm.trans (of_decide_eq_true ho'.2))
    obtain rfl := List.inj_on_of_nodup_map hunits hu hu' hname
    rw [← ht, ht']

end Compilation

end ApiContract
