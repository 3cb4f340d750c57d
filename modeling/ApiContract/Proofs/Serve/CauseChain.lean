import ApiContract.Serve.CauseChain
import Mathlib.Data.Finset.Card
import Mathlib.Data.Finset.Range
import Mathlib.Data.Finset.SDiff
import Mathlib.Data.List.Chain
import Mathlib.Logic.Relation

/-!
# Each cause once

`render_each_cause_once`: an error in a log is followed by everything that it was caused by, once and in the
order of the causes, however the errors refer to each other.

The search for causes is a relation between its states (`Round`) without any bound on the number of rounds.
Two facts about one round carry everything:

* **Progress** (`Round.rank_lt`): a round sees an error that was unseen, so that no search goes on forever
  (`wellFounded_round`), and as many rounds as there are errors are enough (`causes_ends`).
* **The invariant** (`Following`): what has been found so far is the beginning of the chain of causes, without
  repetition; it is kept by a round and so by a run (`Following.runs`).
-/

namespace ApiContract.Serve.ChainedError

open Relation (ReflTransGen)

/-- The error at a place was caused by that at another. -/
inductive CausedBy (errors : List ChainedError) (place n : Nat) : Prop
  | direct {e : ChainedError} (he : errors[place]? = some e) (hcause : e.cause = some n)
  /-- It has no direct cause, and came up while the other was handled. -/
  | during {e : ChainedError} (he : errors[place]? = some e) (hcause : e.cause = none)
      (hshown : e.suppressed = false) (hcontext : e.context = some n)

/-- A search for causes: the errors seen so far, those of them that are causes, in order, and the one that the
search has come to. -/
structure Search where
  seen : List Nat
  found : List Nat
  last : Nat

namespace Search

/-- The search from an error on. -/
def start (place : Nat) : Search := ⟨[place], [], place⟩

/-- A bound on the rounds to come: the errors still unseen, and one more where the search has not left the
list of errors. -/
def rank (errors : List ChainedError) (s : Search) : Nat :=
  (Finset.range errors.length \ s.seen.toFinset).card + if s.last < errors.length then 1 else 0

end Search

/-- One round of a search: it comes to an error that it has not seen. -/
inductive Round (errors : List ChainedError) : Search → Search → Prop
  | find {seen found : List Nat} {last n : Nat} (hcause : CausedBy errors last n) (hnew : n ∉ seen) :
      Round errors ⟨seen, found, last⟩ ⟨n :: seen, found ++ [n], n⟩

/-- What the search from an error on has found when no further round is possible. -/
def Finds (errors : List ChainedError) (place : Nat) (found : List Nat) : Prop :=
  ∃ s, ReflTransGen (Round errors) (.start place) s ∧ (∀ t, ¬ Round errors s t) ∧ s.found = found

variable {errors : List ChainedError} {place m n : Nat} {s t : Search}

/-! ## Causes -/

theorem causedBy_iff : CausedBy errors place n ↔ (errors[place]?).bind next = some n := by
  constructor
  · rintro (⟨he, hcause⟩ | ⟨he, hcause, hshown, hcontext⟩)
    · rw [he, Option.bind_some, next, hcause]
    · rw [he, Option.bind_some, next, hcause]
      simpa [hshown] using hcontext
  · intro h
    obtain ⟨e, he, hnext⟩ := Option.bind_eq_some_iff.1 h
    rw [next] at hnext
    split at hnext
    · rename_i hcause
      exact .direct he (hcause.trans hnext)
    · rename_i hcause
      split at hnext
      · cases hnext
      · rename_i hshown
        exact .during he hcause (by simpa using hshown) hnext

theorem CausedBy.unique (hm : CausedBy errors place m) (hn : CausedBy errors place n) : m = n :=
  Option.some.inj ((causedBy_iff.1 hm).symm.trans (causedBy_iff.1 hn))

theorem CausedBy.lt_length (h : CausedBy errors place n) : place < errors.length := by
  obtain ⟨he, -⟩ | ⟨he, -⟩ := h <;> exact (List.getElem?_eq_some_iff.1 he).1

/-! ## Progress -/

theorem round_rightUnique (errors : List ChainedError) : Relator.RightUnique (Round errors) := by
  intro s t t' h h'
  obtain ⟨hcause, -⟩ := h
  obtain ⟨hcause', -⟩ := h'
  rw [hcause.unique hcause']

/-- A round sees an error that was unseen, or else leaves the list of errors for good. -/
theorem Round.rank_lt (h : Round errors s t) : t.rank errors < s.rank errors := by
  obtain @⟨seen, found, last, n, hcause, hnew⟩ := h
  simp only [Search.rank, List.toFinset_cons, Finset.sdiff_insert, if_pos hcause.lt_length]
  by_cases hn : n < errors.length
  · have hunseen : n ∈ Finset.range errors.length \ seen.toFinset := by simp [hn, hnew]
    have hless := Finset.card_erase_lt_of_mem hunseen
    rw [if_pos hn]
    omega
  · have hless := Finset.card_erase_le (s := Finset.range errors.length \ seen.toFinset) (a := n)
    rw [if_neg hn]
    omega

/-- No search goes on forever, whatever it starts with. -/
theorem wellFounded_round (errors : List ChainedError) : WellFounded fun t s => Round errors s t :=
  Subrelation.wf Round.rank_lt (measure (Search.rank errors)).wf

theorem rank_start_le (errors : List ChainedError) (place : Nat) :
    (Search.start place).rank errors ≤ errors.length := by
  rw [Search.rank, Search.start, List.toFinset_cons, List.toFinset_nil, Finset.sdiff_insert, Finset.sdiff_empty]
  split
  · rename_i hplace
    have hless := Finset.card_erase_lt_of_mem (Finset.mem_range.2 hplace)
    rwa [Finset.card_range] at hless
  · simpa using Finset.card_erase_le (s := Finset.range errors.length) (a := place)

/-! ## The search with a bound -/

/-- A bounded search is a run, and one that is over if the bound is no less than the rounds to come. -/
theorem chain_runs (errors : List ChainedError) (fuel : Nat) (s : Search) :
    ∃ t, ReflTransGen (Round errors) s t ∧ t.found = s.found ++ chain errors fuel s.seen s.last ∧
      (s.rank errors ≤ fuel → ∀ u, ¬ Round errors t u) := by
  induction fuel generalizing s with
  | zero =>
    refine ⟨s, .refl, (List.append_nil _).symm, fun hrank u hu => ?_⟩
    exact Nat.not_lt_zero _ (hu.rank_lt.trans_le hrank)
  | succ fuel ih =>
    obtain ⟨seen, found, last⟩ := s
    rw [chain]
    cases hnext : (errors[last]?).bind next with
    | none =>
      refine ⟨_, .refl, (List.append_nil _).symm, fun _ u hu => ?_⟩
      obtain ⟨hcause, -⟩ := hu
      cases hnext.symm.trans (causedBy_iff.1 hcause)
    | some n =>
      have hcause : CausedBy errors last n := causedBy_iff.2 hnext
      by_cases hn : n ∈ seen
      · simp only [List.contains_iff_mem, hn, if_true]
        refine ⟨_, .refl, (List.append_nil _).symm, fun _ u hu => ?_⟩
        obtain ⟨hcause', hnew⟩ := hu
        exact hnew (hcause.unique hcause' ▸ hn)
      · simp only [List.contains_iff_mem, hn, if_false]
        have hround : Round errors ⟨seen, found, last⟩ ⟨n :: seen, found ++ [n], n⟩ := .find hcause hn
        obtain ⟨t, hrun, hfound, hover⟩ := ih ⟨n :: seen, found ++ [n], n⟩
        refine ⟨t, .head hround hrun, by simpa using hfound, fun hrank => hover ?_⟩
        exact Nat.le_of_lt_succ (hround.rank_lt.trans_le hrank)

theorem length_chain_le (fuel : Nat) (seen : List Nat) (place : Nat) :
    (chain errors fuel seen place).length ≤ fuel := by
  induction fuel generalizing seen place with
  | zero => exact Nat.le_refl _
  | succ fuel ih =>
    rw [chain]
    split
    · exact Nat.zero_le _
    · split
      · exact Nat.zero_le _
      · exact Nat.succ_le_succ (ih ..)

/-- The bound on the search is never what ends it. -/
theorem causes_ends (errors : List ChainedError) (place : Nat) : Finds errors place (causes errors place) := by
  obtain ⟨s, hrun, hfound, hover⟩ := chain_runs errors errors.length (.start place)
  exact ⟨s, hrun, hover (rank_start_le errors place), hfound⟩

theorem Finds.unique {found found' : List Nat} (h : Finds errors place found)
    (h' : Finds errors place found') : found = found' := by
  obtain ⟨s, hrun, hover, rfl⟩ := h
  obtain ⟨s', hrun', hover', rfl⟩ := h'
  -- one of the runs goes on to the end of the other, and no round is left for it
  rcases hrun.total_of_right_unique (round_rightUnique errors) hrun' with hon | hon
  · rcases hon.cases_head with rfl | ⟨t, ht, -⟩
    · rfl
    · exact absurd ht (hover t)
  · rcases hon.cases_head with rfl | ⟨t, ht, -⟩
    · rfl
    · exact absurd ht (hover' t)

/-! ## What is found -/

/-- A search follows the chain of causes from an error on. -/
structure Following (errors : List ChainedError) (place : Nat) (s : Search) : Prop where
  seen : ∀ n, n ∈ s.seen ↔ n ∈ place :: s.found
  once : (place :: s.found).Nodup
  last : (place :: s.found).getLast? = some s.last
  ordered : (place :: s.found).IsChain (CausedBy errors)
  /-- Only the cause of the error that the search has come to may be missing. -/
  closed : ∀ m n, m ∈ place :: s.found → CausedBy errors m n → n ∈ place :: s.found ∨ m = s.last
  reached : ∀ n ∈ place :: s.found, ReflTransGen (CausedBy errors) place n

theorem Following.start (errors : List ChainedError) (place : Nat) :
    Following errors place (.start place) where
  seen _ := Iff.rfl
  once := List.nodup_singleton _
  last := rfl
  ordered := .singleton _
  closed _ _ hm _ := .inr (List.mem_singleton.1 hm)
  reached _ hn := List.mem_singleton.1 hn ▸ .refl

theorem Following.round (h : Following errors place s) (hround : Round errors s t) :
    Following errors place t := by
  obtain @⟨seen, found, last, n, hcause, hnew⟩ := hround
  have hfresh : n ∉ place :: found := fun hn => hnew ((h.seen n).2 hn)
  have hmem : ∀ m, m ∈ place :: (found ++ [n]) ↔ m ∈ place :: found ∨ m = n := fun m => by
    rw [← List.cons_append, List.mem_append, List.mem_singleton]
  have hlast : last ∈ place :: found := List.mem_of_getLast? h.last
  exact
    { seen := fun m => by rw [hmem, List.mem_cons, h.seen m, or_comm]
      once := by
        rw [← List.cons_append]
        exact h.once.append (List.nodup_singleton n) (List.disjoint_singleton.2 hfresh)
      last := by rw [← List.cons_append, List.getLast?_concat]
      ordered := by
        refine h.ordered.append (.singleton n) fun m hm k hk => ?_
        obtain rfl := Option.some.inj (h.last.symm.trans hm)
        obtain rfl := Option.some.inj hk
        exact hcause
      closed := fun m k hm hk => by
        rw [hmem] at hm ⊢
        obtain hm | rfl := hm
        · obtain hin | rfl := h.closed m k hm hk
          · exact .inl (.inl hin)
          · exact .inl (.inr (hk.unique hcause))
        · exact .inr rfl
      reached := fun m hm => by
        obtain hm | rfl := (hmem m).1 hm
        · exact h.reached m hm
        · exact (h.reached last hlast).tail hcause }

theorem Following.runs (h : Following errors place s) (hrun : ReflTransGen (Round errors) s t) :
    Following errors place t := by
  induction hrun with
  | refl => exact h
  | tail _ hround ih => exact ih.round hround

/-- Where no round is left, nothing on the chain is missing. -/
theorem Following.mem_of_over (h : Following errors place s) (hover : ∀ t, ¬ Round errors s t)
    (hn : ReflTransGen (CausedBy errors) place n) : n ∈ place :: s.found := by
  induction hn with
  | refl => exact List.mem_cons_self
  | @tail m n _ hcause ih =>
    obtain hin | rfl := h.closed m n ih hcause
    · exact hin
    · by_contra hout
      exact hover _ (.find hcause (mt (h.seen n).1 hout))

namespace Finds

variable {found : List Nat}

theorem ordered (h : Finds errors place found) : (place :: found).IsChain (CausedBy errors) := by
  obtain ⟨s, hrun, -, rfl⟩ := h
  exact ((Following.start errors place).runs hrun).ordered

theorem once (h : Finds errors place found) : (place :: found).Nodup := by
  obtain ⟨s, hrun, -, rfl⟩ := h
  exact ((Following.start errors place).runs hrun).once

/-- What a search finds, with the error that it starts from, is what the chain of causes comes to. -/
theorem mem_iff (h : Finds errors place found) :
    n ∈ place :: found ↔ ReflTransGen (CausedBy errors) place n := by
  obtain ⟨s, hrun, hover, rfl⟩ := h
  have hs := (Following.start errors place).runs hrun
  exact ⟨hs.reached n, hs.mem_of_over hover⟩

/-- The causes are the errors on the chain but the first. -/
theorem mem_further_iff (h : Finds errors place found) :
    n ∈ found ↔ n ≠ place ∧ ReflTransGen (CausedBy errors) place n := by
  rw [← h.mem_iff, List.mem_cons]
  have hplace : place ∉ found := (List.nodup_cons.1 h.once).1
  constructor
  · exact fun hn => ⟨fun heq => hplace (heq ▸ hn), .inr hn⟩
  · exact fun ⟨hne, hn⟩ => hn.resolve_left hne

end Finds

/-- However errors refer to each other, the search for what an error was caused by ends, at the first error that
was seen before if not earlier. The causes that it finds are the chain of causes from the error on: each was
caused by the next, none occurs twice, and nothing else is on the chain. The log names the error itself, and
then each of these causes in this order. -/
theorem render_each_cause_once (errors : List ChainedError) (place : Nat) (label : String) :
    (WellFounded fun t s => Round errors s t) ∧
    (∀ found, Finds errors place found ↔ found = causes errors place) ∧
    (place :: causes errors place).IsChain (CausedBy errors) ∧
    (place :: causes errors place).Nodup ∧
    (∀ n, n ∈ causes errors place ↔ n ≠ place ∧ ReflTransGen (CausedBy errors) place n) ∧
    (∀ m ∈ (place :: causes errors place).getLast?, ∀ n, CausedBy errors m n →
      n ∈ place :: causes errors place) ∧
    (causes errors place).length ≤ errors.length ∧
    render errors place label = "\n".intercalate
      ((if label = "" then messageAt errors place else label ++ ": " ++ messageAt errors place) ::
        (causes errors place).map fun n => "  caused by: " ++ messageAt errors n) := by
  have h := causes_ends errors place
  refine ⟨wellFounded_round errors, fun found => ⟨fun h' => h'.unique h, fun heq => heq ▸ h⟩, h.ordered,
    h.once, fun n => h.mem_further_iff, fun m hm n hn => ?_, length_chain_le .., ?_⟩
  · have hm : ReflTransGen (CausedBy errors) place m := h.mem_iff.1 (List.mem_of_getLast? hm)
    exact h.mem_iff.2 (hm.tail hn)
  · simp only [render, String.isEmpty_iff]

/-- An error with a direct cause, which hides what was handled then; behind it two errors in a circle. The last
one came up while it was handled itself. -/
def sampleTangled : List ChainedError :=
  [⟨"a", some 1, some 3, false⟩, ⟨"b", none, some 2, false⟩, ⟨"c", some 1, none, true⟩,
    ⟨"d", none, some 3, false⟩]

theorem render_sampleTangled :
    (0 :: causes sampleTangled 0).getLast? = some 2 ∧ CausedBy sampleTangled 2 1 ∧
      1 ∈ 0 :: causes sampleTangled 0 ∧ Finds sampleTangled 0 [1, 2] ∧
      ReflTransGen (CausedBy sampleTangled) 0 2 ∧ ¬ ReflTransGen (CausedBy sampleTangled) 0 3 ∧
      render sampleTangled 0 "E" = "E: a\n  caused by: b\n  caused by: c" := by
  have hcauses : causes sampleTangled 0 = [1, 2] := by decide
  have hcycle : CausedBy sampleTangled 2 1 := .direct rfl rfl
  obtain ⟨-, hfinds, -, -, hexact, hstop, -, htext⟩ := render_each_cause_once sampleTangled 0 "E"
  rw [hcauses] at hfinds hexact hstop htext ⊢
  refine ⟨rfl, hcycle, hstop 2 rfl 1 hcycle, (hfinds _).2 rfl, ((hexact 2).1 (by decide)).2, fun h => ?_, ?_⟩
  · exact absurd ((hexact 3).2 ⟨by decide, h⟩) (by decide)
  · rw [htext]
    decide +kernel

example : causes [⟨"a", none, some 0, false⟩] 0 = [] := by decide

end ApiContract.Serve.ChainedError
