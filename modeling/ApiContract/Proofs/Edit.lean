import ApiContract.Proofs.Except
import ApiContract.Proofs.Tree.Plain
import ApiContract.Reference

/-!
# Runs of edits and final forms

A run of a program with a state is an equation `m s = (a, s')`. `bind_run` and `pure_run` take runs
apart, and for each way of putting edits together one lemma says what a run that ends well has done.
Writing the final forms of shared nodes into a tree changes nothing above the first shared node.
-/

namespace ApiContract

variable {σ α β : Type} {s s' : σ}

theorem bind_run {m : StateM σ α} {f : α → StateM σ β} {b : β} :
    (m >>= f) s = (b, s') ↔ ∃ a s₁, m s = (a, s₁) ∧ f a s₁ = (b, s') := by
  constructor
  · exact fun h => ⟨_, _, rfl, h⟩
  · rintro ⟨a, s₁, h, h'⟩
    simp only [bind, StateT.bind, h]
    exact h'

theorem bind_of_run {m : StateM σ α} {f : α → StateM σ β} {a : α} (h : m s = (a, s')) :
    (m >>= f) s = f a s' :=
  bind_run.2 ⟨a, s', h, rfl⟩

theorem pure_run {a b : α} : (pure a : StateM σ α) s = (b, s') ↔ a = b ∧ s = s' := by
  show ((a, s) : α × σ) = (b, s') ↔ _
  rw [Prod.mk.injEq]

theorem get_run {a : σ} : (get : StateM σ σ) s = (a, s') ↔ s = a ∧ s = s' := by
  show ((s, s) : σ × σ) = (a, s') ↔ _
  rw [Prod.mk.injEq]

theorem modify_run {f : σ → σ} {a : PUnit} : (modify f : StateM σ PUnit) s = (a, s') ↔ f s = s' := by
  show ((⟨⟩, f s) : PUnit × σ) = (a, s') ↔ _
  simp

/-- Nothing is recorded of a plain tree. -/
theorem recordIn_plain {t : Tree} (h : Tree.Plain t) (records : List (Nat × Tree)) :
    t.recordIn records = records := by
  simp only [Tree.recordIn, h.anchor_eq]

namespace Edit

theorem andThen_run {e f : Edit (StateM σ)} {t t' : Tree} (h : andThen e f t s = ((t', .ok ()), s')) :
    ∃ u s₁, e t s = ((u, .ok ()), s₁) ∧ f u s₁ = ((t', .ok ()), s') := by
  obtain ⟨⟨u, r⟩, s₁, h₁, h₂⟩ := bind_run.1 h
  cases r with
  | ok => exact ⟨u, s₁, h₁, h₂⟩
  | error x => cases (pure_run.1 h₂).1

theorem whenMap_run {e : Edit (StateM σ)} {t t' : Tree} (h : whenMap e t s = ((t', .ok ()), s')) :
    (t.isMap = true ∧ e t s = ((t', .ok ()), s')) ∨ (t.isMap = false ∧ t' = t ∧ s' = s) := by
  unfold whenMap at h
  split at h
  · exact .inl ⟨‹_›, h⟩
  · rename_i hm
    obtain ⟨he, rfl⟩ := pure_run.1 h
    cases he
    exact .inr ⟨by simpa using hm, rfl, rfl⟩

variable [Sharing (StateM σ)]

theorem shared_of_anchor {e : Edit (StateM σ)} {t : Tree} (h : t.anchor = none) :
    shared e t = e t := by
  simp only [shared, h]

/-- An edit of the value under a key keeps the keys and the other values. -/
theorem valueIn_run {key : Scalar} {e : Edit (StateM σ)} :
    ∀ {es es' : Entries} {s s' : σ}, valueIn key e es s = ((es', .ok ()), s') →
      es'.keys = es.keys ∧ (∀ k, k ≠ key → es'.at? k = es.at? k) ∧
        match es.at? key with
        | none => es' = es ∧ s' = s
        | some x => ∃ x', es'.at? key = some x' ∧ shared e x s = ((x', .ok ()), s')
  | [], es', s, s', h => by
    obtain ⟨he, rfl⟩ := pure_run.1 h
    cases he
    exact ⟨rfl, fun _ _ => rfl, rfl, rfl⟩
  | (k, t) :: es, es', s, s', h => by
    rw [valueIn] at h
    split at h
    · rename_i hk
      subst hk
      obtain ⟨⟨t', r⟩, s₁, h₁, h₂⟩ := bind_run.1 h
      obtain ⟨he, rfl⟩ := pure_run.1 h₂
      cases he
      refine ⟨rfl, fun l hl => ?_, ?_⟩
      · rw [Entries.at?_cons, Entries.at?_cons, if_neg hl.symm, if_neg hl.symm]
      · simpa [Entries.at?_cons] using h₁
    · rename_i hk
      obtain ⟨⟨es₁, r⟩, s₁, h₁, h₂⟩ := bind_run.1 h
      obtain ⟨he, rfl⟩ := pure_run.1 h₂
      cases he
      obtain ⟨hkeys, hne, hat⟩ := valueIn_run h₁
      refine ⟨by rw [Entries.keys, List.map_cons, ← Entries.keys, hkeys]; rfl, fun l hl => ?_, ?_⟩
      · rw [Entries.at?_cons, Entries.at?_cons, hne l hl]
      · rw [Entries.at?_cons, if_neg hk]
        cases hx : Entries.at? key es with
        | none =>
          rw [hx] at hat
          obtain ⟨rfl, rfl⟩ := hat
          exact ⟨rfl, rfl⟩
        | some x =>
          rw [hx] at hat
          obtain ⟨x', hx', hrun⟩ := hat
          exact ⟨x', by rw [Entries.at?_cons, if_neg hk, hx'], hrun⟩

/-- An edit of the value under a key puts what it makes of the value there. -/
theorem valueIn_put {key : Scalar} {x : Tree} {e : Edit (StateM σ)} : ∀ {es es' : Entries} {s s' : σ},
    valueIn key e es s = ((es', .ok ()), s') → es.at? key = some x →
      ∃ x', es' = Entries.put key x' es ∧ shared e x s = ((x', .ok ()), s')
  | (k, t) :: es, es', s, s', h, hx => by
    rw [valueIn] at h
    rw [Entries.at?_cons] at hx
    by_cases hk : k = key
    · rw [if_pos hk] at h hx
      cases hx
      obtain ⟨⟨x', r⟩, s₁, h₁, h⟩ := bind_run.1 h
      obtain ⟨he, rfl⟩ := pure_run.1 h
      cases he
      exact ⟨x', by rw [Entries.put, if_pos hk], h₁⟩
    · rw [if_neg hk] at h hx
      obtain ⟨⟨es₁, r⟩, s₁, h₁, h⟩ := bind_run.1 h
      obtain ⟨he, rfl⟩ := pure_run.1 h
      cases he
      obtain ⟨x', rfl, hrun⟩ := valueIn_put h₁ hx
      exact ⟨x', by rw [Entries.put, if_neg hk], hrun⟩

theorem value_run {key : String} {e : Edit (StateM σ)} {t t' : Tree}
    (h : value key e t s = ((t', .ok ()), s')) :
    (∃ a es es', t = .map a es ∧ t' = .map a es' ∧
      valueIn (.text key) e es s = ((es', .ok ()), s')) ∨ (t.entries? = none ∧ t' = t ∧ s' = s) := by
  cases t with
  | map a es =>
    obtain ⟨⟨es', r⟩, s₁, h₁, h⟩ := bind_run.1 h
    obtain ⟨he, rfl⟩ := pure_run.1 h
    cases he
    exact .inl ⟨a, es, es', rfl, rfl, h₁⟩
  | _ =>
    obtain ⟨he, rfl⟩ := pure_run.1 h
    cases he
    exact .inr ⟨rfl, rfl, rfl⟩

end Edit

end ApiContract

/-! ## Trees with the final forms of shared nodes -/

namespace ApiContract.Tree

variable (records : List (Nat × Tree))

section

variable (n : Nat)

theorem settleWithin_scalar (s : Scalar) : settleWithin records (n + 1) (.scalar s) = .scalar s := by
  rw [settleWithin, para]

theorem settleWithin_set (a : Anchor) (ms : List Scalar) :
    settleWithin records (n + 1) (.set a ms) = .set a ms := by
  rw [settleWithin, para]

theorem settleWithin_back (a : Nat) (m : Bool) :
    settleWithin records (n + 1) (.back a m) = .back a m := by
  rw [settleWithin, para]

theorem settleWithin_pair (x y : Tree) : settleWithin records (n + 1) (.pair x y) =
    .pair (settleWithin records (n + 1) x) (settleWithin records (n + 1) y) := by
  rw [settleWithin, settleWithin, settleWithin, para]

theorem settleWithin_map (es : Entries) : settleWithin records (n + 1) (.map none es) =
    .map none (es.map fun e => (e.1, settleWithin records (n + 1) e.2)) := by
  simp only [settleWithin, para, paraEntries_eq, List.map_map]
  rfl

theorem settleWithin_list (ts : List Tree) : settleWithin records (n + 1) (.list none ts) =
    .list none (ts.map (settleWithin records (n + 1))) := by
  have hitem : settleWithin records (n + 1) = fun t => settleWithin records (n + 1) t := rfl
  rw [hitem]
  simp only [settleWithin, para, paraItems_eq, List.map_map]
  rfl

end

theorem settle_scalar (s : Scalar) : settle records (.scalar s) = .scalar s := by
  unfold settle
  split
  · rfl
  · exact settleWithin_scalar records _ s

theorem settle_map (es : Entries) :
    settle records (.map none es) = .map none (es.map fun e => (e.1, settle records e.2)) := by
  unfold settle
  split
  · rw [List.map_id']
  · exact settleWithin_map records _ es

/-- A shared map is written in its recorded form. -/
theorem settle_recorded {a : Nat} {b : Anchor} {es es' : Entries} (h : records.lookup a = some (.map b es')) :
    settle records (.map (some a) es) =
      .map b (es'.map fun e => (e.1, settleWithin records records.length e.2)) := by
  have hne : records.isEmpty = false := by
    cases records with
    | nil => cases h
    | cons => rfl
  rw [settle, hne, if_neg Bool.false_ne_true, settleWithin, para]
  simp only [Option.bind_some, h]
  rw [settleWithin.settleParts]

/-- A tree that no other place shares stays a map or stays none, and likewise a text. -/
theorem settle_of_anchor {t : Tree} (h : t.anchor = none) :
    (settle records t).isMap = t.isMap ∧ (settle records t).text? = t.text? := by
  unfold settle
  split
  · exact ⟨rfl, rfl⟩
  · cases t with
    | scalar s => rw [settleWithin_scalar]; exact ⟨rfl, rfl⟩
    | list a ts =>
      obtain rfl : a = none := h
      rw [settleWithin_list]
      exact ⟨rfl, rfl⟩
    | map a es =>
      obtain rfl : a = none := h
      rw [settleWithin_map]
      exact ⟨rfl, rfl⟩
    | set a ms => rw [settleWithin_set]; exact ⟨rfl, rfl⟩
    | pair x y => rw [settleWithin_pair]; exact ⟨rfl, rfl⟩
    | back a m => rw [settleWithin_back]; exact ⟨rfl, rfl⟩

/-- A plain tree is in its final form. -/
theorem settle_plain {t : Tree} (h : Plain t) : settle records t = t := by
  unfold settle
  split
  · rfl
  · induction t using induct with
    | scalar s => exact settleWithin_scalar records _ s
    | list a ts ih =>
      obtain ⟨rfl, hts⟩ := plain_list.1 h
      rw [settleWithin_list, List.map_congr_left fun t ht => ih t ht (hts t ht), List.map_id']
    | map a es ih =>
      obtain ⟨rfl, -, hes⟩ := plain_map.1 h
      rw [settleWithin_map, List.map_congr_left fun e he => by rw [ih e he (hes e he).2],
        List.map_id']
    | set a ms => exact settleWithin_set records _ a ms
    | pair x y ihx ihy =>
      obtain ⟨hx, hy⟩ := plain_pair.1 h
      rw [settleWithin_pair, ihx hx, ihy hy]
    | back a m => exact absurd h plain_back

/-! ## Views of the final form -/

variable {t : Tree}

theorem getD_map (a : Anchor) (es : Entries) (key : String) :
    (map a es).getD key = es.orNull key := rfl

theorem getD_of_not_map (h : t.isMap = false) (key : String) : t.getD key = .null := by
  cases t with
  | map => cases h
  | _ => rfl

theorem orNull_settle (es : Entries) (key : String) :
    Entries.orNull (es.map fun e => (e.1, e.2.settle records)) key = (es.orNull key).settle records := by
  rw [Entries.orNull, Entries.orNull, Entries.get?, Entries.at?_map fun _ => settle records,
    Entries.get?]
  cases Entries.at? (.text key) es with
  | none => exact (settle_scalar records .null).symm
  | some x => rfl

theorem getD_settle (h : t.anchor = none) (key : String) :
    (t.settle records).getD key = (t.getD key).settle records := by
  cases t with
  | map a es =>
    obtain rfl : a = none := h
    rw [settle_map, getD_map, getD_map, orNull_settle]
  | _ =>
    rw [getD_of_not_map ((settle_of_anchor records h).1.trans rfl)]
    exact (settle_scalar records .null).symm

theorem entries?_settle (h : t.anchor = none) : (t.settle records).entries? =
    t.entries?.map fun es => es.map fun e => (e.1, e.2.settle records) := by
  cases t with
  | map a es =>
    obtain rfl : a = none := h
    rw [settle_map]
    rfl
  | _ =>
    have hmap := (settle_of_anchor records h).1
    exact Option.not_isSome_iff_eq_none.1 fun hsome => by cases hsome.symm.trans hmap

theorem isReference_settle (h : t.anchor = none) (href : (t.getD "$ref").anchor = none) :
    Reference.isReference (t.settle records) = Reference.isReference t := by
  have hof : ∀ u : Tree, Reference.ofTree? u = (u.getD "$ref").text? := by
    intro u
    cases u with
    | map a es =>
      rw [getD_map, Entries.orNull]
      show (Entries.get? es "$ref").bind Tree.text? = _
      cases Entries.get? es "$ref" <;> rfl
    | _ => rfl
  rw [Reference.isReference, Reference.isReference, hof, hof, getD_settle records h,
    (settle_of_anchor records href).2]

end ApiContract.Tree
