import ApiContract.Proofs.Inline.Walk
import ApiContract.Proofs.Lists

/-!
# What a walk asks

A walk asks for an answer to every reference that it meets (`Met`), and over a plain tree it depends on
nothing else. `Consults` says this of a step that is given the answers: it is the same step if the met
references have the same answers, it ends well only if all of them have been answered, and it ends with a
cycle only if one of them has. The rules put such steps together, and `asks_walk` is about the walk as a whole.
-/

namespace ApiContract.Inline

open Tree Walk

variable {α β : Type} {spot : Spot} {kind : Kind} {r : String}

/-! ## References that are met -/

/-- The visit of a tree meets a reference. -/
def Met (spot : Spot) (t : Tree) (kind : Kind) (r : String) : Prop :=
  ∃ steps spot' x, spot.visit? t steps = some (spot', x) ∧ spot'.refers x = some (kind, r)

theorem References.of_met {P : Kind → String → Prop} {t : Tree} (h : References P spot t)
    (hm : Met spot t kind r) : P kind r := by
  obtain ⟨steps, spot', x, hx, hr⟩ := hm
  exact h steps spot' x kind r hx hr

theorem references_met (spot : Spot) (t : Tree) : References (Met spot t) spot t :=
  fun steps spot' x _ _ hx hr => ⟨steps, spot', x, hx, hr⟩

theorem met_of_refers {t : Tree} {k' : Kind} {r' : String} (h : spot.refers t = some (k', r')) :
    Met spot t kind r ↔ kind = k' ∧ r = r' := by
  constructor
  · exact fun hm => (references_of_refers (P := fun k r => k = k' ∧ r = r') h ⟨rfl, rfl⟩).of_met hm
  · rintro ⟨rfl, rfl⟩
    exact ⟨[], spot, t, rfl, h⟩

theorem met_map {a : Anchor} {es : Entries} (h : spot.refers (.map a es) = none) :
    Met spot (.map a es) kind r ↔ ∃ k x, es.at? k = some x ∧ Met (spot.part k) x kind r := by
  constructor
  · refine fun hm => (references_map (P := fun kind r => ∃ k x, es.at? k = some x ∧
      Met (spot.part k) x kind r) h fun k x hx => ?_).of_met hm
    exact (references_met (spot.part k) x).imp fun _ _ hm => ⟨k, x, hx, hm⟩
  · rintro ⟨k, x, hx, hm⟩
    exact ((references_met spot (.map a es)).entry h hx).of_met hm

theorem met_list {a : Anchor} {ts : List Tree} :
    Met spot (.list a ts) kind r ↔ ∃ t ∈ ts, Met spot.item t kind r := by
  constructor
  · refine fun hm => (references_list (P := fun kind r => ∃ t ∈ ts, Met spot.item t kind r)
      fun i x hx => ?_).of_met hm
    exact (references_met spot.item x).imp fun _ _ hm => ⟨x, List.mem_of_getElem? hx, hm⟩
  · rintro ⟨t, ht, hm⟩
    obtain ⟨i, hi⟩ := List.getElem?_of_mem ht
    exact ((references_met spot (.list a ts)).item hi).of_met hm

theorem not_met_leaf {t : Tree} (hr : spot.refers t = none) (hm : t.entries? = none)
    (hl : t.items? = none) : ¬ Met spot t kind r :=
  (references_leaf (P := fun _ _ => False) hr hm hl).of_met

theorem not_met_inert (t : Tree) : ¬ Met .inert t kind r :=
  (references_inert (P := fun _ _ => False) t).of_met

/-- Nothing is met where no visit looks further. -/
theorem not_met_rest {t : Tree} (hr : spot.refers t = none) (hi : spot.item = .inert)
    (hp : ∀ k, spot.part k = .inert) : ¬ Met spot t kind r := by
  cases t with
  | map a es =>
    rw [met_map hr]
    rintro ⟨k, x, -, h⟩
    exact not_met_inert x (hp k ▸ h)
  | list a ts =>
    rw [met_list, hi]
    rintro ⟨t, -, h⟩
    exact not_met_inert t h
  | _ => exact not_met_leaf hr rfl rfl

/-- In what is no map, nothing is met but in the items of a list. -/
theorem not_met_of_not_map {t : Tree} (hm : t.entries? = none) (hr : spot.refers t = none)
    (hi : spot.item = .inert) : ¬ Met spot t kind r := by
  cases t with
  | map => cases hm
  | list a ts =>
    rw [met_list, hi]
    rintro ⟨t, -, h⟩
    exact not_met_inert t h
  | _ => exact not_met_leaf hr rfl rfl

/-! ## Answers -/

/-- What a walk is given: what answers references, and a bound for the shared nodes that lie within each
other. -/
structure Answers where
  bound : Nat
  answer : Kind → String → Run (Except Failure Tree)

instance : CoeFun Answers fun _ => Kind → String → Run (Except Failure Tree) := ⟨Answers.answer⟩

/-- No node has been recorded, and the table is a given one. -/
def At (table : Option Tree) (s : State) : Prop := s.records = [] ∧ s.table = table

/-- No answer records anything or changes the table. -/
def Keeps (f : Answers) : Prop :=
  ∀ ⦃kind r s a s' table⦄, f kind r s = (a, s') → At table s → At table s'

/-- A reference has been answered. -/
def Answered (f : Answers) (kind : Kind) (r : String) : Prop :=
  ∃ s n s', s.records = [] ∧ f kind r s = (.ok n, s')

/-- A reference has been found to lead to a cycle. -/
def Cyclic (f : Answers) (kind : Kind) (r : String) (chain : List (String × String)) : Prop :=
  ∃ s s', s.records = [] ∧ f kind r s = (.error (.inliningCycle chain), s')

/-- A step depends on the answers to some references alone. -/
structure Consults (met : Kind → String → Prop) (pre : State → Prop) (post : α → State → Prop)
    (fail : State → Prop) (m : Answers → Run (α × Except Failure Unit)) : Prop where
  congr : ∀ {f g : Answers} {s}, Keeps f → pre s →
    (∀ kind r, met kind r → ∀ s, s.records = [] → f kind r s = g kind r s) → m f s = m g s
  ok : ∀ {f : Answers} {s a s'}, Keeps f → pre s → m f s = ((a, .ok ()), s') →
    post a s' ∧ ∀ kind r, met kind r → Answered f kind r
  error : ∀ {f : Answers} {s a e s'}, Keeps f → pre s → m f s = ((a, .error e), s') →
    fail s' ∧ ∀ chain, e = .inliningCycle chain → ∃ kind r, met kind r ∧ Cyclic f kind r chain

variable {met met' : Kind → String → Prop} {pre pre' fail fail' : State → Prop}
  {m : Answers → Run (α × Except Failure Unit)}

theorem Consults.imp {post post' : α → State → Prop} (h : Consults met pre post fail m)
    (hmet : ∀ kind r, met' kind r ↔ met kind r) (hpre : ∀ s, pre' s → pre s)
    (hpost : ∀ a s, post a s → post' a s) (hfail : ∀ s, fail s → fail' s) :
    Consults met' pre' post' fail' m where
  congr hf hs heq := h.congr hf (hpre _ hs) fun kind r hr => heq kind r ((hmet kind r).2 hr)
  ok hf hs hrun := by
    obtain ⟨hpost', hall⟩ := h.ok hf (hpre _ hs) hrun
    exact ⟨hpost _ _ hpost', fun kind r hr => hall kind r ((hmet kind r).1 hr)⟩
  error hf hs hrun := by
    obtain ⟨hfail', hcycle⟩ := h.error hf (hpre _ hs) hrun
    refine ⟨hfail _ hfail', fun chain he => ?_⟩
    obtain ⟨kind, r, hr, hcyclic⟩ := hcycle chain he
    exact ⟨kind, r, (hmet kind r).2 hr, hcyclic⟩

/-- What holds before a step may be assumed. -/
theorem Consults.of_pre {P : Prop} {post : α → State → Prop} (hpre : ∀ s, pre s → P)
    (h : P → Consults met pre post fail m) : Consults met pre post fail m where
  congr hf hs := (h (hpre _ hs)).congr hf hs
  ok hf hs := (h (hpre _ hs)).ok hf hs
  error hf hs := (h (hpre _ hs)).error hf hs

/-- A step that asks for nothing. -/
theorem consults_pure {post : α → State → Prop} {a : α} (hmet : ∀ kind r, ¬ met kind r)
    (h : ∀ s, pre s → post a s) : Consults met pre post fail fun _ => pure (a, .ok ()) where
  congr _ _ _ := rfl
  ok _ hs hrun := by
    obtain ⟨heq, rfl⟩ := pure_run.1 hrun
    cases heq
    exact ⟨h _ hs, fun kind r hr => absurd hr (hmet kind r)⟩
  error _ _ hrun := by cases (pure_run.1 hrun).1

/-- A step that fails, but not with a cycle. -/
theorem consults_error {post : α → State → Prop} {a : α} {e : Failure} (h : ∀ s, pre s → fail s)
    (he : ∀ chain, e ≠ .inliningCycle chain) :
    Consults met pre post fail fun _ => pure (a, .error e) where
  congr _ _ _ := rfl
  ok _ _ hrun := by cases (pure_run.1 hrun).1
  error _ hs hrun := by
    obtain ⟨heq, rfl⟩ := pure_run.1 hrun
    cases heq
    exact ⟨h _ hs, fun chain heq => absurd heq (he chain)⟩

/-- One step, then another unless the first fails. -/
def andThen (m : Run (α × Except Failure Unit)) (stop : α → β)
    (next : α → Run (β × Except Failure Unit)) : Run (β × Except Failure Unit) := do
  let (a, r) ← m
  match r with
  | .error e => pure (stop a, .error e)
  | .ok _ => next a

theorem Consults.andThen {mid : α → State → Prop} {post : β → State → Prop}
    {next : α → Answers → Run (β × Except Failure Unit)} (h : Consults met pre mid fail m)
    (stop : α → β) (hnext : ∀ a, Consults met' (mid a) post fail (next a)) :
    Consults (fun kind r => met kind r ∨ met' kind r) pre post fail
      fun f => Inline.andThen (m f) stop fun a => next a f where
  congr {f g s} hf hs heq := by
    have hm := h.congr hf hs fun kind r hr => heq kind r (.inl hr)
    show (m f >>= _) s = (m g >>= _) s
    rcases hrun : m f s with ⟨⟨a, e | u⟩, s'⟩
    · rw [bind_of_run hrun, bind_of_run (hm ▸ hrun)]
    · obtain ⟨hmid, -⟩ := h.ok hf hs hrun
      rw [bind_of_run hrun, bind_of_run (hm ▸ hrun)]
      exact (hnext a).congr hf hmid fun kind r hr => heq kind r (.inr hr)
  ok hf hs hrun := by
    obtain ⟨⟨a, e⟩, s₁, h₁, h₂⟩ := bind_run.1 hrun
    cases e with
    | error e => cases (pure_run.1 h₂).1
    | ok u =>
      obtain ⟨hmid, hall⟩ := h.ok hf hs h₁
      obtain ⟨hpost, hall'⟩ := (hnext a).ok hf hmid h₂
      exact ⟨hpost, fun kind r hr => hr.elim (hall kind r) (hall' kind r)⟩
  error hf hs hrun := by
    obtain ⟨⟨a, e⟩, s₁, h₁, h₂⟩ := bind_run.1 hrun
    cases e with
    | error e =>
      obtain ⟨heq, rfl⟩ := pure_run.1 h₂
      cases heq
      obtain ⟨hfail, hcycle⟩ := h.error hf hs h₁
      refine ⟨hfail, fun chain he => ?_⟩
      obtain ⟨kind, r, hr, hcyclic⟩ := hcycle chain he
      exact ⟨kind, r, .inl hr, hcyclic⟩
    | ok u =>
      obtain ⟨hmid, -⟩ := h.ok hf hs h₁
      obtain ⟨hfail, hcycle⟩ := (hnext a).error hf hmid h₂
      refine ⟨hfail, fun chain he => ?_⟩
      obtain ⟨kind, r, hr, hcyclic⟩ := hcycle chain he
      exact ⟨kind, r, .inr hr, hcyclic⟩

/-- A step of which the result is changed. -/
def mapResult (m : Run (α × Except Failure Unit)) (g : α → β) : Run (β × Except Failure Unit) := do
  let (a, e) ← m
  pure (g a, e)

theorem Consults.map {mid : α → State → Prop} {post : β → State → Prop}
    (h : Consults met pre mid fail m) (g : α → β) (hpost : ∀ a s, mid a s → post (g a) s) :
    Consults met pre post fail fun f => mapResult (m f) g where
  congr {f g' s} hf hs heq := by
    show (m f >>= _) s = (m g' >>= _) s
    rcases hrun : m f s with ⟨⟨a, e⟩, s'⟩
    rw [bind_of_run hrun, bind_of_run (h.congr hf hs heq ▸ hrun)]
  ok hf hs hrun := by
    obtain ⟨⟨a, e⟩, s₁, h₁, h₂⟩ := bind_run.1 hrun
    obtain ⟨heq, rfl⟩ := pure_run.1 h₂
    cases heq
    obtain ⟨hmid, hall⟩ := h.ok hf hs h₁
    exact ⟨hpost _ _ hmid, hall⟩
  error hf hs hrun := by
    obtain ⟨⟨a, e⟩, s₁, h₁, h₂⟩ := bind_run.1 hrun
    obtain ⟨heq, rfl⟩ := pure_run.1 h₂
    cases heq
    exact h.error hf hs h₁

variable {table : Option Tree}

/-- A step that asks for an answer first. -/
theorem consults_ask {post : α → State → Prop} {stop : α}
    {next : Tree → Answers → Run (α × Except Failure Unit)}
    (hnext : ∀ n, Consults met (At table) post (At table) (next n)) :
    Consults (fun k' r' => (k' = kind ∧ r' = r) ∨ met k' r') (At table) post (At table) fun f => (do
      match ← f kind r with
      | .error e => pure (stop, .error e)
      | .ok n => next n f) where
  congr {f g s} hf hs heq := by
    have hask := heq kind r (.inl ⟨rfl, rfl⟩) s hs.1
    show (f kind r >>= _) s = (g kind r >>= _) s
    rcases hrun : f kind r s with ⟨e | n, s'⟩
    · rw [bind_of_run hrun, bind_of_run (hask ▸ hrun)]
    · rw [bind_of_run hrun, bind_of_run (hask ▸ hrun)]
      exact (hnext n).congr hf (hf hrun hs) fun k' r' hr => heq k' r' (.inr hr)
  ok {f s a s'} hf hs hrun := by
    obtain ⟨answer, s₁, h₁, h₂⟩ := bind_run.1 hrun
    cases answer with
    | error e => cases (pure_run.1 h₂).1
    | ok n =>
      obtain ⟨hpost, hall⟩ := (hnext n).ok hf (hf h₁ hs) h₂
      refine ⟨hpost, fun k' r' hr => ?_⟩
      rcases hr with ⟨rfl, rfl⟩ | hr
      · exact ⟨s, n, s₁, hs.1, h₁⟩
      · exact hall k' r' hr
  error {f s a e s'} hf hs hrun := by
    obtain ⟨answer, s₁, h₁, h₂⟩ := bind_run.1 hrun
    cases answer with
    | error e =>
      obtain ⟨heq, rfl⟩ := pure_run.1 h₂
      cases heq
      refine ⟨hf h₁ hs, fun chain he => ⟨kind, r, .inl ⟨rfl, rfl⟩, ?_⟩⟩
      exact ⟨s, s₁, hs.1, he ▸ h₁⟩
    | ok n =>
      obtain ⟨hfail, hcycle⟩ := (hnext n).error hf (hf h₁ hs) h₂
      refine ⟨hfail, fun chain he => ?_⟩
      obtain ⟨k', r', hr, hcyclic⟩ := hcycle chain he
      exact ⟨k', r', .inr hr, hcyclic⟩

/-! ## Entries and items -/

/-- A step of a walk: it records nothing and leaves the table. -/
abbrev Asks (table : Option Tree) (met : Kind → String → Prop)
    (m : Answers → Run (α × Except Failure Unit)) : Prop :=
  Consults met (At table) (fun _ => At table) (At table) m

theorem Consults.asks {post : α → State → Prop} (h : Consults met (At table) post (At table) m)
    (hpost : ∀ a s, post a s → At table s) : Asks table met m :=
  h.imp (fun _ _ => .rfl) (fun _ h => h) hpost fun _ h => h

theorem Consults.congr_met {post : α → State → Prop} (h : Consults met pre post fail m)
    (hmet : ∀ kind r, met' kind r ↔ met kind r) : Consults met' pre post fail m :=
  h.imp hmet (fun _ h => h) (fun _ _ h => h) fun _ h => h

theorem asks_slot {t : Tree} (visit : Answers → Visit Run)
    (h : (Spot.visited kind).refers t = none →
      Asks table (Met (.visited kind) t) fun f => visit f kind) :
    Asks table (Met (.visited kind) t) fun f => slot (visitor f.answer) kind t (visit f) := by
  cases hr : (Spot.visited kind).refers t with
  | none =>
    have hslot : (fun f => slot (visitor f.answer) kind t (visit f)) = fun f => visit f kind :=
      funext fun f => slot_of_none hr
    rw [hslot]
    exact h hr
  | some x =>
    obtain ⟨k, r⟩ := x
    obtain ⟨rfl, -⟩ := Spot.refers_visited.1 hr
    have hslot : ∀ f, slot (visitor f.answer) k t (visit f) = (do
        match ← f k r with
        | .error e => pure (t, .error e)
        | .ok n => pure (n, .ok ())) := by
      intro f
      rw [slot_of_refers hr]
      exact congrArg (f k r >>= ·) (funext fun answer => by cases answer <;> rfl)
    simp only [hslot]
    have hask : Asks table (fun k' r' => (k' = k ∧ r' = r) ∨ False) fun f => (do
        match ← f k r with
        | .error e => pure (t, .error e)
        | .ok n => pure (n, .ok ())) :=
      consults_ask fun n => consults_pure (fun _ _ h => h) fun _ h => h
    exact hask.congr_met fun k' r' => by rw [met_of_refers hr, or_false]

/-- A step of a walk of which the result is changed. -/
theorem Consults.asks_map (h : Asks table met m) (g : α → β) :
    Asks table met fun f => mapResult (m f) g :=
  h.map g fun _ _ h => h

variable (visit : Answers → Tree → Visit Run)

theorem asks_eachEntry : ∀ {es : Entries}, (∀ e ∈ es, (Spot.visited kind).refers e.2 = none →
    Asks table (Met (.visited kind) e.2) fun f => visit f e.2 kind) →
      Asks table (fun k r => ∃ e ∈ es, Met (.visited kind) e.2 k r) fun f =>
        eachEntry (visitor f.answer) kind (es.map fun e => (e.1, e.2, visit f e.2))
  | [], _ => consults_pure (by simp) fun _ h => h
  | (k, t) :: es, h => by
    obtain ⟨ht, hes⟩ := List.forall_mem_cons.1 h
    have hrun : ∀ f, eachEntry (visitor f.answer) kind (((k, t) :: es).map fun e => (e.1, e.2, visit f e.2)) =
        Inline.andThen (slot (visitor f.answer) kind t (visit f t)) (fun t' => (k, t') :: es) fun t' =>
          mapResult (eachEntry (visitor f.answer) kind (es.map fun e => (e.1, e.2, visit f e.2)))
            ((k, t') :: ·) := by
      intro f
      have hmap : ((es.map fun e => (e.1, e.2, visit f e.2)).map fun c => (c.1, c.2.1)) = es := by
        rw [List.map_map]
        exact List.map_id es
      rw [List.map_cons, eachEntry, hmap]
      rfl
    simp only [hrun]
    refine ((asks_slot (fun f => visit f t) ht).andThen _ fun t' =>
      (asks_eachEntry hes).asks_map ((k, t') :: ·)).congr_met fun k' r' => ?_
    simp only [List.mem_cons, exists_eq_or_imp]

theorem asks_eachItem : ∀ {ts : List Tree}, (∀ t ∈ ts, (Spot.visited kind).refers t = none →
    Asks table (Met (.visited kind) t) fun f => visit f t kind) →
      Asks table (fun k r => ∃ t ∈ ts, Met (.visited kind) t k r) fun f =>
        eachItem (visitor f.answer) kind (ts.map fun t => (t, visit f t))
  | [], _ => consults_pure (by simp) fun _ h => h
  | t :: ts, h => by
    obtain ⟨ht, hts⟩ := List.forall_mem_cons.1 h
    have hrun : ∀ f, eachItem (visitor f.answer) kind ((t :: ts).map fun t => (t, visit f t)) =
        Inline.andThen (slot (visitor f.answer) kind t (visit f t)) (fun t' => t' :: ts) fun t' =>
          mapResult (eachItem (visitor f.answer) kind (ts.map fun t => (t, visit f t))) (t' :: ·) := by
      intro f
      have hmap : (ts.map fun t => (t, visit f t)).map (·.1) = ts := by
        rw [List.map_map]
        exact List.map_id ts
      rw [List.map_cons, eachItem, hmap]
      rfl
    simp only [hrun]
    refine ((asks_slot (fun f => visit f t) ht).andThen _ fun t' =>
      (asks_eachItem hts).asks_map (t' :: ·)).congr_met fun k' r' => ?_
    simp only [List.mem_cons, exists_eq_or_imp]

/-! ## Edges -/

/-- Along edges only the values at their ends change. -/
theorem consults_alongEdges {es : Entries} (h : ∀ e ∈ es, ∀ kind, (Spot.visited kind).refers e.2 = none →
    Asks table (Met (.visited kind) e.2) fun f => visit f e.2 kind) :
      ∀ (edges : List (String × Kind)) (es₁ : Entries),
        Consults (fun k r => ∃ edge ∈ edges, ∃ x, es.at? (.text edge.1) = some x ∧
            Met (.visited edge.2) x k r) (At table)
          (fun es' s => At table s ∧
            ∀ key, (∀ edge ∈ edges, key ≠ edge.1) → es'.at? (.text key) = es₁.at? (.text key))
          (At table) fun f =>
            alongEdges (visitor f.answer) (es.map fun e => (e.1, e.2, visit f e.2)) edges es₁
  | [], es₁ => consults_pure (by simp) fun _ h => ⟨h, fun _ _ => rfl⟩
  | (key, kind) :: edges, es₁ => by
    cases hx : es.at? (.text key) with
    | none =>
      have hrun : ∀ f, alongEdges (visitor f.answer) (es.map fun e => (e.1, e.2, visit f e.2))
          ((key, kind) :: edges) es₁ =
            alongEdges (visitor f.answer) (es.map fun e => (e.1, e.2, visit f e.2)) edges es₁ := by
        intro f
        rw [alongEdges, Entries.lookup_children (visit f), hx]
        rfl
      simp only [hrun]
      refine (consults_alongEdges h edges es₁).imp (fun k r => ?_) (fun _ h => h)
        (fun es' s hpost => ⟨hpost.1, fun k hk => hpost.2 k fun edge hm => hk edge
          (List.mem_cons_of_mem _ hm)⟩) fun _ h => h
      simp [hx]
    | some t =>
      have hrun : ∀ f, alongEdges (visitor f.answer) (es.map fun e => (e.1, e.2, visit f e.2))
          ((key, kind) :: edges) es₁ =
            Inline.andThen (slot (visitor f.answer) kind t (visit f t)) (fun t' => es₁.set key t') fun t' =>
              alongEdges (visitor f.answer) (es.map fun e => (e.1, e.2, visit f e.2)) edges
                (es₁.set key t') := by
        intro f
        rw [alongEdges, Entries.lookup_children (visit f), hx]
        rfl
      simp only [hrun]
      have hrest : ∀ t', Consults (fun k r => ∃ edge ∈ edges, ∃ x, es.at? (.text edge.1) = some x ∧
          Met (.visited edge.2) x k r) (At table)
          (fun es' s => At table s ∧ ∀ k, (∀ edge ∈ (key, kind) :: edges, k ≠ edge.1) →
            es'.at? (.text k) = es₁.at? (.text k)) (At table) fun f =>
          alongEdges (visitor f.answer) (es.map fun e => (e.1, e.2, visit f e.2)) edges (es₁.set key t') := by
        refine fun t' => (consults_alongEdges h edges (es₁.set key t')).imp (fun _ _ => .rfl)
          (fun _ h => h) (fun es' s hpost => ⟨hpost.1, fun k hk => ?_⟩) fun _ h => h
        have hne : (.text k : Scalar) ≠ .text key :=
          fun heq => hk _ List.mem_cons_self (Scalar.text.inj heq)
        rw [hpost.2 k fun edge hm => hk edge (List.mem_cons_of_mem _ hm), Entries.set,
          Entries.at?_put_ne hne]
      refine ((asks_slot (fun f => visit f t) (h _ (Entries.mem_of_at? hx) kind)).andThen _
        hrest).congr_met fun k r => ?_
      simp [hx]

/-! ## Mappings -/

theorem asks_mappingTargets (es : Entries) :
    Asks table (fun k r => ∃ e ∈ es, Met .mappingTarget e.2 k r) fun f =>
      mappingTargets (f .schema) es := by
  have hskip : ∀ {tag : Scalar} {t : Tree} {rest : Entries},
      (∀ k r, ¬ Met .mappingTarget t k r) →
        (Asks table (fun k r => ∃ e ∈ rest, Met .mappingTarget e.2 k r) fun f =>
          mappingTargets (f .schema) rest) →
        Asks table (fun k r => ∃ e ∈ (tag, t) :: rest, Met .mappingTarget e.2 k r) fun f =>
          mapResult (mappingTargets (f .schema) rest) ((tag, t) :: ·) := by
    intro tag t rest hnot hrest
    refine (hrest.asks_map ((tag, t) :: ·)).congr_met fun k r => ?_
    simp only [List.mem_cons, exists_eq_or_imp, hnot, false_or]
  induction es using mappingTargets.induct with
  | case1 => exact consults_pure (by simp) fun _ h => h
  | case2 tag target rest hc ih =>
    simp only [mappingTargets, if_pos hc]
    refine hskip (fun k r => not_met_leaf ?_ rfl rfl) ih
    rw [Bool.not_eq_true'] at hc
    simp only [Spot.refers, hc]
    rfl
  | case3 tag target rest hc ih =>
    have hrefers : Spot.mappingTarget.refers (.text target) = some (.schema, target) := by
      simpa [Spot.refers] using hc
    simp only [mappingTargets, if_neg hc]
    have hmet : ∀ k r, (∃ e ∈ (tag, Tree.text target) :: rest, Met .mappingTarget e.2 k r) ↔
        (k = .schema ∧ r = target) ∨ ∃ e ∈ rest, Met .mappingTarget e.2 k r := by
      intro k r
      simp only [List.mem_cons, exists_eq_or_imp, met_of_refers hrefers]
    refine (consults_ask fun n => ?_).congr_met hmet
    cases Reference.ofTree? n with
    | none => exact consults_error (fun _ h => h) fun _ h => by cases h
    | some reference => exact ih.asks_map ((tag, .text reference) :: ·)
  | case4 tag t rest hnot ih =>
    have hrun : ∀ f : Answers, mappingTargets (f .schema) ((tag, t) :: rest) =
        mapResult (mappingTargets (f .schema) rest) ((tag, t) :: ·) := by
      intro f
      rw [mappingTargets]
      · rfl
      · exact hnot
    simp only [hrun]
    refine hskip (fun k r => not_met_rest ?_ rfl Spot.part_mappingTarget) ih
    cases t with
    | scalar s =>
      cases s with
      | text target => exact (hnot target rfl).elim
      | _ => rfl
    | _ => rfl

/-! ## Values -/

section

variable {M : Tree → Kind → String → Prop} {mid : State → Prop} {e : Answers → Edit Run} {key : String}

theorem consults_valueIn : ∀ {es : Entries}, (∀ x, es.at? (.text key) = some x → x.anchor = none ∧
    Consults (M x) pre (fun _ => mid) fail fun f => e f x) →
      (es.at? (.text key) = none → ∀ s, pre s → mid s) →
        Consults (fun k r => ∃ x, es.at? (.text key) = some x ∧ M x k r) pre
          (fun es' s => mid s ∧ ∀ k, k ≠ .text key → es'.at? k = es.at? k) fail fun f =>
            Edit.valueIn (.text key) (e f) es
  | [], _, hnone => consults_pure (by simp) fun s hs => ⟨hnone rfl s hs, fun _ _ => rfl⟩
  | (k, t) :: es, h, hnone => by
    by_cases hk : k = .text key
    · subst hk
      have hat : Entries.at? (.text key) ((.text key, t) :: es) = some t := if_pos rfl
      obtain ⟨hanchor, ht⟩ := h t hat
      have hrun : ∀ f, Edit.valueIn (.text key) (e f) ((.text key, t) :: es) =
          mapResult (e f t) fun t' => (.text key, t') :: es := by
        intro f
        rw [Edit.valueIn, if_pos rfl, Edit.shared_of_anchor hanchor]
        rfl
      rw [funext hrun]
      have hmet : ∀ k r, (∃ x, Entries.at? (.text key) ((.text key, t) :: es) = some x ∧ M x k r) ↔
          M t k r := fun k r => by rw [hat]; simp
      have hother : ∀ t' k, k ≠ .text key →
          Entries.at? k ((.text key, t') :: es) = Entries.at? k ((.text key, t) :: es) := fun t' k hk => by
        rw [Entries.at?_cons, Entries.at?_cons, if_neg hk.symm, if_neg hk.symm]
      refine (ht.congr_met hmet).map (fun t' => (.text key, t') :: es) ?_
      exact fun t' _ hs => ⟨hs, hother t'⟩
    · have hat : Entries.at? (.text key) ((k, t) :: es) = Entries.at? (.text key) es := if_neg hk
      rw [hat] at h hnone
      have hrun : ∀ f, Edit.valueIn (.text key) (e f) ((k, t) :: es) =
          mapResult (Edit.valueIn (.text key) (e f) es) ((k, t) :: ·) := by
        intro f
        rw [Edit.valueIn, if_neg hk]
        rfl
      rw [funext hrun, hat]
      refine (consults_valueIn h hnone).map ((k, t) :: ·) fun es' s hs => ⟨hs.1, fun l hl => ?_⟩
      rw [Entries.at?_cons, Entries.at?_cons, hs.2 l hl]

theorem consults_value {a : Anchor} {es : Entries} (h : ∀ x, es.at? (.text key) = some x →
    x.anchor = none ∧ Consults (M x) pre (fun _ => mid) fail fun f => e f x)
    (hnone : es.at? (.text key) = none → ∀ s, pre s → mid s) :
    Consults (fun k r => ∃ x, es.at? (.text key) = some x ∧ M x k r) pre
      (fun t s => mid s ∧ ∃ es', t = .map a es' ∧ ∀ k, k ≠ .text key → Entries.at? k es' = es.at? k)
      fail fun f => Edit.value key (e f) (.map a es) :=
  (consults_valueIn h hnone).map (Tree.map a ·) fun es' _ hs => ⟨hs.1, es', rfl, hs.2⟩

end

theorem exists_at?_iff {es : Entries} (hn : (es.map (·.1)).Nodup) {P : Scalar → Tree → Prop} :
    (∃ k x, es.at? k = some x ∧ P k x) ↔ ∃ e ∈ es, P e.1 e.2 := by
  constructor
  · rintro ⟨k, x, hx, h⟩
    exact ⟨(k, x), Entries.mem_of_at? hx, h⟩
  · rintro ⟨e, he, h⟩
    exact ⟨e.1, e.2, Entries.at?_of_mem hn he, h⟩

theorem asks_mapping {t : Tree} (hp : Plain t) : Asks table (Met .mapping t) fun f =>
    (match t with
      | .map a entries => do
        let (es, r) ← mappingTargets (f .schema) entries
        pure (.map a es, r)
      | t => pure (t, .ok ())) := by
  cases t with
  | map a es =>
    refine ((asks_mappingTargets es).asks_map (Tree.map a ·)).congr_met fun k r => ?_
    rw [met_map rfl, exists_at?_iff (plain_map.1 hp).2.1.nodup]
    rfl
  | _ => exact consults_pure (fun k r => not_met_of_not_map rfl rfl rfl) fun _ h => h

/-- What is met under a key if nothing is met elsewhere. -/
theorem met_value {a : Anchor} {es : Entries} {key : String} (hr : spot.refers (.map a es) = none)
    (hpart : ∀ k, k ≠ .text key → spot.part k = .inert) :
    Met spot (.map a es) kind r ↔
      ∃ x, es.at? (.text key) = some x ∧ Met (spot.part (.text key)) x kind r := by
  rw [met_map hr]
  constructor
  · rintro ⟨k, x, hx, h⟩
    by_cases hk : k = .text key
    · subst hk
      exact ⟨x, hx, h⟩
    · rw [hpart k hk] at h
      exact absurd h (not_met_inert x)
  · rintro ⟨x, hx, h⟩
    exact ⟨_, x, hx, h⟩

theorem asks_discriminator {t : Tree} (hp : Plain t) : Asks table (Met .discriminator t) fun f =>
    Edit.value "mapping" (fun t => match t with
      | .map a entries => do
        let (es, r) ← mappingTargets (f .schema) entries
        pure (.map a es, r)
      | t => pure (t, .ok ())) t := by
  cases t with
  | map a es =>
    have hplain : ∀ x, Entries.at? (.text "mapping") es = some x → Plain x :=
      fun x hx => ((plain_map.1 hp).2.2 _ (Entries.mem_of_at? hx)).2
    refine ((consults_value (fun x hx => ⟨(hplain x hx).anchor_eq, asks_mapping (hplain x hx)⟩)
      fun _ _ h => h).asks fun _ _ h => h.1).congr_met fun k r => ?_
    exact met_value rfl fun k hk => if_neg hk
  | _ => exact consults_pure (fun k r => not_met_of_not_map rfl rfl rfl) fun _ h => h

theorem asks_rewriteMapping {a : Anchor} {es : Entries}
    (hp : ∀ x, es.at? (.text "discriminator") = some x → Plain x) :
    Asks table (fun k r => ∃ x, es.at? (.text "discriminator") = some x ∧ Met .discriminator x k r)
      fun f => rewriteMapping (f .schema) (.map a es) :=
  (consults_value (fun x hx => ⟨(hp x hx).anchor_eq, asks_discriminator (hp x hx)⟩)
    fun _ _ h => h).asks fun _ _ h => h.1

/-! ## Objects -/

/-- What is met along edges. -/
theorem met_along {es : Entries} {k : Kind} :
    (∃ key x, es.at? key = some x ∧ Met (Spot.along k key) x kind r) ↔
      ∃ edge ∈ edges k, ∃ x, es.at? (.text edge.1) = some x ∧ Met (.visited edge.2) x kind r := by
  constructor
  · rintro ⟨key, x, hx, h⟩
    cases key with
    | text key =>
      simp only [Spot.along] at h
      cases hl : (edges k).lookup key with
      | none =>
        rw [hl] at h
        exact absurd h (not_met_inert x)
      | some k' =>
        rw [hl] at h
        exact ⟨(key, k'), mem_of_lookup hl, x, hx, h⟩
    | _ => exact absurd h (not_met_inert x)
  · rintro ⟨edge, hm, x, hx, h⟩
    refine ⟨_, x, hx, ?_⟩
    rw [Spot.along, lookup_of_mem (edges_nodup k) hm]
    exact h

section

variable {es : Entries} (h : ∀ e ∈ es, ∀ kind, (Spot.visited kind).refers e.2 = none →
  Asks table (Met (.visited kind) e.2) fun f => visit f e.2 kind)

theorem entries_children (f : Answers) :
    (es.map fun e => (e.1, e.2, visit f e.2)).map (fun c => (c.1, c.2.1)) = es := by
  rw [List.map_map]
  exact List.map_id es

/-- An object is visited along its edges, unless all its values are visited alike. -/
theorem object_edges (f : Answers) (hmap : ∀ k, kind ≠ .mapOf k) (hcallback : kind ≠ .callback)
    (hlist : ∀ k, kind ≠ .listOf k) :
    Walk.object (visitor f.answer) none (es.map fun e => (e.1, e.2, visit f e.2)) kind =
      Inline.andThen
        (alongEdges (visitor f.answer) (es.map fun e => (e.1, e.2, visit f e.2)) (edges kind) es)
        (Tree.map none ·) fun es' => (visitor f.answer).after kind (.map none es') := by
  rw [Walk.object, entries_children]
  · rfl
  · exact hmap
  · exact hcallback
  · exact hlist

include h

/-- A map of which every value is visited as an object of one kind. -/
theorem asks_entries (hn : (es.map (·.1)).Nodup) (hr : (Spot.visited kind).refers (.map none es) = none)
    {k : Kind} (hpart : ∀ key, (Spot.visited kind).part key = .visited k) :
    Asks table (Met (.visited kind) (.map none es)) fun f =>
      mapResult (eachEntry (visitor f.answer) k (es.map fun e => (e.1, e.2, visit f e.2)))
        (Tree.map none ·) := by
  refine ((asks_eachEntry visit fun e he => h e he k).asks_map (Tree.map none ·)).congr_met
    fun k' r' => ?_
  simp only [met_map hr, hpart]
  exact exists_at?_iff hn

/-- An object of which the parts along edges are visited. -/
theorem asks_edges (hr : (Spot.visited kind).refers (.map none es) = none)
    (hpart : ∀ key, (Spot.visited kind).part key = Spot.along kind key) :
    Asks table (Met (.visited kind) (.map none es)) fun f =>
      Inline.andThen
        (alongEdges (visitor f.answer) (es.map fun e => (e.1, e.2, visit f e.2)) (edges kind) es)
        (Tree.map none ·) fun es' => pure (.map none es', .ok ()) := by
  refine ((consults_alongEdges visit h (edges kind) es).andThen (Tree.map none ·) fun es' =>
    consults_pure (fun _ _ h => h) fun _ hs => hs.1).congr_met fun k' r' => ?_
  rw [or_false, ← met_along, met_map hr]
  simp only [hpart]

/-- A schema: its parts, and then the mapping of its discriminator, which no edge leads to. -/
theorem asks_schema (hpl : ∀ x, es.at? (.text "discriminator") = some x → Plain x)
    (hr : (Spot.visited .schema).refers (.map none es) = none) :
    Asks table (Met (.visited .schema) (.map none es)) fun f =>
      Inline.andThen
        (alongEdges (visitor f.answer) (es.map fun e => (e.1, e.2, visit f e.2)) (edges .schema) es)
        (Tree.map none ·) fun es' => rewriteMapping (f .schema) (.map none es') := by
  have hrewrite : ∀ es' : Entries, Consults
      (fun k r => ∃ x, es.at? (.text "discriminator") = some x ∧ Met .discriminator x k r)
      (fun s => At table s ∧ ∀ key, (∀ edge ∈ edges .schema, key ≠ edge.1) →
        es'.at? (.text key) = es.at? (.text key)) (fun _ => At table) (At table)
      fun f => rewriteMapping (f .schema) (.map none es') := by
    intro es'
    refine Consults.of_pre (fun s hs => hs.2 "discriminator" (by decide)) fun hes' => ?_
    rw [← hes']
    exact (asks_rewriteMapping fun x hx => hpl x (hes' ▸ hx)).imp (fun _ _ => .rfl)
      (fun _ hs => hs.1) (fun _ _ h => h) fun _ h => h
  refine ((consults_alongEdges visit h (edges .schema) es).andThen (Tree.map none ·)
    hrewrite).congr_met fun k' r' => ?_
  rw [← met_along, met_map hr]
  constructor
  · rintro ⟨key, x, hx, hm⟩
    simp only [Spot.part] at hm
    split at hm
    · subst key
      exact .inr ⟨x, hx, hm⟩
    · exact .inl ⟨key, x, hx, hm⟩
  · rintro (⟨key, x, hx, hm⟩ | ⟨x, hx, hm⟩)
    · refine ⟨key, x, hx, ?_⟩
      simp only [Spot.part]
      split
      · subst key
        exact absurd hm (not_met_inert x)
      · exact hm
    · exact ⟨_, x, hx, hm⟩

theorem asks_object (hp : Plain (.map none es))
    (hr : (Spot.visited kind).refers (.map none es) = none) :
    Asks table (Met (.visited kind) (.map none es)) fun f =>
      Walk.object (visitor f.answer) none (es.map fun e => (e.1, e.2, visit f e.2)) kind := by
  obtain ⟨-, hd, hpl⟩ := plain_map.1 hp
  cases kind with
  | mapOf k => exact asks_entries visit h hd.nodup hr fun _ => rfl
  | callback => exact asks_entries visit h hd.nodup hr fun _ => rfl
  | listOf k =>
    have hrun : ∀ f, Walk.object (visitor f.answer) none (es.map fun e => (e.1, e.2, visit f e.2))
        (.listOf k) = pure (.map none es, .ok ()) := by
      intro f
      rw [Walk.object, entries_children]
      rfl
    rw [funext hrun]
    refine consults_pure (fun k' r' hm => ?_) fun _ h => h
    obtain ⟨key, x, -, hm⟩ := (met_map hr).1 hm
    cases key <;> exact not_met_inert x hm
  | schema =>
    rw [funext fun f => object_edges visit f (by simp) (by simp) (by simp)]
    exact asks_schema visit h (fun x hx => (hpl _ (Entries.mem_of_at? hx)).2) hr
  | _ =>
    rw [funext fun f => object_edges visit f (by simp) (by simp) (by simp)]
    exact asks_edges visit h hr fun _ => rfl

end

/-! ## The walk -/

/-- The walk of a plain tree depends on the answers to the references that it meets. -/
theorem asks_walk {t : Tree} (hp : Plain t) : ∀ kind, (Spot.visited kind).refers t = none →
    Asks table (Met (.visited kind) t) fun f => walk (visitor f.answer) f.bound t kind := by
  induction t using Tree.induct with
  | map a es ih =>
    intro kind hr
    obtain ⟨rfl, -, hpl⟩ := plain_map.1 hp
    have hwalk : ∀ f : Answers, walk (visitor f.answer) f.bound (.map none es) kind =
        Walk.object (visitor f.answer) none
          (es.map fun e => (e.1, e.2, walk (visitor f.answer) f.bound e.2)) kind := by
      intro f
      simp only [walk, para, paraEntries_eq, Walk.cases, Edit.visitShared, List.map_map]
      rfl
    simp only [hwalk]
    exact asks_object (fun f => walk (visitor f.answer) f.bound)
      (fun e he kind => ih e he (hpl e he).2 kind) hp hr
  | list a ts ih =>
    intro kind hr
    obtain ⟨rfl, hpl⟩ := plain_list.1 hp
    cases kind with
    | listOf k =>
      simp only [walk_list]
      refine ((asks_eachItem (fun f => walk (visitor f.answer) f.bound) fun t ht =>
        ih t ht (hpl t ht) k).asks_map (Tree.list none ·)).congr_met fun k' r' => ?_
      rw [met_list]
      rfl
    | _ =>
      simp only [walk, para, paraItems_eq, Walk.cases, Edit.visitShared, List.map_map,
        Function.comp_def, List.map_id']
      exact consults_pure (fun k r => not_met_of_not_map rfl hr rfl) fun _ h => h
  | back a m => exact absurd hp plain_back
  | pair x y =>
    intro kind hr
    exact consults_pure (a := Tree.pair x y) (fun k r => not_met_leaf hr rfl rfl) fun _ h => h
  | _ =>
    intro kind hr
    exact consults_pure (fun k r => not_met_leaf hr rfl rfl) fun _ h => h

end ApiContract.Inline
