import ApiContract.Proofs.Inline.Account

/-!
# A walk that inlines

`Follows doc f`: what `f` answers may take the place of a reference of the document at `doc`. A walk
that asks `f` at references then makes of a plain tree what inlining may make of it (`visits_walk`).
The lemmas before it follow the walk through the shapes of its parts: the entries of a map, the items
of a list, the edges of an object (`alongEdges_run`), and the mapping of a discriminator.

What `follow` answers may take the place of a reference (`follows_follow`). The induction is on the
targets that are not being inlined yet, as in the recursion of `follow` itself: the target of a
foreign reference is walked with one more target on the path.
-/

namespace ApiContract.Inline

open Tree Walk

variable {library : Library} {root : Place} (A : Account library root)

/-- What may take the place of a reference. -/
def Answer (c : Scene) (doc : Place) (kind : Kind) (r : String) (n : Tree) : Prop :=
  ∀ (spot : Spot) (t t' : Tree), spot.refers t = some (kind, r) → spot.writes n = some t' →
    Inlines c doc spot t t'

/-- What is answered may take the place of a reference of a document. -/
def Follows (doc : Place) (f : Kind → String → Run (Except Failure Tree)) : Prop :=
  ∀ kind r s n s', f kind r s = (.ok n, s') → A.Valid s →
    A.Later s s' ∧ Answer (A.scene s') doc kind r n

/-- A visit makes of a tree what inlining may make of it. -/
def Visits (doc : Place) (spot : Spot) (t : Tree) (m : Run (Edited Unit)) : Prop :=
  ∀ s t' s', m s = ((t', .ok ()), s') → A.Valid s →
    A.Later s s' ∧ Inlines (A.scene s') doc spot t t'

variable {A} {doc : Place} {f : Kind → String → Run (Except Failure Tree)}
  {kind : Kind} {s s' : State}

theorem slot_of_refers {v : Visitor Run} {t : Tree} {r : String} {visit : Visit Run}
    (h : (Spot.visited kind).refers t = some (kind, r)) :
    slot v kind t visit = v.onReference kind t r := by
  obtain ⟨-, hk, hr⟩ := Spot.refers_visited.1 h
  simp only [slot, hk, hr]

theorem slot_of_none {v : Visitor Run} {t : Tree} {visit : Visit Run}
    (h : (Spot.visited kind).refers t = none) : slot v kind t visit = visit kind := by
  unfold slot
  split
  · rename_i hk hr
    rw [Spot.refers_visited.2 ⟨rfl, hk, hr⟩] at h
    cases h
  · rfl

theorem visits_slot (hf : Follows A doc f) {t : Tree} {visit : Visit Run}
    (h : (Spot.visited kind).refers t = none →
      Visits A doc (.visited kind) t (visit kind)) :
    Visits A doc (.visited kind) t (slot (visitor f) kind t visit) := by
  cases hr : (Spot.visited kind).refers t with
  | none =>
    have hslot : slot (visitor f) kind t visit = visit kind := slot_of_none hr
    exact hslot ▸ h hr
  | some x =>
    obtain ⟨rfl, -⟩ := Spot.refers_visited.1 hr
    rw [slot_of_refers hr]
    intro s t' s' hrun hv
    obtain ⟨answer, s₁, h₁, h₂⟩ := bind_run.1 hrun
    cases answer with
    | error e => cases (pure_run.1 h₂).1
    | ok n =>
      obtain ⟨he, rfl⟩ := pure_run.1 h₂
      cases he
      obtain ⟨hl, ha⟩ := hf _ _ s t' s₁ h₁ hv
      exact ⟨hl, ha _ t t' hr rfl⟩

/-! ## Entries and items -/

theorem eachEntry_run (hf : Follows A doc f) :
    ∀ {children : List (Scalar × Tree × Visit Run)} {es' : Entries} {s s' : State},
      (∀ c ∈ children, (Spot.visited kind).refers c.2.1 = none →
        Visits A doc (.visited kind) c.2.1 (c.2.2 kind)) →
      eachEntry (visitor f) kind children s = ((es', .ok ()), s') → A.Valid s →
      A.Later s s' ∧ List.Forall₂ (fun c e => e.1 = c.1 ∧
        Inlines (A.scene s') doc (.visited kind) c.2.1 e.2) children es'
  | [], es', s, s', _, h, _ => by
    obtain ⟨he, rfl⟩ := pure_run.1 h
    cases he
    exact ⟨A.refl _, .nil⟩
  | (k, t, visit) :: children, es', s, s', hc, h, hv => by
    obtain ⟨⟨t', r⟩, s₁, h₁, h⟩ := bind_run.1 h
    cases r with
    | error e => cases (pure_run.1 h).1
    | ok =>
      obtain ⟨⟨es₁, r⟩, s₂, h₂, h⟩ := bind_run.1 h
      obtain ⟨he, rfl⟩ := pure_run.1 h
      cases he
      obtain ⟨hl, hi⟩ := visits_slot hf (hc _ List.mem_cons_self) s t' s₁ h₁ hv
      obtain ⟨hl', hrest⟩ := eachEntry_run hf (fun c hm => hc c (List.mem_cons_of_mem _ hm)) h₂
        (A.valid hl hv)
      exact ⟨A.trans hl hl', .cons ⟨rfl, A.inlines hl' hi rfl⟩ hrest⟩

theorem eachItem_run (hf : Follows A doc f) :
    ∀ {children : List (Tree × Visit Run)} {ts' : List Tree} {s s' : State},
      (∀ c ∈ children, (Spot.visited kind).refers c.1 = none →
        Visits A doc (.visited kind) c.1 (c.2 kind)) →
      eachItem (visitor f) kind children s = ((ts', .ok ()), s') → A.Valid s →
      A.Later s s' ∧ List.Forall₂ (fun c t' =>
        Inlines (A.scene s') doc (.visited kind) c.1 t') children ts'
  | [], ts', s, s', _, h, _ => by
    obtain ⟨he, rfl⟩ := pure_run.1 h
    cases he
    exact ⟨A.refl _, .nil⟩
  | (t, visit) :: children, ts', s, s', hc, h, hv => by
    obtain ⟨⟨t', r⟩, s₁, h₁, h⟩ := bind_run.1 h
    cases r with
    | error e => cases (pure_run.1 h).1
    | ok =>
      obtain ⟨⟨ts₁, r⟩, s₂, h₂, h⟩ := bind_run.1 h
      obtain ⟨he, rfl⟩ := pure_run.1 h
      cases he
      obtain ⟨hl, hi⟩ := visits_slot hf (hc _ List.mem_cons_self) s t' s₁ h₁ hv
      obtain ⟨hl', hrest⟩ := eachItem_run hf (fun c hm => hc c (List.mem_cons_of_mem _ hm)) h₂
        (A.valid hl hv)
      exact ⟨A.trans hl hl', .cons (A.inlines hl' hi rfl) hrest⟩

/-! ## Edges -/

/-- Along edges, the values at the ends of edges are visited and all others stay. -/
theorem alongEdges_run (hf : Follows A doc f)
    {children : List (Scalar × Tree × Visit Run)}
    (hc : ∀ key kind t visit, children.lookup (.text key) = some (t, visit) →
      (Spot.visited kind).refers t = none →
        Visits A doc (.visited kind) t (visit kind)) :
    ∀ {edges : List (String × Kind)} {es es' : Entries} {s s' : State},
      (edges.map (·.1)).Nodup →
      (∀ edge ∈ edges, es.at? (.text edge.1) = (children.lookup (.text edge.1)).map (·.1)) →
      alongEdges (visitor f) children edges es s = ((es', .ok ()), s') → A.Valid s →
      A.Later s s' ∧ es'.keys = es.keys ∧
        (∀ k, (∀ edge ∈ edges, k ≠ .text edge.1) → es'.at? k = es.at? k) ∧
        ∀ edge ∈ edges, ∀ x x', es.at? (.text edge.1) = some x → es'.at? (.text edge.1) = some x' →
          Inlines (A.scene s') doc (.visited edge.2) x x'
  | [], es, es', s, s', _, _, h, _ => by
    obtain ⟨he, rfl⟩ := pure_run.1 h
    cases he
    exact ⟨A.refl _, rfl, fun _ _ => rfl, fun _ hm => absurd hm List.not_mem_nil⟩
  | (key, kind) :: edges, es, es', s, s', hn, hat, h, hv => by
    obtain ⟨hnot, hn⟩ := List.nodup_cons.1 hn
    have hat₀ := hat _ List.mem_cons_self
    rw [alongEdges] at h
    cases hlookup : children.lookup (.text key) with
    | none =>
      rw [hlookup] at hat₀ h
      obtain ⟨hl, hkeys, hother, hedge⟩ := alongEdges_run hf hc hn
        (fun edge hm => hat edge (List.mem_cons_of_mem _ hm)) h hv
      refine ⟨hl, hkeys, fun k hk => hother k fun edge hm => hk edge (List.mem_cons_of_mem _ hm), ?_⟩
      rintro edge hm x x' hx hx'
      rcases List.mem_cons.1 hm with rfl | hm
      · rw [hat₀] at hx
        cases hx
      · exact hedge edge hm x x' hx hx'
    | some child =>
      obtain ⟨t, visit⟩ := child
      rw [hlookup] at hat₀ h
      obtain ⟨⟨t', r⟩, s₁, h₁, h⟩ := bind_run.1 h
      cases r with
      | error e => cases (pure_run.1 h).1
      | ok =>
        obtain ⟨hl, hi⟩ := visits_slot hf (hc key kind t visit hlookup) s t' s₁ h₁ hv
        have hne : ∀ edge ∈ edges, (.text edge.1 : Scalar) ≠ .text key := by
          intro edge hm he
          exact hnot (List.mem_map.2 ⟨edge, hm, Scalar.text.inj he⟩)
        obtain ⟨hl', hkeys, hother, hedge⟩ := alongEdges_run hf hc hn
          (fun edge hm => by
            rw [Entries.set, Entries.at?_put_ne (hne edge hm)]
            exact hat edge (List.mem_cons_of_mem _ hm)) h (A.valid hl hv)
        refine ⟨A.trans hl hl', ?_, fun k hk => ?_, ?_⟩
        · rw [hkeys]
          exact Entries.keys_put_of_mem _
            (List.mem_map_of_mem (Entries.mem_of_at? (hat₀.trans rfl)))
        · rw [hother k fun edge hm => hk edge (List.mem_cons_of_mem _ hm), Entries.set,
            Entries.at?_put_ne (hk _ List.mem_cons_self)]
        · intro edge hm x x' hx hx'
          rcases List.mem_cons.1 hm with rfl | hm
          · rw [hother _ fun edge hm he => hne edge hm he.symm, Entries.set,
              Entries.at?_put_self] at hx'
            cases hx'
            rw [hat₀] at hx
            cases hx
            exact A.inlines hl' hi rfl
          · refine hedge edge hm x x' ?_ hx'
            rwa [Entries.set, Entries.at?_put_ne (hne edge hm)]

/-! ## Mappings -/

theorem mappingTargets_run (hf : Follows A doc f) :
    ∀ {es es' : Entries} {s s' : State},
      mappingTargets (f .schema) es s = ((es', .ok ()), s') → A.Valid s →
      A.Later s s' ∧ List.Forall₂ (fun e e' => e'.1 = e.1 ∧
        Inlines (A.scene s') doc .mappingTarget e.2 e'.2) es es' := by
  intro es
  induction es using mappingTargets.induct with
  | case1 =>
    intro es' s s' h _
    obtain ⟨he, rfl⟩ := pure_run.1 h
    cases he
    exact ⟨A.refl _, .nil⟩
  | case2 tag target rest hc ih =>
    intro es' s s' h hv
    rw [mappingTargets, if_pos hc] at h
    obtain ⟨⟨es₁, r⟩, s₁, h₁, h⟩ := bind_run.1 h
    obtain ⟨he, rfl⟩ := pure_run.1 h
    cases he
    obtain ⟨hl, hrest⟩ := ih h₁ hv
    refine ⟨hl, .cons ⟨rfl, inlines_rest ?_ rfl Spot.part_mappingTarget⟩ hrest⟩
    rw [Bool.not_eq_true'] at hc
    simp only [Spot.refers, hc]
    rfl
  | case3 tag target rest hc ih =>
    intro es' s s' h hv
    rw [mappingTargets, if_neg hc] at h
    obtain ⟨answer, s₁, h₁, h⟩ := bind_run.1 h
    cases answer with
    | error e => cases (pure_run.1 h).1
    | ok n =>
      obtain ⟨hl, ha⟩ := hf _ _ s n s₁ h₁ hv
      cases hr : Reference.ofTree? n with
      | none =>
        simp only [hr] at h
        cases (pure_run.1 h).1
      | some reference =>
        simp only [hr] at h
        obtain ⟨⟨es₁, r⟩, s₂, h₂, h⟩ := bind_run.1 h
        obtain ⟨he, rfl⟩ := pure_run.1 h
        cases he
        obtain ⟨hl', hrest⟩ := ih h₂ (A.valid hl hv)
        have hi := ha .mappingTarget (.text target) (.text reference)
          (by simpa [Spot.refers] using hc) (by simp [Spot.writes, hr])
        exact ⟨A.trans hl hl', .cons ⟨rfl, A.inlines hl' hi rfl⟩ hrest⟩
  | case4 tag t rest hnot ih =>
    intro es' s s' h hv
    rw [mappingTargets] at h
    · obtain ⟨⟨es₁, r⟩, s₁, h₁, h⟩ := bind_run.1 h
      obtain ⟨he, rfl⟩ := pure_run.1 h
      cases he
      obtain ⟨hl, hrest⟩ := ih h₁ hv
      refine ⟨hl, .cons ⟨rfl, inlines_rest ?_ rfl Spot.part_mappingTarget⟩ hrest⟩
      unfold Spot.refers
      split
      · rename_i he; cases he
      · exact (hnot _ ‹_›).elim
      · rfl
    · exact hnot

/-- A visit of the value under a key leaves the other values as they are. -/
theorem visits_value {spot : Spot} {key : String} {e : Edit Run} {es : Entries} {t' : Tree}
    (he : ∀ x, Plain x → Visits A doc spot x (e x))
    (hp : ∀ x, es.at? (.text key) = some x → Plain x)
    (h : Edit.value key e (.map none es) s = ((t', .ok ()), s')) (hv : A.Valid s) :
    A.Later s s' ∧ ∃ es' : Entries, t' = .map none es' ∧ es'.keys = es.keys ∧
      (∀ k, k ≠ .text key → es'.at? k = es.at? k) ∧
      ∀ x x', es.at? (.text key) = some x → es'.at? (.text key) = some x' →
        Inlines (A.scene s') doc spot x x' := by
  obtain ⟨⟨es', r⟩, s₁, h₁, h⟩ := bind_run.1 h
  obtain ⟨heq, rfl⟩ := pure_run.1 h
  cases heq
  obtain ⟨hkeys, hother, hat⟩ := Edit.valueIn_run h₁
  cases hx : Entries.at? (.text key) es with
  | none =>
    rw [hx] at hat
    obtain ⟨rfl, rfl⟩ := hat
    exact ⟨A.refl _, _, rfl, rfl, fun _ _ => rfl, fun _ _ hx' => by cases hx'⟩
  | some x =>
    rw [hx] at hat
    obtain ⟨x', hx', hrun⟩ := hat
    rw [Edit.shared_of_anchor (hp x hx).anchor_eq] at hrun
    obtain ⟨hl, hi⟩ := he x (hp x hx) s x' s₁ hrun hv
    refine ⟨hl, es', rfl, hkeys, hother, fun y y' hy hy' => ?_⟩
    cases hy
    cases hx'.symm.trans hy'
    exact hi

/-- A visit that leaves everything outside one key as it is. -/
theorem inlines_value {c : Scene} {spot : Spot} {key : String} {es es' : Entries}
    (hr : spot.refers (.map none es) = none) (hpart : ∀ k, k ≠ .text key → spot.part k = .inert)
    (hkeys : es'.keys = es.keys) (hother : ∀ k, k ≠ .text key → es'.at? k = es.at? k)
    (hat : ∀ x x', es.at? (.text key) = some x → es'.at? (.text key) = some x' →
      Inlines c doc (spot.part (.text key)) x x') :
    Inlines c doc spot (.map none es) (.map none es') := by
  refine .map hr (hkeys ▸ List.prefix_refl _) (fun _ => ?_) (fun k x x' hx hx' => ?_) ?_
  · simpa [Entries.keys] using congrArg List.length hkeys
  · by_cases hk : k = .text key
    · subst hk
      exact hat x x' hx hx'
    · rw [hother k hk] at hx'
      cases hx.symm.trans hx'
      rw [hpart k hk]
      exact inlines_inert x
  · intro k x hx hx'
    rw [(Entries.at?_eq_none_congr hkeys).2 hx] at hx'
    cases hx'

/-- The visit of a mapping. -/
theorem visits_mapping (hf : Follows A doc f) {t : Tree} :
    Visits A doc .mapping t (match t with
      | .map a entries => do
        let (es, r) ← mappingTargets (f .schema) entries
        pure (.map a es, r)
      | t => pure (t, .ok ())) := by
  intro s t' s' h hv
  cases t with
  | map a es =>
    obtain ⟨⟨es', r⟩, s₁, h₁, h⟩ := bind_run.1 h
    obtain ⟨heq, rfl⟩ := pure_run.1 h
    cases heq
    obtain ⟨hl, hall⟩ := mappingTargets_run hf h₁ hv
    obtain ⟨hkeys, hat⟩ := Entries.at?_of_forall₂ hall
    refine ⟨hl, .map rfl (hkeys ▸ List.prefix_refl _) (fun _ => hall.length_eq.symm)
      (fun k x x' hx hx' => hat k x x' hx hx') fun k x hx hx' => ?_⟩
    rw [(Entries.at?_eq_none_congr hkeys).2 hx] at hx'
    cases hx'
  | _ =>
    obtain ⟨heq, rfl⟩ := pure_run.1 h
    cases heq
    exact ⟨A.refl _, inlines_of_not_map rfl rfl rfl⟩

/-- The visit of a discriminator. -/
theorem visits_discriminator (hf : Follows A doc f) {t : Tree} (hp : Plain t) :
    Visits A doc .discriminator t (Edit.value "mapping" (fun t => match t with
      | .map a entries => do
        let (es, r) ← mappingTargets (f .schema) entries
        pure (.map a es, r)
      | t => pure (t, .ok ())) t) := by
  intro s t' s' h hv
  cases t with
  | map a es =>
    obtain ⟨rfl, -, hpl⟩ := plain_map.1 hp
    obtain ⟨hl, es', rfl, hkeys, hother, hat⟩ :=
      visits_value (fun x _ => visits_mapping hf (t := x))
        (fun x hx => (hpl _ (Entries.mem_of_at? hx)).2) h hv
    exact ⟨hl, inlines_value rfl (fun k hk => if_neg hk) hkeys hother hat⟩
  | _ =>
    obtain ⟨heq, rfl⟩ := pure_run.1 h
    cases heq
    exact ⟨A.refl _, inlines_of_not_map rfl rfl rfl⟩

/-! ## Objects -/

theorem edges_nodup (kind : Kind) : ((edges kind).map (·.1)).Nodup := by
  cases kind with
  | mapOf | listOf => exact List.nodup_nil
  | _ => decide

/-- What a walk along all edges of a kind makes of an object's entries. -/
theorem inlines_along {c : Scene} {es es' : Entries}
    (hother : ∀ k, (∀ edge ∈ edges kind, k ≠ .text edge.1) → es'.at? k = es.at? k)
    (hedge : ∀ edge ∈ edges kind, ∀ x x', es.at? (.text edge.1) = some x →
      es'.at? (.text edge.1) = some x' → Inlines c doc (.visited edge.2) x x')
    {k : Scalar} {x x' : Tree} (hx : es.at? k = some x) (hx' : es'.at? k = some x') :
    Inlines c doc (Spot.along kind k) x x' := by
  have hrest (h : ∀ edge ∈ edges kind, k ≠ .text edge.1) : Inlines c doc .inert x x' := by
    rw [hother k h, hx] at hx'
    cases hx'
    exact inlines_inert x
  cases k with
  | text key =>
    simp only [Spot.along]
    cases hl : (edges kind).lookup key with
    | none =>
      refine hrest fun edge hm he => ?_
      cases he
      have := List.lookup_eq_none_iff.1 hl edge hm
      simp at this
    | some kind' => exact hedge (key, kind') (mem_of_lookup hl) x x' hx hx'
  | _ => exact hrest fun edge _ he => by cases he

variable {es : Entries} {visit : Tree → Visit Run}

theorem along_run (hf : Follows A doc f)
    (hc : ∀ e ∈ es, ∀ kind, (Spot.visited kind).refers e.2 = none →
      Visits A doc (.visited kind) e.2 (visit e.2 kind))
    {es' : Entries}
    (h : alongEdges (visitor f) (es.map fun e => (e.1, e.2, visit e.2)) ((visitor f).edges kind) es s
      = ((es', .ok ()), s')) (hv : A.Valid s) :
    A.Later s s' ∧ es'.keys = es.keys ∧
      (∀ k, (∀ edge ∈ edges kind, k ≠ .text edge.1) → es'.at? k = es.at? k) ∧
      ∀ k x x', es.at? k = some x → es'.at? k = some x' →
        Inlines (A.scene s') doc (Spot.along kind k) x x' := by
  obtain ⟨hl, hkeys, hother, hedge⟩ := alongEdges_run hf (fun key kind t v hlookup => by
    rw [Entries.lookup_children, Option.map_eq_some_iff] at hlookup
    obtain ⟨x, hx, he⟩ := hlookup
    cases he
    exact hc _ (Entries.mem_of_at? hx) kind) (edges_nodup kind)
    (fun edge _ => by rw [Entries.lookup_children]; cases es.at? _ <;> rfl) h hv
  exact ⟨hl, hkeys, hother, fun k x x' hx hx' => inlines_along hother hedge hx hx'⟩

/-- Entries that are visited under the keys that are there. -/
theorem inlines_map {c : Scene} {spot : Spot} {es es' : Entries}
    (hr : spot.refers (.map none es) = none) (hkeys : es'.keys = es.keys)
    (hat : ∀ k x x', es.at? k = some x → es'.at? k = some x' → Inlines c doc (spot.part k) x x') :
    Inlines c doc spot (.map none es) (.map none es') := by
  refine .map hr (hkeys ▸ List.prefix_refl _) (fun _ => ?_) hat fun k x hx hx' => ?_
  · simpa [Entries.keys] using congrArg List.length hkeys
  · rw [(Entries.at?_eq_none_congr hkeys).2 hx] at hx'
    cases hx'

/-- Every entry is visited as an object of one kind. -/
theorem visits_entries (hf : Follows A doc f) {spot : Spot} {k : Kind}
    (hspot : ∀ key, spot.part key = .visited k) (hr : spot.refers (.map none es) = none)
    (hc : ∀ e ∈ es, ∀ kind, (Spot.visited kind).refers e.2 = none →
      Visits A doc (.visited kind) e.2 (visit e.2 kind)) :
    Visits A doc spot (.map none es) (do
      let (es', r) ← eachEntry (visitor f) k (es.map fun e => (e.1, e.2, visit e.2))
      pure (.map none es', r)) := by
  intro s t' s' h hv
  obtain ⟨⟨es', r⟩, s₁, h₁, h⟩ := bind_run.1 h
  obtain ⟨heq, rfl⟩ := pure_run.1 h
  cases heq
  obtain ⟨hl, hall⟩ := eachEntry_run hf (fun c hm => by
    obtain ⟨e, he, rfl⟩ := List.mem_map.1 hm
    exact hc e he k) h₁ hv
  rw [List.forall₂_map_left_iff] at hall
  obtain ⟨hkeys, hat⟩ := Entries.at?_of_forall₂ hall
  exact ⟨hl, inlines_map hr hkeys fun key x x' hx hx' => hspot key ▸ hat key x x' hx hx'⟩

/-- Every part of an object is visited as what its key says. -/
theorem visits_object (hf : Follows A doc f) (hp : Plain (.map none es))
    (hc : ∀ e ∈ es, ∀ kind, (Spot.visited kind).refers e.2 = none →
      Visits A doc (.visited kind) e.2 (visit e.2 kind))
    (hr : (Spot.visited kind).refers (.map none es) = none) :
    Visits A doc (.visited kind) (.map none es)
      (Walk.object (visitor f) none (es.map fun e => (e.1, e.2, visit e.2)) kind) := by
  have hes : (es.map fun e => (e.1, e.2, visit e.2)).map (fun c => (c.1, c.2.1)) = es := by
    rw [List.map_map]
    exact List.map_id es
  cases kind with
  | mapOf k => exact visits_entries hf (fun _ => rfl) hr hc
  | callback => exact visits_entries hf (fun _ => rfl) hr hc
  | listOf k =>
    intro s t' s' h hv
    obtain ⟨heq, rfl⟩ := pure_run.1 h
    rw [hes] at heq
    cases heq
    exact ⟨A.refl _, inlines_map hr rfl fun k x x' hx hx' => by
      cases hx.symm.trans hx'
      cases k <;> exact inlines_inert x⟩
  | schema =>
    intro s t' s' h hv
    unfold Walk.object at h
    rw [hes] at h
    obtain ⟨⟨es₁, r⟩, s₁, h₁, h⟩ := bind_run.1 h
    cases r with
    | error e => cases (pure_run.1 h).1
    | ok =>
      -- no edge leads to the discriminator, so it is still what it was when its turn comes
      obtain ⟨hl, hkeys, hother, hat⟩ := along_run hf hc h₁ hv
      have hdisc : es₁.at? (.text "discriminator") = es.at? (.text "discriminator") :=
        hother _ (by decide)
      obtain ⟨hl', es₂, rfl, hkeys', hother', hat'⟩ :=
        visits_value (fun x hx => visits_discriminator hf hx)
          (fun x hx => ((plain_map.1 hp).2.2 _ (Entries.mem_of_at? (hdisc ▸ hx))).2) h (A.valid hl hv)
      refine ⟨A.trans hl hl', inlines_map hr (hkeys'.trans hkeys) fun k x x' hx hx' => ?_⟩
      simp only [Spot.part]
      split
      · subst k
        exact hat' x x' (hdisc.trans hx) hx'
      · rw [hother' k ‹_›] at hx'
        exact A.inlines hl' (hat k x x' hx hx') (Spot.grows_along _ _)
  | _ =>
    intro s t' s' h hv
    unfold Walk.object at h
    rw [hes] at h
    obtain ⟨⟨es₁, r⟩, s₁, h₁, h⟩ := bind_run.1 h
    cases r with
    | error e => cases (pure_run.1 h).1
    | ok =>
      obtain ⟨hl, hkeys, -, hat⟩ := along_run hf hc h₁ hv
      obtain ⟨heq, rfl⟩ := pure_run.1 h
      cases heq
      exact ⟨hl, inlines_map hr hkeys hat⟩

/-! ## The walk -/

/-- A walk makes of a plain tree what inlining may make of it. -/
theorem walk_list (bound : Nat) (ts : List Tree) (k : Kind) :
    walk (visitor f) bound (.list none ts) (.listOf k) = (do
      let (ts', r) ← eachItem (visitor f) k (ts.map fun t => (t, walk (visitor f) bound t))
      pure (.list none ts', r)) := by
  simp only [walk, para, paraItems_eq, Walk.cases, Edit.visitShared, List.map_map]
  rfl

theorem visits_walk (hf : Follows A doc f) (bound : Nat) {t : Tree} (hp : Plain t) :
    ∀ kind, (Spot.visited kind).refers t = none →
      Visits A doc (.visited kind) t (walk (visitor f) bound t kind) := by
  induction t using Tree.induct with
  | map a es ih =>
    intro kind hr
    obtain ⟨rfl, -, hpl⟩ := plain_map.1 hp
    have hwalk : walk (visitor f) bound (.map none es) kind = Walk.object (visitor f) none
        (es.map fun e => (e.1, e.2, walk (visitor f) bound e.2)) kind := by
      simp only [walk, para, paraEntries_eq, Walk.cases, Edit.visitShared, List.map_map]
      rfl
    rw [hwalk]
    exact visits_object hf hp (fun e he kind => ih e he (hpl e he).2 kind) hr
  | list a ts ih =>
    intro kind hr s t' s' h hv
    obtain ⟨rfl, hpl⟩ := plain_list.1 hp
    cases kind with
    | listOf k =>
      rw [walk_list] at h
      obtain ⟨⟨ts', r⟩, s₁, h₁, h⟩ := bind_run.1 h
      obtain ⟨heq, rfl⟩ := pure_run.1 h
      cases heq
      obtain ⟨hl, hall⟩ := eachItem_run hf (fun c hm => by
        obtain ⟨t, ht, rfl⟩ := List.mem_map.1 hm
        exact ih t ht (hpl t ht) k) h₁ hv
      rw [List.forall₂_map_left_iff] at hall
      refine ⟨hl, .list hall.length_eq fun i x x' hx hx' => ?_⟩
      obtain ⟨hi, rfl⟩ := List.getElem?_eq_some_iff.1 hx
      obtain ⟨hi', rfl⟩ := List.getElem?_eq_some_iff.1 hx'
      exact (List.forall₂_iff_get.1 hall).2 i hi hi'
    | _ =>
      simp only [walk, para, paraItems_eq, Walk.cases, Edit.visitShared, List.map_map,
        Function.comp_def, List.map_id'] at h
      obtain ⟨heq, rfl⟩ := pure_run.1 h
      cases heq
      exact ⟨A.refl _, inlines_of_not_map rfl hr rfl⟩
  | back a m => exact absurd hp plain_back
  | _ =>
    intro kind hr s t' s' h hv
    obtain ⟨heq, rfl⟩ := pure_run.1 h
    cases heq
    exact ⟨A.refl _, .leaf hr rfl rfl⟩

/-- The visit of a map of objects, where one stands. -/
theorem visits_whenMap (hf : Follows A doc f) {k : Kind} {t : Tree} (hp : Plain t) (bound : Nat) :
    Visits A doc (.visited (.mapOf k)) t
      (Edit.whenMap (fun t => walk (visitor f) bound t (.mapOf k)) t) := by
  intro s t' s' h hv
  rcases Edit.whenMap_run h with ⟨-, h⟩ | ⟨hm, rfl, rfl⟩
  · exact visits_walk hf bound hp (.mapOf k) rfl _ _ _ h hv
  · refine ⟨A.refl _, inlines_of_not_map ?_ rfl rfl⟩
    simpa [Tree.isMap] using hm

/-! ## Following references -/

section

variable {st : Setting}

/-- What takes the place of a reference into the description. -/
theorem answer_home {c : Scene} {doc : Place} {kind : Kind} {r : String} {res : Library.Resolved}
    (hres : c.library.target? doc r = some res) (hroot : res.path = c.root) :
    Answer c doc kind r (localReference res.pointer) :=
  fun _ _ _ hr hw => .home hr hres hroot hw

/-- The name of a reference's target holds no hash. -/
theorem hash_notMem_name {library : Library} {doc : Place} {r : String} {res : Library.Resolved}
    (h : library.target? doc r = some res) : '#' ∉ res.target.name.toList := by
  obtain ⟨_, _, _, -, -, -, -, hl⟩ := Library.target?_eq_some.1 h
  exact hl.hash_notMem (Library.hash_notMem_pointer h)

/-- What `follow` answers may take the place of a reference of the document at `doc`. -/
theorem follows_follow (A : Account st.library st.root)
    (hdocs : ∀ p d, st.library.get p = .ok d → Plain d) :
    ∀ (path : List Marker) (doc : Place), Follows A doc (follow st path doc) := by
  intro path
  induction hm : unvisited st.targets path using Nat.strongRecOn generalizing path with
  | ind m ih =>
    intro doc kind r s n s' h hv
    rw [follow] at h
    cases hres : st.library.resolve doc r with
    | error e =>
      rw [hres] at h
      cases (pure_run.1 h).1
    | ok res =>
      rw [hres] at h
      have htarget := Library.target?_of_resolve hres
      by_cases hroot : res.path = st.root
      · simp only [if_pos hroot] at h
        obtain ⟨heq, rfl⟩ := pure_run.1 h
        cases heq
        exact ⟨A.refl _, answer_home htarget hroot⟩
      simp only [if_neg hroot] at h
      split at h
      · cases (pure_run.1 h).1
      rename_i hpath
      split at h
      · rename_i hmem
        have hp := plain_target hdocs htarget
        have hplain := Library.ofTree?_target htarget
        obtain ⟨target, s₁, h₁, h⟩ := bind_run.1 h
        rw [copy_run hp] at h₁
        cases h₁
        obtain ⟨⟨t, end'⟩, s₂, h₂, h⟩ := bind_run.1 h
        cases end' with
        | error e => cases (pure_run.1 h).1
        | ok =>
          have hfollows := ih _ (hm ▸ unvisited_append_lt hmem hpath) _ rfl res.path
          obtain ⟨hl, hi⟩ := visits_walk hfollows st.sharedDepth hp kind
            (Spot.refers_visited_eq_none hplain) _ _ _ h₂ hv
          by_cases hk : kind = .schema
          · subst hk
            obtain ⟨hl', hu⟩ := A.places (A.valid hl hv) (hash_notMem_name htarget)
              (hi.plain hdocs rfl hp) ⟨res.path, _, _, hp, hplain, hi⟩ h
            have hi' := A.inlines hl' hi rfl
            refine ⟨A.trans hl hl', fun spot t t' hr hw => ?_⟩
            rcases hu with ⟨rfl, hkept⟩ | ⟨rfl, htaken⟩
            · exact .named hr htarget hroot hi' hkept hw
            · exact .copied hr htarget hroot hi' (fun _ => htaken) hw
          · have hpure : (pure (.ok t) : Run (Except Failure Tree)) s₂ = (.ok n, s') := by
              cases kind <;> first | exact h | exact absurd rfl hk
            obtain ⟨heq, rfl⟩ := pure_run.1 hpure
            cases heq
            exact ⟨hl, fun spot t t' hr hw =>
              .copied hr htarget hroot hi (fun hs => absurd hs hk) hw⟩
      · cases (pure_run.1 h).1

end

end ApiContract.Inline
