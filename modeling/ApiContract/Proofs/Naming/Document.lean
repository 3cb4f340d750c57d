import ApiContract.Proofs.Naming.Object

/-!
# Naming the schemas of a description

* `schemasFrom_run`: the schemas of the table are gone through one after the other, while the table grows
  behind them.
* `document_run`: naming goes through the components and then through the paths, and leaves nothing that
  needs a name inline in the table.
-/

namespace ApiContract.Naming

open Tree Edit

variable {s s' : State} {t t' : Tree}

/-! ## The table of schemas -/

/-- The schema under a key of the table is gone through. -/
theorem schemaFrom_run {key : Scalar} {keys : List Scalar} {a : Anchor} {es : Entries}
    (hx : s.entry? key = some (.map a es)) (hv : Valid s)
    (h : schemasFrom (key :: keys) s = (.ok (), s')) :
    ∃ s₁, Later s s₁ ∧ schemasFrom keys s₁ = (.ok (), s') ∧
      ∀ todo, Settled (fun k => todo k ∨ k = key) s → Settled todo s₁ := by
  have hp : Plain (.map a es) := hv.plain_entry hx
  obtain ⟨rfl, -⟩ := plain_map.1 hp
  rw [schemasFrom] at h
  obtain ⟨table, s₁, h₁, h⟩ := bind_run.1 h
  rw [presentTable_run hv.records] at h₁
  cases h₁
  rw [State.entry?] at hx
  simp only [hx, shared_of_anchor hp.anchor_eq] at h
  obtain ⟨⟨_, r⟩, s₂, h₂, h⟩ := bind_run.1 h
  obtain ⟨⟨t', r'⟩, s₃, h₃, h₂⟩ := bind_run.1 h₂
  obtain ⟨heq, rfl⟩ := pure_run.1 h₂
  cases heq
  cases r' with
  | error f =>
    obtain ⟨_, _, -, h⟩ := bind_run.1 h
    split at h
    · obtain ⟨_, _, -, h⟩ := bind_run.1 h
      cases (pure_run.1 h).1
    · cases (pure_run.1 h).1
  | ok b =>
    -- The table may have grown, but the entry is still what it was.
    obtain ⟨hl, ⟨hn, -⟩, hstill⟩ := visits_visit _ .schema _ _ _ _ _ h₃ hp rfl hv
    have hdone : Done t' := ⟨hn.prepared hp, fun _ => ⟨b, hstill⟩⟩
    have hv₃ := hl.valid hv
    have hx₃ := hl.keeps _ _ hx
    obtain ⟨fs, hfs, hfx⟩ := State.has_of_entry? hv₃ hx₃
    obtain ⟨table', s₄, h₄, h⟩ := bind_run.1 h
    rw [presentTable_run hv₃.records, hfs] at h₄
    cases h₄
    obtain ⟨_, s₅, h₅, h⟩ := bind_run.1 h
    have hput : Plain (.map none (Entries.put key t' fs)) :=
      Entries.plain_put (hv₃.plain _ hfs) (List.mem_map_of_mem (Entries.mem_of_at? hfx)) (hn.plain hp)
    replace h₅ := setTable_run hput h₅
    have htable : s₅.table = some (.map none (Entries.put key t' fs)) := by rw [h₅]
    have hcreated : s₅.created = s₃.created := by rw [h₅]
    have hhome : s₅.home = s₃.home := by rw [h₅]
    have hrecords : s₅.records = s₃.records := by rw [h₅]
    have hl' := later_put hfs hfx htable hcreated hhome hrecords hv₃ hp hn hdone
    exact ⟨_, hl.toLater.trans hl', h, fun todo htodo =>
      settled_put (.inl hfs) htable hdone (hl.settled _ htodo)⟩

/-- Nothing is done where no map stands under a key of the table. -/
theorem schemasFrom_skip (key : Scalar) {keys : List Scalar} (hv : Valid s)
    (hmap : ∀ a es, s.entry? key ≠ some (.map a es)) :
    schemasFrom (key :: keys) s = schemasFrom keys s ∧
      ∀ todo, Settled (fun k => todo k ∨ k = key) s → Settled todo s := by
  constructor
  · cases hx : s.entry? key with
    | none =>
      rw [State.entry?] at hx
      show (presentTable >>= _) s = _
      simp only [bind, StateT.bind, presentTable_run hv.records, hx]
    | some x =>
      cases x with
      | map a es => exact absurd hx (hmap a es)
      | _ =>
        rw [State.entry?] at hx
        show (presentTable >>= _) s = _
        simp only [bind, StateT.bind, presentTable_run hv.records, hx]
  · intro todo hset k x hx hk
    by_cases hkey : k = key
    · subst hkey
      have hm : x.isMap = false := by
        cases x with
        | map a es => exact absurd hx (hmap a es)
        | _ => rfl
      exact ⟨.skip (by simp [Stand.skips, hm]), fun h => by cases hm.symm.trans h⟩
    · exact hset k x hx fun h => h.elim hk hkey

/-- The entries under some keys are gone through one after the other. -/
theorem schemasFrom_run :
    ∀ {keys : List Scalar} {s s' : State}, schemasFrom keys s = (.ok (), s') → Valid s →
      Later s s' ∧ ∀ todo, Settled (fun k => todo k ∨ k ∈ keys) s → Settled todo s'
  | [], s, s', h, _ => by
    obtain ⟨-, rfl⟩ := pure_run.1 h
    exact ⟨.refl _, fun todo hset => by simpa using hset⟩
  | key :: keys, s, s', h, hv => by
    obtain ⟨s₁, hl, h, hset⟩ : ∃ s₁, Later s s₁ ∧ schemasFrom keys s₁ = (.ok (), s') ∧
        ∀ todo, Settled (fun k => todo k ∨ k = key) s → Settled todo s₁ := by
      by_cases hmap : ∃ a es, s.entry? key = some (.map a es)
      · obtain ⟨a, es, hx⟩ := hmap
        exact schemaFrom_run hx hv h
      · obtain ⟨heq, hset⟩ := schemasFrom_skip key hv fun a es hx => hmap ⟨a, es, hx⟩
        exact ⟨s, .refl _, heq ▸ h, hset⟩
    obtain ⟨hl', hset'⟩ := schemasFrom_run h (hl.valid hv)
    refine ⟨hl.trans hl', fun todo htodo => hset' todo (hset _ ?_)⟩
    simpa only [List.mem_cons, or_assoc, or_left_comm, or_comm] using htodo

/-- The schemas that are in the table are gone through. -/
theorem schemas_run (h : schemas t s = ((t', .ok ()), s')) (hv : Valid s) :
    t' = t ∧ Later s s' ∧ Settled (fun _ => False) s' := by
  obtain ⟨table, s₁, h₁, h⟩ := bind_run.1 h
  rw [presentTable_run hv.records] at h₁
  cases h₁
  obtain ⟨r, s₂, h₂, h⟩ := bind_run.1 h
  obtain ⟨heq, rfl⟩ := pure_run.1 h
  cases heq
  obtain ⟨hl, hset⟩ := schemasFrom_run h₂ hv
  refine ⟨rfl, hl, hset _ fun k x hx hk => ?_⟩
  obtain ⟨es, htable, hx⟩ := State.has_of_entry? hv hx
  rw [htable] at hk
  exact absurd (List.mem_map_of_mem (Entries.mem_of_at? hx)) fun hm => hk (.inr hm)

/-! ## The description -/

/-- What a description has under `components`, as far as it is a map. -/
def componentsOf (t : Tree) : Entries := ((t.get? "components").bind Tree.entries?).getD []

/-- The keys of the components that naming goes through besides the table of schemas. -/
def componentKeys : List String := ["responses", "parameters", "requestBodies", "headers"]

/-- A description that differs from another one in its table of schemas, and in what naming does not go
through. -/
structure Besides (t u : Tree) : Prop where
  paths : u.get? "paths" = t.get? "paths"
  components : ∀ key ∈ componentKeys, (componentsOf u).at? (.text key) = (componentsOf t).at? (.text key)

theorem does_components : Does (.object .components) (whenMap (andThen components schemas)) := by
  refine does_whenMap (fun t ht => by simp [Stand.skips, ht]) ?_
  intro es s t' s' h hp hv
  obtain ⟨u, s₁, h₁, h₂⟩ := andThen_run h
  obtain ⟨hl, hn, hstays⟩ := doesMap_components _ h₁ hp hv
  obtain ⟨rfl, hl', -⟩ := schemas_run h₂ (hl.valid hv)
  exact ⟨hl.trans hl', hn.later hl', hstays.andThen (stays_schemas _)⟩

theorem settled_of_table (h : s.table = none) {todo : Scalar → Prop} : Settled todo s := by
  intro k x hx
  rw [State.entry?, h] at hx
  cases hx

/-- Nothing becomes of components that have nothing to go through. -/
theorem stays_components_of_none {comps : Entries} (hp : Plain (.map none comps))
    (h : ∀ key ∈ componentKeys, comps.at? (.text key) = none) : Stays components (.map none comps) := by
  simp only [componentKeys, List.forall_mem_cons] at h
  obtain ⟨h₁, h₂, h₃, h₄, -⟩ := h
  exact (stays_value hp fun x hx => by cases h₁.symm.trans hx).andThen <|
    (stays_value hp fun x hx => by cases h₂.symm.trans hx).andThen <|
    (stays_value hp fun x hx => by cases h₃.symm.trans hx).andThen <|
    (stays_value hp fun x hx => by cases h₄.symm.trans hx).andThen (stays_skip _)

/-- After the components, naming is done with every entry of the table, and nothing becomes of the components
any more. -/
theorem components_run (h : whenMap (andThen components schemas) t s = ((t', .ok ()), s'))
    (hp : Plain t) (hv : Valid s) (htable : t.isMap = false → s.table = none) :
    Settled (fun _ => False) s' ∧ ∀ comps : Entries, Plain (.map none comps) →
      (∀ key ∈ componentKeys, comps.at? (.text key) = (t'.entries?.getD []).at? (.text key)) →
      Stays components (.map none comps) := by
  rcases whenMap_run h with ⟨hm, h⟩ | ⟨hm, rfl, rfl⟩
  · obtain ⟨es, rfl⟩ := hp.eq_map hm
    obtain ⟨u, s₁, h₁, h₂⟩ := andThen_run h
    obtain ⟨hl, es', rfl, -, -, -, hstays⟩ := along_components h₁ hp hv
    obtain ⟨rfl, -, hset⟩ := schemas_run h₂ (hl.valid hv)
    exact ⟨hset, hstays⟩
  · refine ⟨settled_of_table (htable hm), fun comps hpc hsame => stays_components_of_none hpc fun key hk => ?_⟩
    rw [hsame key hk, Option.not_isSome_iff_eq_none.1 (Bool.eq_false_iff.1 hm)]
    rfl

theorem does_paths : Does (.object (.mapOf .pathItem))
    (choose fun t => if !t.truthy then skip
      else if t.isMap then entries fun _ => unlessReference pathItem else fail .malformed) := by
  have hpath : ∀ _ : Scalar, Does (.ofKind .pathItem) (unlessReference pathItem) := fun _ => does_pathItem
  intro t
  refine doesTo_choose (fun hn => by rw [hn.truthy, hn.isMap]) ?_
  split
  · rename_i hfalsy
    exact doesTo_skip fun _ => names_of_falsy_map (by simpa using hfalsy)
  · split
    · exact does_entries hpath t
    · exact doesTo_fail _

/-- The edit of the components is done with the table and with the components. -/
theorem components_value {es : Entries}
    (h : value "components" (whenMap (andThen components schemas)) (.map none es) s =
      ((t', .ok ()), s')) (hp : Plain (.map none es)) (hv : Valid s)
    (htable : ((Tree.map none es).getD "components").isMap = false → s.table = none) :
    Settled (fun _ => False) s' ∧ ∀ comps : Entries, Plain (.map none comps) →
      (∀ key ∈ componentKeys, comps.at? (.text key) = (componentsOf t').at? (.text key)) →
      Stays components (.map none comps) := by
  rcases value_run h with ⟨a, es₀, es₁, heq, rfl, h⟩ | ⟨hm, -⟩
  · cases heq
    obtain ⟨-, -, hat⟩ := valueIn_run h
    have hget : (Tree.map none es).get? "components" = es.at? (.text "components") := rfl
    have hcomps : componentsOf (.map none es₁) =
        ((Entries.at? (.text "components") es₁).bind Tree.entries?).getD [] := rfl
    rw [Tree.getD, hget] at htable
    rw [hcomps]
    cases hx : es.at? (.text "components") with
    | none =>
      rw [hx] at hat htable
      obtain ⟨rfl, rfl⟩ := hat
      refine ⟨settled_of_table (htable rfl), fun comps hpc hsame => stays_components_of_none hpc fun key hk => ?_⟩
      rw [hsame key hk, hx]
      rfl
    | some x =>
      rw [hx] at hat htable
      obtain ⟨x', hx', hrun⟩ := hat
      have hpx := ((plain_map.1 hp).2.2 _ (Entries.mem_of_at? hx)).2
      rw [shared_of_anchor hpx.anchor_eq] at hrun
      rw [hx']
      exact components_run hrun hpx hv htable
  · cases hm

/-- Nothing becomes of a description if nothing becomes of its components and paths. -/
theorem stays_document (hp : Plain t)
    (hcomponents : ∀ comps : Entries, Plain (.map none comps) →
      (∀ key ∈ componentKeys, comps.at? (.text key) = (componentsOf t).at? (.text key)) →
      Stays components (.map none comps))
    (hpaths : ∀ es, t = .map none es → Stays (value "paths" (choose fun t => if !t.truthy then skip
      else if t.isMap then entries fun _ => unlessReference pathItem else fail .malformed)) (.map none es)) :
    Stays document t := by
  cases t with
  | map a es =>
    obtain ⟨rfl, -, hpl⟩ := plain_map.1 hp
    refine (stays_value hp fun x hx => stays_whenMap fun hm => ?_).andThen (hpaths es rfl)
    have hpx := (hpl _ (Entries.mem_of_at? hx)).2
    obtain ⟨comps, rfl⟩ := hpx.eq_map hm
    have hcomps : componentsOf (.map none es) = comps := by
      show ((Entries.at? _ es).bind _).getD _ = _
      rw [hx]
      rfl
    exact (hcomponents comps hpx fun key _ => by rw [hcomps]).andThen (stays_schemas _)
  | _ => exact fun s _ => ⟨s.notices, rfl⟩

/-- Naming goes through a description. -/
theorem document_run (h : document t s = ((t', .ok ()), s')) (hp : Plain t) (hv : Valid s)
    (htable : (t.getD "components").isMap = false → s.table = none) :
    Later s s' ∧ Names s'.Held .document t t' ∧ Settled (fun _ => False) s' ∧
      (t.isMap = false → s' = s) ∧ ∀ u, Plain u → Besides t' u → Stays document u := by
  obtain ⟨u, s₁, h₁, h₂⟩ := andThen_run h
  cases t with
  | map a es =>
    obtain ⟨rfl, -⟩ := plain_map.1 hp
    obtain ⟨hset, hstays⟩ := components_value h₁ hp hv htable
    have hd : Does (Stand.part .document es (.text "components")) _ := does_components
    have hd' : Does (Stand.part .document es (.text "paths")) _ := does_paths
    obtain ⟨hl, es₁, rfl, hk, hother, hat, -⟩ := along_value hd h₁ hp hv
    have hp₁ := plain_of_along hp hk hother hat
    obtain ⟨hl', es₂, rfl, hk', hother', hat', hstays'⟩ := along_value hd' h₂ hp₁ (hl.valid hv)
    simp only [List.mem_singleton, forall_eq] at hother hat hother' hat' hstays'
    refine ⟨hl.trans hl', .map trivial (hk'.trans hk) fun k x x' hx hx' => ?_, hl'.settled _ hset,
      fun hm => (by cases hm), fun u hpu hu => stays_document hpu ?_ ?_⟩
    · by_cases hpaths : k = .text "paths"
      · subst hpaths
        exact hat' x x' ((hother _ (by simp)).trans hx) hx'
      · rw [hother' k hpaths] at hx'
        by_cases hcomponents : k = .text "components"
        · subst hcomponents
          exact (hat x x' hx hx').later hl'
        · rw [hother k hcomponents] at hx'
          cases hx.symm.trans hx'
          exact .same (by simp [Stand.part, hcomponents, hpaths, Stand.skips])
    · have hcomps : componentsOf (.map none es₁) = componentsOf (.map none es₂) := by
        show ((Entries.at? _ es₁).bind _).getD _ = ((Entries.at? _ es₂).bind _).getD _
        rw [hother' _ (by simp)]
      exact fun comps hpc hsame => hstays comps hpc fun key hkey =>
        (hsame key hkey).trans ((hu.components key hkey).trans (by rw [hcomps]))
    · rintro fs rfl
      exact hstays' fs hpu hu.paths
  | _ =>
    obtain ⟨heq, rfl⟩ := pure_run.1 h₁
    cases heq
    obtain ⟨heq, rfl⟩ := pure_run.1 h₂
    cases heq
    refine ⟨.refl _, .same rfl, settled_of_table (htable rfl), fun _ => rfl, fun u hpu hu =>
      stays_document hpu (fun comps hpc hsame => stays_components_of_none hpc fun key hkey =>
        (hsame key hkey).trans (hu.components key hkey)) fun fs hfs => ?_⟩
    subst hfs
    exact stays_value hpu fun x hx => by cases hx.symm.trans hu.paths

end ApiContract.Naming
