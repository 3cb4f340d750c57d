import ApiContract.Proofs.Lists

/-!
# Results

What it takes for steps that may fail to end well, and what comes of going through a list with one.
-/

namespace ApiContract

variable {ε α β : Type}

theorem bind_eq_ok {x : Except ε α} {f : α → Except ε β} {b : β} :
    x >>= f = .ok b ↔ ∃ a, x = .ok a ∧ f a = .ok b := by
  cases x with
  | ok a => exact ⟨fun h => ⟨a, rfl, h⟩, by rintro ⟨_, ⟨⟩, h⟩; exact h⟩
  | error e => exact ⟨fun h => (by cases h), by rintro ⟨_, ⟨⟩, _⟩⟩

theorem bind_eq_error {x : Except ε α} {f : α → Except ε β} {e : ε} :
    x >>= f = .error e ↔ x = .error e ∨ ∃ a, x = .ok a ∧ f a = .error e := by
  cases x with
  | ok a => exact ⟨fun h => .inr ⟨a, rfl, h⟩, by rintro (⟨⟨⟩⟩ | ⟨_, ⟨⟩, h⟩); exact h⟩
  | error e' =>
    refine ⟨fun h => ?_, ?_⟩
    · cases h
      exact .inl rfl
    · rintro (⟨⟨⟩⟩ | ⟨_, ⟨⟩, _⟩)
      rfl

theorem map_eq_ok {x : Except ε α} {f : α → β} {b : β} :
    x.map f = .ok b ↔ ∃ a, x = .ok a ∧ f a = b := by
  cases x <;> simp [Except.map]

theorem map_eq_error {x : Except ε α} {f : α → β} {e : ε} : x.map f = .error e ↔ x = .error e := by
  cases x <;> simp [Except.map]

theorem eq_ok_of_toOption {x : Except ε α} {a : α} (h : x.toOption = some a) : x = .ok a := by
  cases x with
  | error e => cases h
  | ok b => cases h; rfl

theorem eq_ok_of_toOption_fst {x : Except ε α × β} {a : α} (h : x.1.toOption = some a) :
    x = (.ok a, x.2) := by
  obtain ⟨r, b⟩ := x
  have h : r.toOption = some a := h
  rw [eq_ok_of_toOption h]

theorem exists_ok_of_map {γ : Type} {x : Except ε α × β} {f : α → γ} {c : γ}
    (h : x.1.toOption.map f = some c) : ∃ a b, x = (.ok a, b) ∧ f a = c := by
  obtain ⟨a, ha, hc⟩ := Option.map_eq_some_iff.1 h
  exact ⟨a, x.2, eq_ok_of_toOption_fst ha, hc⟩

/-- A check of all items passes if it passes for each. -/
theorem forM_eq_ok {f : α → Except ε Unit} {as : List α} :
    as.forM f = .ok () ↔ ∀ a ∈ as, f a = .ok () := by
  induction as with
  | nil => exact ⟨fun _ _ h => absurd h List.not_mem_nil, fun _ => rfl⟩
  | cons a as ih =>
    have hcons : (a :: as).forM f = .ok () ↔ f a = .ok () ∧ as.forM f = .ok () := by
      show f a >>= (fun _ => as.forM f) = .ok () ↔ _
      rw [bind_eq_ok]
      exact ⟨fun ⟨_, ha, has⟩ => ⟨ha, has⟩, fun ⟨ha, has⟩ => ⟨(), ha, has⟩⟩
    rw [hcons, ih, List.forall_mem_cons]

theorem mapM_congr {f g : α → Except ε β} : ∀ {as : List α}, (∀ a ∈ as, f a = g a) → as.mapM f = as.mapM g
  | [], _ => rfl
  | a :: as, h => by
    obtain ⟨ha, has⟩ := List.forall_mem_cons.1 h
    rw [List.mapM_cons, List.mapM_cons, ha, mapM_congr has]

/-- A list that is mapped well has the result of each item. -/
theorem forall₂_of_mapM {f : α → Except ε β} : ∀ {as : List α} {bs : List β}, as.mapM f = .ok bs →
    List.Forall₂ (fun a b => f a = .ok b) as bs
  | [], _, h => by
    cases h
    exact .nil
  | a :: as, _, h => by
    rw [List.mapM_cons] at h
    obtain ⟨b, hb, h⟩ := bind_eq_ok.1 h
    obtain ⟨bs, hbs, h⟩ := bind_eq_ok.1 h
    cases h
    exact .cons hb (forall₂_of_mapM hbs)

theorem mapM_of_forall₂ {f : α → Except ε β} {as : List α} {bs : List β}
    (h : List.Forall₂ (fun a b => f a = .ok b) as bs) : as.mapM f = .ok bs := by
  induction h with
  | nil => rfl
  | cons hab _ ih =>
    rw [List.mapM_cons, hab, ih]
    rfl

/-- Every item of a list that is mapped well has its result. -/
theorem exists_of_mapM {f : α → Except ε β} {as : List α} {bs : List β} (h : as.mapM f = .ok bs)
    {a : α} (ha : a ∈ as) : ∃ b, f a = .ok b ∧ b ∈ bs := by
  obtain ⟨b, hb, hf⟩ := mem_of_forall₂_left (forall₂_of_mapM h) ha
  exact ⟨b, hf, hb⟩

/-- A list is mapped badly only because of an item. -/
theorem error_of_mapM {f : α → Except ε β} : ∀ {as : List α} {e : ε}, as.mapM f = .error e →
    ∃ a ∈ as, f a = .error e
  | [], _, h => by cases h
  | a :: as, e, h => by
    rw [List.mapM_cons] at h
    rcases bind_eq_error.1 h with h | ⟨b, -, h⟩
    · exact ⟨a, List.mem_cons_self, h⟩
    rcases bind_eq_error.1 h with h | ⟨bs, -, h⟩
    · obtain ⟨a', ha', hf⟩ := error_of_mapM h
      exact ⟨a', List.mem_cons_of_mem _ ha', hf⟩
    · cases h

/-- Every result comes from an item. -/
theorem mem_of_mapM {f : α → Except ε β} {as : List α} {bs : List β} (h : as.mapM f = .ok bs)
    {b : β} (hb : b ∈ bs) : ∃ a ∈ as, f a = .ok b :=
  mem_of_forall₂_right (forall₂_of_mapM h) hb

/-- What every step of a fold keeps holds at its end. -/
theorem of_foldlM {f : β → α → Except ε β} {I : β → Prop} {as : List α} {b b' : β}
    (h : as.foldlM f b = .ok b') (hb : I b) (hf : ∀ b, ∀ a ∈ as, ∀ b', I b → f b a = .ok b' → I b') :
    I b' := by
  induction as generalizing b with
  | nil => cases h; exact hb
  | cons a as ih =>
    rw [List.foldlM_cons] at h
    obtain ⟨c, hc, h⟩ := bind_eq_ok.1 h
    exact ih h (hf b a List.mem_cons_self c hb hc) fun b a' ha' => hf b a' (List.mem_cons_of_mem _ ha')

/-- What a step of a fold makes of its item, and later steps keep, holds of every item at the end. -/
theorem forall_mem_of_foldlM {f : β → α → Except ε β} {I : β → Prop} {P : β → α → Prop} {as : List α}
    {b b' : β} (h : as.foldlM f b = .ok b') (hb : I b)
    (hf : ∀ b, ∀ a ∈ as, ∀ b', I b → f b a = .ok b' → I b' ∧ P b' a ∧ ∀ c, P b c → P b' c) :
    ∀ a ∈ as, P b' a := by
  have hfold : ∀ (as' : List α) (b : β), (∀ a ∈ as', a ∈ as) → as'.foldlM f b = .ok b' → I b →
      (∀ a ∈ as', P b' a) ∧ ∀ c, P b c → P b' c := by
    intro as'
    induction as' with
    | nil =>
      intro b _ h _
      cases h
      exact ⟨nofun, fun _ h => h⟩
    | cons a as' ih =>
      intro b has h hb
      obtain ⟨ha, has⟩ := List.forall_mem_cons.1 has
      rw [List.foldlM_cons] at h
      obtain ⟨c, hc, h⟩ := bind_eq_ok.1 h
      obtain ⟨hI, hmade, hkept⟩ := hf b a ha c hb hc
      obtain ⟨hall, hkept'⟩ := ih c has h hI
      exact ⟨List.forall_mem_cons.2 ⟨hkept' a hmade, hall⟩, fun d hd => hkept' d (hkept d hd)⟩
  exact (hfold as b (fun _ ha => ha) h hb).1

/-- A fold that fails does so at a step, from what the steps before have kept. -/
theorem error_of_foldlM {f : β → α → Except ε β} {I : β → Prop} {as : List α} {b : β} {e : ε}
    (h : as.foldlM f b = .error e) (hb : I b)
    (hf : ∀ b, ∀ a ∈ as, ∀ b', I b → f b a = .ok b' → I b') :
    ∃ a ∈ as, ∃ b, I b ∧ f b a = .error e := by
  induction as generalizing b with
  | nil => cases h
  | cons a as ih =>
    rw [List.foldlM_cons] at h
    rcases bind_eq_error.1 h with h | ⟨c, hc, h⟩
    · exact ⟨a, List.mem_cons_self, b, hb, h⟩
    · obtain ⟨a', ha', hfail⟩ := ih h (hf b a List.mem_cons_self c hb hc)
        fun b a' ha' => hf b a' (List.mem_cons_of_mem _ ha')
      exact ⟨a', List.mem_cons_of_mem _ ha', hfail⟩

theorem mem_of_filterMapM {f : α → Except ε (Option β)} {as : List α} {bs : List β}
    (h : as.filterMapM f = .ok bs) {b : β} (hb : b ∈ bs) : ∃ a ∈ as, f a = .ok (some b) := by
  induction as generalizing bs with
  | nil => cases h; exact absurd hb List.not_mem_nil
  | cons a as ih =>
    rw [List.filterMapM_cons] at h
    obtain ⟨b', hb', h⟩ := bind_eq_ok.1 h
    have hrest : ∀ {bs}, as.filterMapM f = .ok bs → b ∈ bs → ∃ a' ∈ a :: as, f a' = .ok (some b) := by
      intro bs h hb
      obtain ⟨c, hc, hf⟩ := ih h hb
      exact ⟨c, List.mem_cons_of_mem _ hc, hf⟩
    cases b' with
    | none => exact hrest h hb
    | some b' =>
      obtain ⟨bs', hbs, h⟩ := bind_eq_ok.1 h
      cases h
      rcases List.mem_cons.1 hb with rfl | hb
      · exact ⟨a, List.mem_cons_self, hb'⟩
      · exact hrest hbs hb

theorem mem_filterMapM {f : α → Except ε (Option β)} {as : List α} {bs : List β}
    (h : as.filterMapM f = .ok bs) {a : α} {b : β} (ha : a ∈ as) (hf : f a = .ok (some b)) : b ∈ bs := by
  induction as generalizing bs with
  | nil => exact absurd ha List.not_mem_nil
  | cons a' as ih =>
    rw [List.filterMapM_cons] at h
    obtain ⟨b', hb', h⟩ := bind_eq_ok.1 h
    rcases List.mem_cons.1 ha with rfl | ha
    · cases hf.symm.trans hb'
      obtain ⟨bs', -, h⟩ := bind_eq_ok.1 h
      cases h
      exact List.mem_cons_self
    · cases b' with
      | none => exact ih h ha
      | some b' =>
        obtain ⟨bs', hbs, h⟩ := bind_eq_ok.1 h
        cases h
        exact List.mem_cons_of_mem _ (ih hbs ha)

/-- Filtering well keeps the items that pass, and every item has been tested. -/
theorem filterM_eq_ok {p : α → Except ε Bool} {as bs : List α} (h : as.filterM p = .ok bs) :
    bs = as.filter (fun a => (p a).toOption.getD false) ∧ ∀ a ∈ as, ∃ b, p a = .ok b := by
  obtain ⟨cs, hcs, h⟩ := bind_eq_ok.1 h
  cases h
  -- The items kept so far are at hand, the last first.
  have haux : ∀ {as kept cs : List α}, List.filterAuxM p as kept = .ok cs →
      cs = (as.filter fun a => (p a).toOption.getD false).reverse ++ kept ∧ ∀ a ∈ as, ∃ b, p a = .ok b := by
    intro as
    induction as with
    | nil => intro kept cs h; cases h; exact ⟨rfl, nofun⟩
    | cons a as ih =>
      intro kept cs h
      obtain ⟨keep, hkeep, h⟩ := bind_eq_ok.1 h
      obtain ⟨hcs, hall⟩ := ih h
      refine ⟨?_, List.forall_mem_cons.2 ⟨⟨keep, hkeep⟩, hall⟩⟩
      have htest : (p a).toOption.getD false = keep := by
        rw [hkeep]
        rfl
      rw [hcs, List.filter_cons, htest]
      cases keep <;> simp
  obtain ⟨rfl, hall⟩ := haux hcs
  exact ⟨by simp, hall⟩

theorem mem_of_filterM {p : α → Except ε Bool} {as bs : List α} (h : as.filterM p = .ok bs) {b : α}
    (hb : b ∈ bs) : b ∈ as := by
  rw [(filterM_eq_ok h).1] at hb
  exact (List.mem_filter.1 hb).1

/-- What goes through a list with a function that may fail or give nothing does so with each item. -/
theorem forall₂_of_filterMapM {γ : Type} {f : α → Except ε (Option β)} {g : α → Option γ} {R : γ → β → Prop}
    {as : List α} {bs : List β} (h : as.filterMapM f = .ok bs)
    (hf : ∀ a ∈ as, ∀ o, f a = .ok o → Option.Rel R (g a) o) : List.Forall₂ R (as.filterMap g) bs := by
  induction as generalizing bs with
  | nil =>
    cases h
    exact .nil
  | cons a as ih =>
    rw [List.filterMapM_cons] at h
    obtain ⟨o, ho, h⟩ := bind_eq_ok.1 h
    have hrest : ∀ {bs}, as.filterMapM f = .ok bs → List.Forall₂ R (as.filterMap g) bs := fun h =>
      ih h fun a ha => hf a (List.mem_cons_of_mem _ ha)
    have hrel := hf a List.mem_cons_self o ho
    cases hg : g a with
    | none =>
      rw [hg] at hrel
      cases hrel
      rw [List.filterMap_cons_none hg]
      exact hrest h
    | some c =>
      rw [hg] at hrel
      cases hrel with
      | some hc =>
        obtain ⟨bs', hbs, h⟩ := bind_eq_ok.1 h
        cases h
        rw [List.filterMap_cons_some hg]
        exact .cons hc (hrest hbs)

end ApiContract
