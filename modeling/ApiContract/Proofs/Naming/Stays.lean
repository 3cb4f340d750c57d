import ApiContract.Proofs.Naming.State

/-!
# Edits that leave a description as it is

`Stays e t`: where naming is done with the table of schemas (`Calm`), the edit `e` leaves the tree `t` as it is,
and the state too but for what is reported. For each way of putting edits together one lemma says when the
result leaves a tree as it is.
-/

namespace ApiContract.Naming

open Tree Edit

/-- Naming is done with every entry of the table. -/
structure Calm (s : State) : Prop extends Valid s where
  settled : Settled (fun _ => False) s

/-- An edit changes nothing in a tree. -/
def Stays (e : Edit Run) (t : Tree) : Prop :=
  ∀ s, Calm s → ∃ notices, e t s = ((t, .ok ()), { s with notices := notices })

variable {s : State} {e f : Edit Run} {t : Tree} {es : Entries}

/-- What has been reported is of no account. -/
theorem Calm.report (h : Calm s) (notices : List Notice) : Calm { s with notices := notices } :=
  ⟨⟨h.records, h.plain, h.given⟩, h.settled⟩

/-! ## Edits -/

theorem stays_skip (t : Tree) : Stays skip t := fun s _ => ⟨s.notices, rfl⟩

theorem Stays.andThen (he : Stays e t) (hf : Stays f t) : Stays (andThen e f) t := by
  intro s hs
  obtain ⟨notices, he⟩ := he s hs
  obtain ⟨notices', hf⟩ := hf _ (hs.report notices)
  exact ⟨notices', (bind_of_run he).trans hf⟩

theorem stays_whenMap (h : t.isMap = true → Stays e t) : Stays (whenMap e) t := by
  cases hm : t.isMap with
  | true =>
    intro s hs
    obtain ⟨notices, he⟩ := h hm s hs
    exact ⟨notices, (congrArg (fun m : Run (Edited Unit) => m s) (if_pos hm)).trans he⟩
  | false =>
    intro s _
    exact ⟨s.notices, congrArg (fun m : Run (Edited Unit) => m s) (if_neg (by simp [hm]))⟩

theorem valueIn_stays {key : Scalar} : ∀ {es : Entries}, (∀ p ∈ es, Plain p.2) →
    (∀ x, es.at? key = some x → Stays e x) → ∀ s, Calm s →
      ∃ notices, valueIn key e es s = ((es, .ok ()), { s with notices := notices })
  | [], _, _, s, _ => ⟨s.notices, rfl⟩
  | (k, t) :: es, hp, h, s, hs => by
    obtain ⟨ht, hes⟩ := List.forall_mem_cons.1 hp
    by_cases hk : k = key
    · obtain ⟨notices, he⟩ := h t (by rw [Entries.at?_cons, if_pos hk]) s hs
      exact ⟨notices, by rw [valueIn, if_pos hk, shared_of_anchor ht.anchor_eq]; exact bind_of_run he⟩
    · have hrest : ∀ x, Entries.at? key es = some x → Stays e x := by
        intro x hx
        exact h x (by rw [Entries.at?_cons, if_neg hk, hx])
      obtain ⟨notices, he⟩ := valueIn_stays hes hrest s hs
      exact ⟨notices, by rw [valueIn, if_neg hk]; exact bind_of_run he⟩

theorem stays_value {key : String} (hp : Plain (.map none es))
    (h : ∀ x, es.at? (.text key) = some x → Stays e x) : Stays (value key e) (.map none es) := by
  intro s hs
  obtain ⟨notices, he⟩ := valueIn_stays (fun p hm => ((plain_map.1 hp).2.2 p hm).2) h s hs
  exact ⟨notices, bind_of_run he⟩

theorem entriesOf_stays {e : Scalar → Edit Run} : ∀ {es : Entries},
    (∀ p ∈ es, Plain p.2 ∧ Stays (e p.1) p.2) → ∀ s, Calm s →
      ∃ notices, entriesOf e es s = ((es, .ok ()), { s with notices := notices })
  | [], _, s, _ => ⟨s.notices, rfl⟩
  | (k, t) :: es, h, s, hs => by
    obtain ⟨⟨ht, he⟩, hes⟩ := List.forall_mem_cons.1 h
    obtain ⟨notices, he⟩ := he s hs
    obtain ⟨notices', hes⟩ := entriesOf_stays hes _ (hs.report notices)
    refine ⟨notices', ?_⟩
    rw [entriesOf, shared_of_anchor ht.anchor_eq, bind_of_run he]
    exact bind_of_run hes

theorem stays_entries {e : Scalar → Edit Run} (hp : Plain (.map none es))
    (h : ∀ p ∈ es, Stays (e p.1) p.2) : Stays (entries e) (.map none es) := by
  intro s hs
  obtain ⟨notices, he⟩ := entriesOf_stays
    (fun p hm => ⟨((plain_map.1 hp).2.2 p hm).2, h p hm⟩) s hs
  exact ⟨notices, bind_of_run he⟩

theorem itemsOf_stays : ∀ {ts : List Tree}, (∀ t ∈ ts, Plain t ∧ Stays e t) → ∀ s, Calm s →
    ∃ notices, itemsOf e ts s = ((ts, .ok ()), { s with notices := notices })
  | [], _, s, _ => ⟨s.notices, rfl⟩
  | t :: ts, h, s, hs => by
    obtain ⟨⟨ht, he⟩, hts⟩ := List.forall_mem_cons.1 h
    obtain ⟨notices, he⟩ := he s hs
    obtain ⟨notices', hts⟩ := itemsOf_stays hts _ (hs.report notices)
    refine ⟨notices', ?_⟩
    rw [itemsOf, shared_of_anchor ht.anchor_eq, bind_of_run he]
    exact bind_of_run hts

theorem stays_items {ts : List Tree} (h : ∀ t ∈ ts, Plain t ∧ Stays e t) :
    Stays (items e) (.list none ts) := by
  intro s hs
  obtain ⟨notices, he⟩ := itemsOf_stays h s hs
  exact ⟨notices, bind_of_run he⟩

/-- Reports leave a tree as it is. -/
theorem stays_report (notice : Option Notice) (h : Stays e t) :
    Stays (fun t => do report notice; e t) t := by
  intro s hs
  obtain ⟨notices, he⟩ := h _ (hs.report (s.notices ++ notice.toList))
  exact ⟨notices, (bind_of_run (a := ⟨⟩) (modify_run.2 rfl)).trans he⟩

/-! ## Schemas -/

theorem visit_of_still {role : Role} {b : Bool} (h : Still role t b) (context : String) (s : State) :
    visit t role context s = ((t, .ok b), s) :=
  bind_of_run (get_run.2 ⟨rfl, rfl⟩) |>.trans (h _ context s)

theorem stays_schemaAt (context : String) (h : Rests t) : Stays (schemaAt context) t :=
  fun s _ => ⟨s.notices, named_rests visit_of_still h s⟩

/-- Nothing becomes of a table that naming is done with. -/
theorem schemasFrom_calm (hs : Calm s) : ∀ keys : List Scalar, schemasFrom keys s = (.ok (), s)
  | [] => rfl
  | key :: keys => by
    have hrest := schemasFrom_calm hs keys
    have htable : (presentTable : Run (Option Tree)) s = (s.table, s) := presentTable_run hs.records
    rw [schemasFrom, bind_of_run htable]
    cases hx : (s.table.bind Tree.entries?).bind (Entries.at? key) with
    | none => exact hrest
    | some x =>
      cases x with
      | map a es =>
        obtain ⟨fs, htab, hxu⟩ := State.has_of_entry? hs.toValid hx
        have hpv := hs.plain _ htab
        have hanchor : (Tree.map a es).anchor = none :=
          ((plain_map.1 hpv).2.2 _ (Entries.mem_of_at? hxu)).2.anchor_eq
        obtain ⟨c, hstill⟩ := (hs.settled key _ hx id).still rfl
        have hset : setTable (.map none fs) s = (⟨⟩, s) := by
          refine modify_run.2 ?_
          rw [recordIn_plain hpv, ← htab]
        have hvisit : (visit (.map a es) .schema (Text.pascal key.display) >>=
            fun p => pure (p.1, p.2.map fun _ => ()) : Run (Edited Unit)) s = ((.map a es, .ok ()), s) :=
          bind_of_run (visit_of_still hstill _ s)
        -- The schema is put back where it was, into a table that is the present one.
        dsimp only
        rw [shared_of_anchor hanchor, bind_of_run hvisit, bind_of_run htable, htab]
        dsimp only
        rw [Entries.put_self hxu, bind_of_run hset]
        exact hrest
      | _ => exact hrest

theorem stays_schemas (t : Tree) : Stays schemas t := by
  intro s hs
  refine ⟨s.notices, ?_⟩
  have htable : (presentTable : Run (Option Tree)) s = (s.table, s) := presentTable_run hs.records
  rw [schemas, bind_of_run htable]
  exact bind_of_run (schemasFrom_calm hs _)

end ApiContract.Naming
