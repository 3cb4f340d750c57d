import ApiContract.Proofs.Inline.Chain
import ApiContract.Proofs.Inline.Closed

/-!
# Cycles of foreign references

`cycles_inlineReferences`: inlining a description ends, whatever the references among the documents are;
it succeeds only if no chain of foreign references from a position of the description meets a target
twice, and it stops with a cycle only if one does.

`consults_document` is the step to the description as a whole: what is done to its table of schemas and
its paths asks for the references that are met there.
-/

namespace ApiContract.Inline

open Tree Walk

variable {α : Type} {met met' : Kind → String → Prop} {pre fail fail' : State → Prop}
  {m n : Answers → Run (α × Except Failure Unit)} {table : Option Tree} {root : Place} {library : Library}

/-! ## Steps that read and change the table -/

/-- Steps that do the same in the states before them consult the same. -/
theorem Consults.of_run {post : α → State → Prop} (h : Consults met pre post fail m)
    (hrun : ∀ f s, pre s → n f s = m f s) : Consults met pre post fail n where
  congr hf hs heq := by
    rw [hrun _ _ hs, hrun _ _ hs]
    exact h.congr hf hs heq
  ok hf hs hn := h.ok hf hs ((hrun _ _ hs).symm.trans hn)
  error hf hs hn := h.error hf hs ((hrun _ _ hs).symm.trans hn)

/-- A step of a walk, whatever the table is. -/
theorem consults_of_asks (h : ∀ table, Asks table met m) :
    Consults met (fun s => s.records = []) (fun _ _ => True) (fun _ => True) m where
  congr hf hs := (h _).congr hf ⟨hs, rfl⟩
  ok hf hs hrun := ⟨trivial, ((h _).ok hf ⟨hs, rfl⟩ hrun).2⟩
  error hf hs hrun := ⟨trivial, ((h _).error hf ⟨hs, rfl⟩ hrun).2⟩

/-- A step, and then, however it ends, one that changes the state alone. -/
theorem Consults.touch {mid post : α → State → Prop} (h : Consults met pre mid fail m) (g : α → Run PUnit)
    (hpost : ∀ {a s u s'}, mid a s → g a s = (u, s') → post a s')
    (hfail : ∀ {a s u s'}, fail s → g a s = (u, s') → fail' s') :
    Consults met pre post fail' fun f => (do
      let (a, e) ← m f
      g a
      pure (a, e)) where
  congr {f f' s} hf hs heq := by
    show (m f >>= _) s = (m f' >>= _) s
    rcases hrun : m f s with ⟨⟨a, e⟩, s'⟩
    rw [bind_of_run hrun, bind_of_run (h.congr hf hs heq ▸ hrun)]
  ok hf hs hrun := by
    obtain ⟨⟨a, e⟩, s₁, h₁, hrest⟩ := bind_run.1 hrun
    obtain ⟨_, s₂, h₂, h₃⟩ := bind_run.1 hrest
    obtain ⟨heq, rfl⟩ := pure_run.1 h₃
    cases heq
    obtain ⟨hmid, hall⟩ := h.ok hf hs h₁
    exact ⟨hpost hmid h₂, hall⟩
  error hf hs hrun := by
    obtain ⟨⟨a, e⟩, s₁, h₁, hrest⟩ := bind_run.1 hrun
    obtain ⟨_, s₂, h₂, h₃⟩ := bind_run.1 hrest
    obtain ⟨heq, rfl⟩ := pure_run.1 h₃
    cases heq
    obtain ⟨hfailed, hcycle⟩ := h.error hf hs h₁
    exact ⟨hfail hfailed h₂, hcycle⟩

/-! ## The table of schemas -/

/-- Puts an inlined schema into the table. -/
def putSchema (key : Scalar) (t : Tree) : Run Unit := do
  match ← presentTable with
  | some (.map a entries) => setTable (.map a (Entries.put key t entries))
  | _ => pure ()

theorem putSchema_run {key : Scalar} {t : Tree} {es : Entries} {s s' : State} {u : Unit}
    (hs : At (some (.map none es)) s) (h : putSchema key t s = (u, s')) :
    At (some (.map none (es.put key t))) s' := by
  rw [putSchema, bind_of_run (presentTable_run hs.1), hs.2] at h
  cases setTable_run h
  exact ⟨hs.1, rfl⟩

/-- Inlining a schema of the table, and then the others. -/
theorem schemasFrom_cons (v : Visitor Run) (bound : Nat) (key : Scalar) (keys : List Scalar)
    {es : Entries} {s : State} (hs : At (some (.map none es)) s) :
    schemasFrom v bound (key :: keys) s = (match es.at? key with
      | none => schemasFrom v bound keys
      | some t => do
        let (t, r) ← slot v .schema t (walk v bound t)
        putSchema key t
        match r with
        | .error f => pure (.error f)
        | .ok _ => schemasFrom v bound keys) s := by
  rw [schemasFrom, bind_of_run (presentTable_run hs.1), hs.2]
  show (match es.at? key with
      | none => schemasFrom v bound keys
      | some t => _) s = _
  cases es.at? key with
  | none => rfl
  | some t =>
    simp only [putSchema, bind_assoc]
    refine congrArg (fun next => (slot v .schema t (walk v bound t) >>= next) s) (funext fun x => ?_)
    refine congrArg (presentTable >>= ·) (funext fun found => ?_)
    cases found with
    | none => rfl
    | some u => cases u <;> rfl

/-- Inlining the schemas under some keys asks for what is met there. -/
theorem consults_schemasFrom {es : Entries} (hp : Plain (.map none es)) (a : α) :
    ∀ {keys : List Scalar} {es₁ : Entries}, keys.Nodup → (∀ k ∈ keys, es₁.at? k = es.at? k) →
      Consults (fun kind r => ∃ k ∈ keys, ∃ x, es.at? k = some x ∧ Met (.visited .schema) x kind r)
        (At (some (.map none es₁))) (fun _ s => s.records = []) (fun _ => True) fun f => (do
          let r ← schemasFrom (visitor f.answer) f.bound keys
          pure (a, r))
  | [], es₁, _, _ => consults_pure (by simp) fun s hs => hs.1
  | key :: keys, es₁, hn, hsame => by
    obtain ⟨hnot, hn⟩ := List.nodup_cons.1 hn
    obtain ⟨hkey, hrest⟩ := List.forall_mem_cons.1 hsame
    have hrun : ∀ (f : Answers) s, At (some (.map none es₁)) s → _ := fun f s hs =>
      hkey ▸ schemasFrom_cons (visitor f.answer) f.bound key keys hs
    cases hx : es.at? key with
    | none =>
      simp only [hx] at hrun
      refine ((consults_schemasFrom hp a hn hrest).congr_met fun kind r => ?_).of_run fun f s hs => ?_
      · simp [hx]
      · show (schemasFrom _ _ _ >>= _) s = (schemasFrom _ _ _ >>= _) s
        simp only [bind, StateT.bind, hrun f s hs]
    | some t =>
      simp only [hx] at hrun
      have ht := ((plain_map.1 hp).2.2 _ (Entries.mem_of_at? hx)).2
      have hput : Consults (Met (.visited .schema) t) (At (some (.map none es₁)))
          (fun t' => At (some (.map none (es₁.put key t')))) (fun _ => True) fun f => (do
            let (t', e) ← slot (visitor f.answer) .schema t (walk (visitor f.answer) f.bound t)
            putSchema key t'
            pure (t', e)) :=
        (asks_slot (fun f => walk (visitor f.answer) f.bound t) fun hr => asks_walk ht .schema hr).touch
          (putSchema key) putSchema_run fun _ _ => trivial
      have hrest' : ∀ t', ∀ k ∈ keys, (es₁.put key t').at? k = es.at? k := by
        intro t' k hk
        rw [Entries.at?_put_ne (by rintro rfl; exact hnot hk)]
        exact hrest k hk
      have hnext := fun t' => consults_schemasFrom hp a hn (hrest' t')
      refine ((hput.andThen (fun _ => a) hnext).congr_met fun kind r => ?_).of_run fun f s hs => ?_
      · simp [hx]
      · rcases hslot : slot (visitor f.answer) .schema t (walk (visitor f.answer) f.bound t) s with
          ⟨⟨t', e⟩, s₁⟩
        rcases hstate : putSchema key t' s₁ with ⟨u, s₂⟩
        have hrun' := (hrun f s hs).trans ((bind_of_run hslot).trans (bind_of_run hstate))
        have hstep : (do
            let (t', e) ← slot (visitor f.answer) .schema t (walk (visitor f.answer) f.bound t)
            putSchema key t'
            pure (t', e) : Run _) s = ((t', e), s₂) :=
          bind_run.2 ⟨_, _, hslot, bind_run.2 ⟨_, _, hstate, rfl⟩⟩
        refine Eq.trans ?_ (bind_of_run hstep).symm
        show (schemasFrom _ _ _ >>= _) s = _
        simp only [bind, StateT.bind, hrun']
        cases e <;> rfl

/-- Inlining the table of schemas asks for what is met there. -/
theorem consults_schemas (hp : ∀ u, table = some u → Plain u) (t : Tree) :
    Consults (fun kind r => ∃ u, table = some u ∧ Met .table u kind r) (At table)
      (fun _ s => s.records = []) (fun _ => True) fun f => schemas (visitor f.answer) f.bound t := by
  by_cases h : ∃ es, table = some (.map none es)
  · obtain ⟨es, rfl⟩ := h
    have hd := (plain_map.1 (hp _ rfl)).2.1.nodup
    refine ((consults_schemasFrom (hp _ rfl) t hd fun _ _ => rfl).congr_met
      fun kind r => ?_).of_run fun f s hs => ?_
    · have hr : Spot.table.refers (.map none es) = none := rfl
      simp only [Option.some.injEq, exists_eq_left', met_map hr]
      constructor
      · rintro ⟨k, x, hx, hm⟩
        exact ⟨k, List.mem_map_of_mem (Entries.mem_of_at? hx), x, hx, hm⟩
      · rintro ⟨k, -, x, hx, hm⟩
        exact ⟨k, x, hx, hm⟩
    · rw [schemas, bind_of_run (presentTable_run hs.1), hs.2]
  · refine (consults_pure (a := t) (fun kind r => ?_) fun s hs => hs.1).of_run fun f s hs => ?_
    · rintro ⟨u, rfl, hm⟩
      cases u with
      | map b es =>
        obtain ⟨rfl, -⟩ := plain_map.1 (hp _ rfl)
        exact h ⟨es, rfl⟩
      | _ => exact not_met_of_not_map rfl rfl rfl hm
    · rw [schemas, bind_of_run (presentTable_run hs.1), hs.2]
      split
      · obtain ⟨rfl, -⟩ := plain_map.1 (hp _ rfl)
        exact absurd ⟨_, rfl⟩ h
      · rfl

/-! ## The description -/

theorem edit_andThen_eq (e f : Edit Run) (t : Tree) : Edit.andThen e f t = Inline.andThen (e t) id f :=
  congrArg (e t >>= ·) (funext fun ⟨_, r⟩ => by cases r <;> rfl)

/-- What is met in the components: what the walk meets, and what is met in the table of schemas. -/
theorem met_components {a : Anchor} {es : Entries} {kind : Kind} {r : String} :
    Met .components (.map a es) kind r ↔ Met (.visited .components) (.map a es) kind r ∨
      ∃ u, es.at? (.text "schemas") = some u ∧ Met .table u kind r := by
  rw [met_map rfl, met_map rfl]
  constructor
  · rintro ⟨k, x, hx, hm⟩
    simp only [Spot.part] at hm
    split at hm
    · subst k
      exact .inr ⟨x, hx, hm⟩
    · exact .inl ⟨k, x, hx, hm⟩
  · rintro (⟨k, x, hx, hm⟩ | ⟨u, hu, hm⟩)
    · refine ⟨k, x, hx, ?_⟩
      simp only [Spot.part]
      split
      · subst k
        exact absurd hm (not_met_inert x)
      · exact hm
    · exact ⟨_, u, hu, hm⟩

/-- Inlining the components asks for what is met there. -/
theorem consults_components {t : Tree} (hp : Plain t) :
    Consults (Met .components t) (At (t.get? "schemas")) (fun _ s => s.records = []) (fun _ => True)
      fun f => Edit.whenMap (Edit.andThen (fun t => walk (visitor f.answer) f.bound t .components)
        (schemas (visitor f.answer) f.bound)) t := by
  cases t with
  | map a es =>
    have hrun : ∀ f : Answers, Edit.whenMap (Edit.andThen
        (fun t => walk (visitor f.answer) f.bound t .components)
        (schemas (visitor f.answer) f.bound)) (.map a es) =
          Inline.andThen (walk (visitor f.answer) f.bound (.map a es) .components) id
            (schemas (visitor f.answer) f.bound) :=
      fun f => edit_andThen_eq (fun t => walk (visitor f.answer) f.bound t .components) _ _
    rw [funext hrun]
    have htable : ∀ u, Tree.get? (.map a es) "schemas" = some u → Plain u :=
      fun u hu => hp.down (l := ["schemas"]) (by simp [Tree.down?, hu])
    have hwalk : Consults (Met (.visited .components) (.map a es)) (At (Tree.get? (.map a es) "schemas"))
        (fun _ => At (Tree.get? (.map a es) "schemas")) (fun _ => True) fun f =>
          walk (visitor f.answer) f.bound (.map a es) .components :=
      (asks_walk hp .components rfl).imp (fun _ _ => .rfl) (fun _ h => h) (fun _ _ h => h)
        fun _ _ => trivial
    exact (hwalk.andThen id (consults_schemas htable)).congr_met fun _ _ => met_components
  | _ => exact consults_pure (fun kind r => not_met_of_not_map rfl rfl rfl) fun s hs => hs.1

/-- Inlining the paths asks for what is met there. -/
theorem asks_paths {a : Anchor} {es : Entries}
    (hp : ∀ x, es.at? (.text "paths") = some x → Plain x) :
    Asks table (fun kind r => ∃ x, es.at? (.text "paths") = some x ∧
        Met (.visited (.mapOf .pathItem)) x kind r) fun f =>
      Edit.value "paths" (Edit.whenMap fun t => walk (visitor f.answer) f.bound t (.mapOf .pathItem))
        (.map a es) := by
  refine (consults_value (fun x hx => ⟨(hp x hx).anchor_eq, ?_⟩) fun _ _ h => h).asks fun _ _ h => h.1
  cases hx' : x with
  | map a es => exact asks_walk (hx' ▸ hp x hx) (.mapOf .pathItem) rfl
  | _ => exact consults_pure (fun kind r => not_met_of_not_map rfl rfl rfl) fun _ h => h

/-- What is met in a description. -/
theorem met_document {a : Anchor} {es : Entries} {kind : Kind} {r : String} :
    Met .document (.map a es) kind r ↔
      (∃ x, es.at? (.text "components") = some x ∧ Met .components x kind r) ∨
        ∃ x, es.at? (.text "paths") = some x ∧ Met (.visited (.mapOf .pathItem)) x kind r := by
  rw [met_map rfl]
  constructor
  · rintro ⟨k, x, hx, hm⟩
    simp only [Spot.part] at hm
    split at hm
    · subst k
      exact .inl ⟨x, hx, hm⟩
    split at hm
    · subst k
      exact .inr ⟨x, hx, hm⟩
    · exact absurd hm (not_met_inert x)
  · rintro (⟨x, hx, hm⟩ | ⟨x, hx, hm⟩)
    · exact ⟨_, x, hx, hm⟩
    · exact ⟨_, x, hx, hm⟩

/-- Inlining a description in place asks for what is met in it. -/
theorem consults_document {t : Tree} (hp : Plain t) :
    Consults (Met .document t) (At ((t.get? "components").bind (Tree.get? · "schemas")))
      (fun _ _ => True) (fun _ => True) fun f => document (visitor f.answer) f.bound t := by
  cases t with
  | map a es =>
    obtain ⟨rfl, -, hpl⟩ := plain_map.1 hp
    have hplain : ∀ {k x}, Entries.at? k es = some x → Plain x := fun hx =>
      (hpl _ (Entries.mem_of_at? hx)).2
    have hcomponents : Consults (fun kind r => ∃ x, Entries.at? (.text "components") es = some x ∧
        Met .components x kind r)
        (At ((Entries.at? (.text "components") es).bind (Tree.get? · "schemas")))
        (fun u s => s.records = [] ∧ ∃ es', u = .map none es' ∧
          ∀ k, k ≠ .text "components" → Entries.at? k es' = Entries.at? k es) (fun _ => True)
        fun f => Edit.value "components" (Edit.whenMap (Edit.andThen
          (fun t => walk (visitor f.answer) f.bound t .components)
          (schemas (visitor f.answer) f.bound))) (.map none es) := by
      refine consults_value (fun x hx => ⟨(hplain hx).anchor_eq, ?_⟩) fun _ s hs => hs.1
      rw [hx]
      exact consults_components (hplain hx)
    -- The components have changed, the paths have not.
    have hpaths : ∀ u, Consults (fun kind r => ∃ x, Entries.at? (.text "paths") es = some x ∧
        Met (.visited (.mapOf .pathItem)) x kind r)
        (fun s => s.records = [] ∧ ∃ es', u = .map none es' ∧
          ∀ k, k ≠ .text "components" → Entries.at? k es' = Entries.at? k es) (fun _ _ => True)
        (fun _ => True) fun f => Edit.value "paths" (Edit.whenMap fun t =>
          walk (visitor f.answer) f.bound t (.mapOf .pathItem)) u := by
      intro u
      refine Consults.of_pre (fun s hs => hs.2) fun ⟨es', hu, hsame⟩ => ?_
      have hat := hsame (.text "paths") (by decide)
      rw [hu, ← hat]
      exact (consults_of_asks fun table => asks_paths fun x hx => hplain (hat ▸ hx)).imp
        (fun _ _ => .rfl) (fun _ hs => hs.1) (fun _ _ h => h) fun _ h => h
    have hrun : ∀ f : Answers, document (visitor f.answer) f.bound (.map none es) = Inline.andThen
        (Edit.value "components" (Edit.whenMap (Edit.andThen
          (fun t => walk (visitor f.answer) f.bound t .components)
          (schemas (visitor f.answer) f.bound))) (.map none es)) id
        (Edit.value "paths" (Edit.whenMap fun t =>
          walk (visitor f.answer) f.bound t (.mapOf .pathItem))) := fun f => edit_andThen_eq _ _ _
    rw [funext hrun]
    exact (hcomponents.andThen id hpaths).congr_met fun _ _ => met_document
  | _ => exact consults_pure (fun kind r => not_met_of_not_map rfl rfl rfl) fun _ _ => trivial

/-! ## Inlining -/

variable {t : Tree}

/-- Inlining depends on what is done to the description from the first state on. -/
theorem inlineWith_congr {edit edit' : Setting → Edit Run}
    (h : edit (setting library root t) t (start t) = edit' (setting library root t) t (start t)) :
    inlineWith edit library root t = inlineWith edit' library root t := by
  simp only [inlineWith_eq, bind, StateT.bind, h]

theorem withSchemas_ne_cycle {u : Option Tree} {added : List (String × Tree)}
    {chain : List (String × String)} : withSchemas u added t ≠ .error (.inliningCycle chain) := by
  intro h
  unfold withSchemas at h
  repeat' split at h
  all_goals cases h

theorem eq_inliningCycle {f : Failure} (h : f.family? = some .cyclicReference) :
    ∃ chain, f = .inliningCycle chain := by
  cases f with
  | inliningCycle chain => exact ⟨chain, rfl⟩
  | _ => cases h

/-- A cycle is found while the description is gone through. -/
theorem inlineReferences_cycle {chain : List (String × String)}
    (h : inlineReferences library root t = .error (.inliningCycle chain)) :
    ∃ t' s', document (visitor (follow (setting library root t) [] root))
      (setting library root t).sharedDepth t (start t) =
        ((t', .error (.inliningCycle chain)), s') := by
  rcases hrun : document (visitor (follow (setting library root t) [] root))
    (setting library root t).sharedDepth t (start t) with ⟨⟨t', r⟩, s'⟩
  rcases htable : presentTable s' with ⟨table, s''⟩
  rw [inlineReferences, inlineWith_eq, show (setting library root t).root = root from rfl,
    bind_of_run hrun, bind_of_run htable] at h
  cases r with
  | error e =>
    cases h
    exact ⟨t', s', rfl⟩
  | ok =>
    have h : (withSchemas table s''.added t' >>= fun u => pure (u.settle (((u.getD "components").getD
        "schemas").recordIn ((u.getD "components").recordIn s''.records)))) =
          .error (.inliningCycle chain) := h
    cases hu : withSchemas table s''.added t' with
    | error e =>
      rw [hu] at h
      cases h
      exact absurd hu withSchemas_ne_cycle
    | ok u =>
      rw [hu] at h
      cases h

/-- Inlining ends, and it finds exactly the cycles among foreign references, where no document shares nodes.

* Deeper than the number of targets that there are, no target lies within others, so that it does not matter
  what is answered there.
* If it succeeds, no chain of foreign references from the description meets a target twice.
* If it stops with a cyclic reference, that is such a chain that meets a target twice, and the failure names
  its targets. -/
theorem cycles_inlineReferences (hdocs : ∀ p d, library.get p = .ok d → Plain d) (hp : Plain t)
    (hread : ∀ e ∈ library, ∀ f, e.2 = .error f → f.family? ≠ some .cyclicReference) :
    (∀ bound cut depth, (candidates (library.add root t)).length < depth →
      inlineWith (fun s => document
        (visitor (followWithin s.library s.root bound cut depth [] s.root)) bound) library root t =
          inlineReferences library root t) ∧
    (∀ out, inlineReferences library root t = .ok out →
      ∀ markers, Chain (library.add root t) root root .document t markers → markers.Nodup) ∧
    ∀ f, inlineReferences library root t = .error f → f.family? = some .cyclicReference →
      ∃ markers, Chain (library.add root t) root root .document t markers ∧ ¬ markers.Nodup ∧
        f = .inliningCycle (chainOf markers) := by
  have hget : ∀ p d, (setting library root t).library.get p = .ok d → Plain d := plain_add hdocs hp
  have hconsults := consults_document hp
  have hkeeps := keeps_answers hget [] root
  have hstart : At ((t.get? "components").bind (Tree.get? · "schemas")) (start t) := ⟨rfl, rfl⟩
  refine ⟨fun bound cut depth hdepth => ?_, fun out h markers hc => ?_, fun f h hf => ?_⟩
  · refine inlineWith_congr (hconsults.congr hkeeps hstart
      (g := .mk bound (followWithin (library.add root t) root bound cut depth [] root))
      fun kind r hmet s hs => ?_).symm
    refine (followWithin_eq hget rfl bound cut (Nat.lt_of_le_of_lt List.countP_le_length hdepth)
      ?_ (mem_texts_of_met hmet) hs).symm
    show (library.add root t).get root = .ok t
    rw [get_add, if_pos rfl]
  · obtain ⟨t', s', _, _, _, hrun, -⟩ := inlineReferences_run h
    exact nodup_of_answered hget hc List.nodup_nil (hconsults.ok hkeeps hstart hrun).2
  · obtain ⟨chain, rfl⟩ := eq_inliningCycle hf
    obtain ⟨t', s', hrun⟩ := inlineReferences_cycle h
    obtain ⟨kind, r, hmet, hcyclic⟩ := (hconsults.error hkeeps hstart hrun).2 chain rfl
    have hfind : Findable (setting library root t).library := by
      refine findable fun e he chain hchain => ?_
      rcases List.mem_cons.1 he with rfl | he
      · cases hchain
      · exact hread e he _ hchain rfl
    obtain ⟨markers, hc, hn, hchain⟩ := chain_of_cyclic hget hfind hmet hcyclic
    exact ⟨markers, hc, hn, congrArg Failure.inliningCycle hchain⟩

/-! ## Two schemas that refer to each other, and a schema that is shared -/

/-- A description with a schema of another document. -/
def sampleForeign : Tree :=
  Tree.object [("components", Tree.object [("schemas", Tree.object [
    ("R", Reference.asTree "bar.yaml#/T")])])]

/-- A document with two schemas that refer to each other. -/
def sampleMutual : Library :=
  [(⟨true, ["bar.yaml"]⟩, .ok (Tree.object [
    ("T", Tree.object [("items", Reference.asTree "#/B")]),
    ("B", Tree.object [("items", Reference.asTree "bar.yaml#/T")])]))]

theorem cycles_sampleMutual :
    (∀ p d, sampleMutual.get p = .ok d → Plain d) ∧ Plain sampleForeign ∧
      (∀ e ∈ sampleMutual, ∀ f, e.2 = .error f → f.family? ≠ some .cyclicReference) ∧
      inlineReferences sampleMutual samplePlace sampleForeign =
        .error (.inliningCycle [("bar.yaml", "T"), ("bar.yaml", "B"), ("bar.yaml", "T")]) ∧
      ∃ markers, Chain (sampleMutual.add samplePlace sampleForeign) samplePlace samplePlace .document
          sampleForeign markers ∧ ¬ markers.Nodup ∧
        Failure.inliningCycle [("bar.yaml", "T"), ("bar.yaml", "B"), ("bar.yaml", "T")] =
          .inliningCycle (chainOf markers) := by
  have hdocs : ∀ p d, sampleMutual.get p = .ok d → Plain d :=
    plain_get (by simp [sampleMutual])
  have hp : Plain sampleForeign := by simp [sampleForeign]
  have hread : ∀ e ∈ sampleMutual, ∀ f, e.2 = .error f → f.family? ≠ some .cyclicReference := by
    simp [sampleMutual]
  have hrun : inlineReferences sampleMutual samplePlace sampleForeign =
      .error (.inliningCycle [("bar.yaml", "T"), ("bar.yaml", "B"), ("bar.yaml", "T")]) := by
    decide +kernel
  exact ⟨hdocs, hp, hread, hrun, (cycles_inlineReferences hdocs hp hread).2.2 _ hrun rfl⟩

/-- A document with a schema that two places share, and with schemas of one name in two places. -/
def sampleShared : Library :=
  let node := Tree.map (some 0) [(.text "items", Reference.asTree "#/B")]
  [(⟨true, ["bar.yaml"]⟩, .ok (Tree.object [
    ("T", Tree.object [("properties", Tree.object [("p", node), ("q", node)])]),
    ("B", Tree.object [("type", .text "string")]),
    ("components", Tree.object [("schemas", Tree.object [
      ("B", Tree.object [("items", Reference.asTree "#/T")])])])]))]

theorem met_object {spot : Spot} {fields : List (String × Tree)} {kind : Kind} {r : String}
    (h : spot.refers (Tree.object fields) = none) (hn : (fields.map (·.1)).Nodup) :
    Met spot (Tree.object fields) kind r ↔ ∃ f ∈ fields, Met (spot.part (.text f.1)) f.2 kind r := by
  have hkeys : ((fields.map fun f => ((.text f.1 : Scalar), f.2)).map (·.1)).Nodup := by
    rw [List.map_map]
    exact (List.map_map (f := Prod.fst) (g := Scalar.text) (l := fields)) ▸
      hn.map fun _ _ => Scalar.text.inj
  rw [Tree.object, met_map h, exists_at?_iff hkeys]
  constructor
  · rintro ⟨_, he, hm⟩
    obtain ⟨f, hf, rfl⟩ := List.mem_map.1 he
    exact ⟨f, hf, hm⟩
  · rintro ⟨f, hf, hm⟩
    exact ⟨_, List.mem_map_of_mem hf, hm⟩

/-- What is met in a map with one entry. -/
theorem met_single {spot : Spot} {key : String} {t : Tree} {kind : Kind} {r : String}
    (h : spot.refers (Tree.object [(key, t)]) = none) :
    Met spot (Tree.object [(key, t)]) kind r ↔ Met (spot.part (.text key)) t kind r := by
  rw [met_object h (List.nodup_singleton _)]
  simp

/-- What a reference has been resolved to, computed. -/
theorem eq_of_resolve {doc : Place} {r : String} {res : Library.Resolved} {x : Place × String × Tree}
    (hres : library.resolve doc r = .ok res)
    (h : (library.resolve doc r).map (fun res => (res.path, res.pointer, res.target.tree)) = .ok x) :
    res.path = x.1 ∧ res.pointer = x.2.1 ∧ res.target.tree = x.2.2 := by
  rw [hres] at h
  cases h
  exact ⟨rfl, rfl, rfl⟩

/-- The schema is inlined at its first place, and the reference to what has become of it is read from the
wrong document at its second one. -/
theorem cycle_sampleShared :
    inlineReferences sampleShared samplePlace sampleForeign = .error (.inliningCycle
        [("bar.yaml", "T"), ("bar.yaml", "components/schemas/B"), ("bar.yaml", "T")]) ∧
      ∀ markers, Chain (sampleShared.add samplePlace sampleForeign) samplePlace samplePlace .document
        sampleForeign markers → markers.Nodup := by
  refine ⟨by decide +kernel, fun markers hc => ?_⟩
  cases hc with
  | nil => exact List.nodup_nil
  | @cons _ _ _ kind r res _ hm hres _ hc =>
    rw [sampleForeign, met_single rfl, met_single rfl, met_single rfl] at hm
    obtain ⟨rfl, rfl⟩ := (met_of_refers rfl).1 hm
    obtain ⟨hpath, hpointer, htree⟩ := eq_of_resolve (x := (⟨true, ["bar.yaml"]⟩, "T",
      Tree.object [("properties", Tree.object [
        ("p", .map (some 0) [(.text "items", Reference.asTree "#/B")]),
        ("q", .map (some 0) [(.text "items", Reference.asTree "#/B")])])])) hres (by decide +kernel)
    rw [hpath, htree] at hc
    rw [hpath, hpointer]
    cases hc with
    | nil => exact List.nodup_singleton _
    | @cons _ _ _ kind r res _ hm hres _ hc =>
      rw [met_single rfl, met_object rfl (by decide)] at hm
      have hB : kind = .schema ∧ r = "#/B" := by
        obtain ⟨f, hf, hm⟩ := hm
        rcases List.mem_pair.1 hf with rfl | rfl
        all_goals
          rw [met_map rfl] at hm
          obtain ⟨k, x, hx, hm⟩ := hm
          cases List.mem_singleton.1 (Entries.mem_of_at? hx)
          exact (met_of_refers rfl).1 hm
      obtain ⟨rfl, rfl⟩ := hB
      obtain ⟨hpath, hpointer, htree⟩ := eq_of_resolve (x := (⟨true, ["bar.yaml"]⟩, "B",
        Tree.object [("type", .text "string")])) hres (by decide +kernel)
      rw [hpath, htree] at hc
      rw [hpath, hpointer]
      cases hc with
      | nil => decide
      | cons hm =>
        rw [met_single rfl] at hm
        exact absurd hm (not_met_inert _)

end ApiContract.Inline
