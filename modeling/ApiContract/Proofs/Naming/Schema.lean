import ApiContract.Proofs.Naming.State
import ApiContract.Proofs.Tree.Same

/-!
# Naming a schema

`visits_visit`: a visit of a plain tree makes of it what naming may make of it. The lemmas before it
follow a visit through the parts of a schema: properties, alternatives, the parts of a composition, and
the keywords that lead to them.
-/

namespace ApiContract.Naming

open Tree

variable {held : String → Tree → Prop} {s s' : State} {context : String}

/-! ## Parts in order -/

theorem eachProperty_run :
    ∀ {children : List (Scalar × Tree × Visit)} {es' : Entries} {s s' : State},
      (∀ c ∈ children, Visits c.2.1 c.2.2 ∧ Plain c.2.1) →
      eachProperty context children s = ((es', .ok ()), s') → Valid s →
      Adds s s' ∧ (∀ e ∈ es', (∃ key, e.1 = .text key) ∧ Rests e.2) ∧
        List.Forall₂ (fun c e => e.1 = c.1 ∧ Names s'.Held .inline c.2.1 e.2) children es'
  | [], es', s, s', _, h, _ => by
    obtain ⟨he, rfl⟩ := pure_run.1 h
    cases he
    exact ⟨.refl _, List.forall_mem_nil _, .nil⟩
  | (key, t, visit) :: children, es', s, s', hc, h, hv => by
    obtain ⟨hvisit, hp⟩ := hc _ List.mem_cons_self
    cases key with
    | text key =>
      obtain ⟨⟨t', r⟩, s₁, h₁, h⟩ := bind_run.1 h
      cases r with
      | error f => cases (pure_run.1 h).1
      | ok =>
        obtain ⟨⟨es₁, r⟩, s₂, h₂, h⟩ := bind_run.1 h
        obtain ⟨he, rfl⟩ := pure_run.1 h
        cases he
        obtain ⟨hl, hn, hrests⟩ := named_run hvisit hp h₁ hv
        obtain ⟨hl', hrests', hall⟩ := eachProperty_run (fun c hm => hc c (List.mem_cons_of_mem _ hm)) h₂
          (hl.valid hv)
        exact ⟨hl.trans hl', List.forall_mem_cons.2 ⟨⟨⟨key, rfl⟩, hrests⟩, hrests'⟩,
          .cons ⟨rfl, hn.later hl'.toLater⟩ hall⟩
    | _ => cases (pure_run.1 h).1

theorem eachAlternative_run :
    ∀ {children : List (Tree × Visit)} {ts' : List Tree} {s s' : State},
      (∀ c ∈ children, Visits c.1 c.2 ∧ Plain c.1) →
      eachAlternative context children s = ((ts', .ok ()), s') → Valid s →
      Adds s s' ∧ (∀ t' ∈ ts', Rests t') ∧
        List.Forall₂ (fun c t' => Names s'.Held .inline c.1 t') children ts'
  | [], ts', s, s', _, h, _ => by
    obtain ⟨he, rfl⟩ := pure_run.1 h
    cases he
    exact ⟨.refl _, List.forall_mem_nil _, .nil⟩
  | (t, visit) :: children, ts', s, s', hc, h, hv => by
    obtain ⟨hvisit, hp⟩ := hc _ List.mem_cons_self
    obtain ⟨⟨t', r⟩, s₁, h₁, h⟩ := bind_run.1 h
    cases r with
    | error f => cases (pure_run.1 h).1
    | ok =>
      obtain ⟨⟨ts₁, r⟩, s₂, h₂, h⟩ := bind_run.1 h
      obtain ⟨he, rfl⟩ := pure_run.1 h
      cases he
      obtain ⟨hl, hn, hrests⟩ := named_run hvisit hp h₁ hv
      obtain ⟨hl', hrests', hall⟩ := eachAlternative_run (fun c hm => hc c (List.mem_cons_of_mem _ hm)) h₂
        (hl.valid hv)
      exact ⟨hl.trans hl', List.forall_mem_cons.2 ⟨hrests, hrests'⟩, .cons (hn.later hl'.toLater) hall⟩

/-- Alternatives under numbers: an entry has been gone through, or its number is still to come. -/
theorem eachNumbered_run {children : List (Scalar × Tree × Visit)} {es : Entries}
    (hes : es = children.map fun c => (c.1, c.2.1)) (hd : Distinct es.keys)
    (hc : ∀ c ∈ children, Visits c.2.1 c.2.2 ∧ Plain c.2.1) :
    ∀ {ns : List Nat} {es₁ es' : Entries} {s s' : State}, es₁.keys = es.keys →
      (∀ k x x', es.at? k = some x → es₁.at? k = some x' →
        (∃ n ∈ ns, k.same (.int n) = true) ∨ (Names s.Held .inline x x' ∧ Rests x')) →
      eachNumbered context children ns es₁ s = ((es', .ok ()), s') → Valid s →
      Adds s s' ∧ es'.keys = es.keys ∧
        ∀ k x x', es.at? k = some x → es'.at? k = some x' → Names s'.Held .inline x x' ∧ Rests x'
  | [], es₁, es', s, s', hk, hat, h, _ => by
    obtain ⟨he, rfl⟩ := pure_run.1 h
    cases he
    exact ⟨.refl _, hk, fun k x x' hx hx' => (hat k x x' hx hx').resolve_left (by simp)⟩
  | n :: ns, es₁, es', s, s', hk, hat, h, hv => by
    rw [eachNumbered] at h
    cases hfind : children.find? fun c => c.1.same (.int n) with
    | none =>
      rw [hfind] at h
      cases (pure_run.1 h).1
    | some c =>
      obtain ⟨key, t, visit⟩ := c
      rw [hfind] at h
      have hmem := List.mem_of_find?_eq_some hfind
      have hsame : key.same (.int n) = true := by simpa using List.find?_some hfind
      have hx : (key, t) ∈ es := hes ▸ List.mem_map.2 ⟨_, hmem, rfl⟩
      obtain ⟨hvisit, hp⟩ := hc _ hmem
      obtain ⟨⟨t', r⟩, s₁, h₁, h⟩ := bind_run.1 h
      cases r with
      | error f => cases (pure_run.1 h).1
      | ok =>
        obtain ⟨hl, hn⟩ := named_run hvisit hp h₁ hv
        have hkey : key ∈ es₁.map (·.1) := by
          rw [← Entries.keys, hk]
          exact List.mem_map_of_mem hx
        have hat' : ∀ k x x', es.at? k = some x → Entries.at? k (Entries.put key t' es₁) = some x' →
            (∃ n ∈ ns, k.same (.int n) = true) ∨ (Names s₁.Held .inline x x' ∧ Rests x') := by
          intro k x x' hkx hkx'
          by_cases he : k = key
          · subst he
            rw [Entries.at?_put_self] at hkx'
            cases hkx'
            cases (Entries.at?_of_mem hd.nodup hx).symm.trans hkx
            exact .inr hn
          · rw [Entries.at?_put_ne he] at hkx'
            rcases hat k x x' hkx hkx' with ⟨m, hm, hkm⟩ | ⟨hn', hrests⟩
            · rcases List.mem_cons.1 hm with rfl | hm
              · exact absurd (hd.eq_of_same (List.mem_map_of_mem (Entries.mem_of_at? hkx))
                  (List.mem_map_of_mem hx) hkm hsame) he
              · exact .inl ⟨m, hm, hkm⟩
            · exact .inr ⟨hn'.later hl.toLater, hrests⟩
        obtain ⟨hl', hk', hall⟩ := eachNumbered_run hes hd hc
          ((Entries.keys_put_of_mem t' hkey).trans hk) hat' h (hl.valid hv)
        exact ⟨hl.trans hl', hk', hall⟩

/-- Where alternatives have been gone through under their numbers, each number has a key. -/
theorem exists_key_of_numbered {children : List (Scalar × Tree × Visit)} :
    ∀ {ns : List Nat} {es₁ es' : Entries} {s s' : State},
      eachNumbered context children ns es₁ s = ((es', .ok ()), s') →
        ∀ n ∈ ns, ∃ c ∈ children, c.1.same (.int n) = true
  | [], _, _, _, _, _, n, hn => absurd hn List.not_mem_nil
  | m :: ns, es₁, es', s, s', h, n, hn => by
    rw [eachNumbered] at h
    cases hfind : children.find? fun c => c.1.same (.int m) with
    | none =>
      rw [hfind] at h
      cases (pure_run.1 h).1
    | some c =>
      rw [hfind] at h
      obtain ⟨⟨t', r⟩, s₁, h₁, h⟩ := bind_run.1 h
      cases r with
      | error f => cases (pure_run.1 h).1
      | ok =>
        rcases List.mem_cons.1 hn with rfl | hn
        · exact ⟨c, List.mem_of_find?_eq_some hfind, by simpa using List.find?_some hfind⟩
        · exact exists_key_of_numbered h n hn

/-- As many keys as numbers, one for each number: each key stands for a number. -/
theorem exists_number_of_keys {ks : List Scalar}
    (h : ∀ n ∈ List.range ks.length, ∃ k ∈ ks, k.same (.int n) = true) :
    ∀ k ∈ ks, ∃ n ∈ List.range ks.length, k.same (.int n) = true := by
  have hd : Distinct ((List.range ks.length).map fun n : Nat => Scalar.int n) := by
    rw [Distinct, List.pairwise_map]
    exact List.nodup_range.imp fun hne => by simpa [Scalar.same, Scalar.canonical, Int.ofNat_inj] using hne
  intro k hk
  obtain ⟨_, hn, hsame⟩ := exists_same_of_length_eq hd (by simp) (fun l hl => by
    obtain ⟨n, hn, rfl⟩ := List.mem_map.1 hl
    obtain ⟨k, hk, hsame⟩ := h n hn
    exact ⟨k, hk, by rwa [Scalar.same_comm]⟩) k hk
  obtain ⟨n, hm, rfl⟩ := List.mem_map.1 hn
  exact ⟨n, hm, by rwa [Scalar.same_comm]⟩

theorem eachPart_rest_run {t' : Tree} {children : List (Tree × Visit)} {ts' : List Tree}
    (h : (do
      let (rest, r) ← eachPart context children
      pure (t' :: rest, r) : Run _) s = ((ts', .ok ()), s')) :
    ∃ ts₁, ts' = t' :: ts₁ ∧ eachPart context children s = ((ts₁, .ok ()), s') := by
  obtain ⟨⟨ts₁, r⟩, s₂, h₂, h⟩ := bind_run.1 h
  obtain ⟨he, rfl⟩ := pure_run.1 h
  cases he
  exact ⟨ts₁, rfl, h₂⟩

/-- The first part of a composition stays or is visited, then come the others. -/
theorem eachPart_cons_run {t : Tree} {visit : Visit} {children : List (Tree × Visit)}
    {ts' : List Tree} (h : eachPart context ((t, visit) :: children) s = ((ts', .ok ()), s')) :
    ∃ t' s₁ ts₁, ts' = t' :: ts₁ ∧ eachPart context children s₁ = ((ts₁, .ok ()), s') ∧
      ((Stand.own.skips t = true ∧ t' = t ∧ s₁ = s) ∨
        (Stand.own.skips t = false ∧ ∃ b, visit .schema context s = ((t', .ok b), s₁))) := by
  rw [eachPart] at h
  split at h
  · rename_i hskip
    obtain ⟨⟨t', r⟩, s₁, h₁, h⟩ := bind_run.1 h
    obtain ⟨he, rfl⟩ := pure_run.1 h₁
    cases he
    obtain ⟨ts₁, rfl, hparts⟩ := eachPart_rest_run h
    exact ⟨t, s, ts₁, rfl, hparts, .inl ⟨hskip, rfl, rfl⟩⟩
  · rename_i hskip
    obtain ⟨⟨t', r⟩, s₁, h₁, h⟩ := bind_run.1 h
    cases r with
    | error f => cases (pure_run.1 h).1
    | ok b =>
      obtain ⟨ts₁, rfl, hparts⟩ := eachPart_rest_run h
      exact ⟨t', s₁, ts₁, rfl, hparts, .inr ⟨by simpa [Stand.skips] using hskip, b, h₁⟩⟩

theorem eachPart_run :
    ∀ {children : List (Tree × Visit)} {ts' : List Tree} {s s' : State},
      (∀ c ∈ children, Visits c.1 c.2 ∧ Plain c.1) →
      eachPart context children s = ((ts', .ok ()), s') → Valid s →
      Adds s s' ∧ (∀ t' ∈ ts', RestsAsPart t') ∧
        List.Forall₂ (fun c t' => Names s'.Held .own c.1 t') children ts'
  | [], ts', s, s', _, h, _ => by
    obtain ⟨he, rfl⟩ := pure_run.1 h
    cases he
    exact ⟨.refl _, List.forall_mem_nil _, .nil⟩
  | (t, visit) :: children, ts', s, s', hc, h, hv => by
    obtain ⟨hvisit, hp⟩ := hc _ List.mem_cons_self
    obtain ⟨t', s₁, ts₁, rfl, h, hfirst⟩ := eachPart_cons_run h
    obtain ⟨hl, hn, hrests⟩ : Adds s s₁ ∧ Names s₁.Held .own t t' ∧ RestsAsPart t' := by
      rcases hfirst with ⟨hskip, rfl, rfl⟩ | ⟨hskip, b, h₁⟩
      · exact ⟨.refl _, .same hskip, .inl hskip⟩
      · cases t with
        | map a es =>
          obtain ⟨hl, hmakes, hstill⟩ := hvisit _ _ _ _ _ _ h₁ hp rfl hv
          exact ⟨hl, hmakes.1, .inr ⟨b, hstill⟩⟩
        | _ => cases hskip
    obtain ⟨hl', hrests', hall⟩ := eachPart_run (fun c hm => hc c (List.mem_cons_of_mem _ hm)) h
      (hl.valid hv)
    exact ⟨hl.trans hl', List.forall_mem_cons.2 ⟨hrests, hrests'⟩, .cons (hn.later hl'.toLater) hall⟩

/-! ## Keywords -/

theorem names_of_falsy {st : Stand} {t : Tree} (hst : st = .properties ∨ st = .alternatives ∨ st = .parts)
    (h : t.truthy = false) : Names held st t t := by
  cases t with
  | map a es =>
    cases es with
    | nil =>
      rcases hst with rfl | rfl | rfl
      · exact .map trivial rfl fun _ _ _ hx => by cases hx
      · exact .map trivial rfl fun _ _ _ hx => by cases hx
      · exact .same rfl
    | cons => cases h
  | list a ts =>
    cases ts with
    | nil =>
      rcases hst with rfl | rfl | rfl
      · exact .same rfl
      · exact .list trivial rfl fun _ _ _ hx => by cases hx
      · exact .list trivial rfl fun _ _ _ hx => by cases hx
    | cons => cases h
  | _ => rcases hst with rfl | rfl | rfl <;> exact .same rfl

section

variable {es : Entries} {v : Tree → Visit}

/-- The list under a keyword is gone through in its role. -/
theorem visitList_run {role : Role} {st : Stand} {lenient : Bool} {keyword : String} {es' : Entries}
    (hrole : ((∃ suffix, role = .alternatives suffix) ∧ st = .alternatives ∧ lenient = false) ∨
      (role = .parts ∧ st = .parts ∧ lenient = true))
    (hc : ∀ e ∈ es, Visits e.2 (v e.2) ∧ Plain e.2)
    (h : visitList (es.map fun e => (e.1, e.2, v e.2)) es keyword role context lenient s =
      ((es', .ok ()), s')) (hv : Valid s) :
    Adds s s' ∧ Entries.Replaced (fun x x' => Names s'.Held st x x' ∧ ListRests role lenient x')
      keyword es es' := by
  rw [visitList, childOf_eq] at h
  cases hx : es.at? (.text keyword) with
  | none =>
    rw [hx] at h
    obtain ⟨he, rfl⟩ := pure_run.1 h
    cases he
    exact ⟨.refl _, .of_self fun x hx' => by cases hx.symm.trans hx'⟩
  | some x =>
    obtain ⟨hvisit, hp⟩ := hc _ (Entries.mem_of_at? hx)
    rw [hx] at h
    have hself : ∀ {s : State}, Names s.Held st x x → ListRests role lenient x →
        Entries.Replaced (fun x x' => Names s.Held st x x' ∧ ListRests role lenient x') keyword es es :=
      fun hn hrests => .of_self fun y hy => by cases hx.symm.trans hy; exact ⟨hn, hrests⟩
    simp only [Option.map_some] at h
    split at h
    · rename_i hfalsy
      obtain ⟨he, rfl⟩ := pure_run.1 h
      cases he
      refine ⟨.refl _, hself (names_of_falsy ?_ (by simpa using hfalsy)) fun htruthy => ?_⟩
      · rcases hrole with ⟨-, rfl, -⟩ | ⟨-, rfl, -⟩ <;> simp
      · simp [htruthy] at hfalsy
    · split at h
      · rename_i hlist
        obtain ⟨⟨x', r⟩, s₁, h₁, h⟩ := bind_run.1 h
        obtain ⟨he, rfl⟩ := pure_run.1 h
        cases r with
        | error f => cases he
        | ok b =>
          cases he
          obtain ⟨hl, hn, hstill⟩ : Adds s s₁ ∧ Names s₁.Held st x x' ∧ Still role x' b := by
            rcases hrole with ⟨⟨suffix, rfl⟩, rfl, rfl⟩ | ⟨rfl, rfl, rfl⟩
            · have hshape : x.isMap = true ∨ x.isList = true := by simpa [or_comm] using hlist
              obtain ⟨hl, hmakes, hstill⟩ := hvisit _ _ _ _ _ _ h₁ hp hshape hv
              refine ⟨hl, ?_, hstill⟩
              cases x with
              | map a fs => exact hmakes
              | list a ts => exact hmakes
              | _ => simp [Tree.isList, Tree.isMap, Tree.items?, Tree.entries?] at hlist
            · have hshape : x.isList = true := by simpa using hlist
              obtain ⟨hl, hmakes, hstill⟩ := hvisit _ _ _ _ _ _ h₁ hp hshape hv
              refine ⟨hl, ?_, hstill⟩
              cases x with
              | list a ts => exact hmakes
              | _ => simp [Tree.isList, Tree.items?] at hlist
          refine ⟨hl, .of_set hx ⟨hn, fun _ => ?_⟩⟩
          rw [if_pos (by rw [hn.isList, hn.isMap]; exact hlist)]
          exact ⟨b, hstill⟩
      · rename_i hlist
        obtain ⟨rfl, rfl, hpasses⟩ : es' = es ∧ s' = s ∧ Passes lenient x := by
          cases x with
          | scalar c =>
            cases c <;> first
              | (obtain ⟨he, rfl⟩ := pure_run.1 h; cases he; exact ⟨rfl, rfl, trivial⟩)
              | cases (pure_run.1 h).1
          | _ => cases lenient <;> simp_all [pure_run, Passes]
        refine ⟨.refl _, hself (.same ?_) fun _ => ?_⟩
        · rcases hrole with ⟨-, rfl, rfl⟩ | ⟨-, rfl, rfl⟩ <;> simp_all [Stand.skips]
        · rwa [if_neg hlist]

theorem visitFurther_run (hc : ∀ e ∈ es, Visits e.2 (v e.2) ∧ Plain e.2)
    {es₁ : Entries} (hsame : es₁.at? (.text "additionalProperties") = es.at? (.text "additionalProperties"))
    {t' : Tree} {b : Bool} (h : visitFurther v context es es₁ s = ((t', .ok b), s'))
    (hv : Valid s) :
    Adds s s' ∧
      b = ((es.orNull "properties").truthy || isClosed (es.orNull "additionalProperties")) ∧
      ∃ es₂ : Entries, t' = .map none es₂ ∧
        Entries.Replaced (fun x x' => Names s'.Held .inline x x' ∧ SchemaRests x')
          "additionalProperties" es₁ es₂ := by
  rw [visitFurther] at h
  rw [Entries.orNull, Entries.orNull, Entries.get?_eq_at?, Entries.get?_eq_at?]
  rw [Entries.orNull, Entries.get?_eq_at?] at h
  cases hx : es.at? (.text "additionalProperties") with
  | none =>
    rw [hx] at h hsame
    obtain ⟨he, rfl⟩ := pure_run.1 h
    cases he
    exact ⟨.refl _, rfl, es₁, rfl, .of_self fun x hx' => by cases hsame.symm.trans hx'⟩
  | some x =>
    rw [hx] at h hsame
    cases x with
    | map c fs =>
      obtain ⟨⟨u, r⟩, s₁, h₁, h⟩ := bind_run.1 h
      cases r with
      | error f => cases (pure_run.1 h).1
      | ok =>
        obtain ⟨he, rfl⟩ := pure_run.1 h
        cases he
        obtain ⟨hvisit, hp⟩ := hc _ (Entries.mem_of_at? hx)
        obtain ⟨hl, hn, hrests⟩ := named_run hvisit hp h₁ hv
        exact ⟨hl, by rw [Option.getD_some, isClosed_map, Bool.or_false], _, rfl,
          .of_set hsame ⟨hn, fun _ => hrests⟩⟩
    | _ =>
      obtain ⟨he, rfl⟩ := pure_run.1 h
      cases he
      refine ⟨.refl _, rfl, es₁, rfl, .of_self fun y hy => ?_⟩
      cases hsame.symm.trans hy
      exact ⟨.same rfl, fun hmap => by cases hmap⟩

/-- An object schema: its properties, then the schema of further properties. -/
theorem visitObject_run (hc : ∀ e ∈ es, Visits e.2 (v e.2) ∧ Plain e.2)
    {t' : Tree} {b : Bool}
    (h : visitObject none (es.map fun e => (e.1, e.2, v e.2)) es context s = ((t', .ok b), s'))
    (hv : Valid s) :
    Adds s s' ∧
      b = ((es.orNull "properties").truthy || isClosed (es.orNull "additionalProperties")) ∧
      ∃ es₁ es₂ : Entries, t' = .map none es₂ ∧
        Entries.Replaced (fun x x' => Names s'.Held .properties x x' ∧ PropertiesRest x')
          "properties" es es₁ ∧
        Entries.Replaced (fun x x' => Names s'.Held .inline x x' ∧ SchemaRests x')
          "additionalProperties" es₁ es₂ := by
  obtain ⟨es₁, s₁, hl, hreplaced, h⟩ : ∃ es₁ s₁, Adds s s₁ ∧
      Entries.Replaced (fun x x' => Names s₁.Held .properties x x' ∧ PropertiesRest x')
        "properties" es es₁ ∧
        visitFurther v context es es₁ s₁ = ((t', .ok b), s') := by
    rw [visitObject] at h
    simp only [childOf_eq] at h
    split at h
    · rename_i hfalsy
      rw [Entries.orNull, Entries.get?_eq_at?] at hfalsy
      refine ⟨es, s, .refl _, .of_self fun x hx => ?_, h⟩
      have hx' : x.truthy = false := by simpa [hx] using hfalsy
      exact ⟨names_of_falsy (.inl rfl) hx', fun htruthy => by cases hx'.symm.trans htruthy⟩
    · cases hx : es.at? (.text "properties") with
      | none =>
        rw [hx] at h
        cases (pure_run.1 h).1
      | some x =>
        rw [hx] at h
        cases x with
        | map a fs =>
          obtain ⟨⟨u, r⟩, s₁, h₁, h⟩ := bind_run.1 h
          cases r with
          | error f => cases (pure_run.1 h).1
          | ok c =>
            obtain ⟨hvisit, hp⟩ := hc _ (Entries.mem_of_at? hx)
            obtain ⟨hl, hmakes, hstill⟩ := hvisit _ _ _ _ _ _ h₁ hp rfl hv
            have hn : Names s₁.Held .properties (.map a fs) u := hmakes
            exact ⟨_, s₁, hl, .of_set hx ⟨hn, fun _ => ⟨hn.isMap, c, hstill⟩⟩, h⟩
        | _ => cases (pure_run.1 h).1
  obtain ⟨hl', hb, es₂, ht, hreplaced'⟩ :=
    visitFurther_run hc (hreplaced.others _ (by decide)) h (hl.valid hv)
  exact ⟨hl.trans hl', hb, es₁, es₂, ht,
    hreplaced.mono fun _ _ h => ⟨h.1.later hl'.toLater, h.2⟩, hreplaced'⟩

/-! ## Schemas -/

/-- What a visit has made of a schema, of which nothing becomes any more. -/
def MakesSchema (held : String → Tree → Prop) (t t' : Tree) (b : Bool) : Prop :=
  Makes held .schema t t' b ∧ Still .schema t' b

theorem makes_schema {kind : SchemaKind} {es' : Entries} (hf : Fair es kind)
    (hk : es'.keys = es.keys)
    (hes : ∀ k x x', es.at? k = some x → es'.at? k = some x' →
      Names held (Stand.within kind k) x x') (hrests : PartsRest es' kind) :
    MakesSchema held (.map none es) (.map none es') (needsName es) := by
  have hpart : ∀ {st : Stand}, st = .own ∨ st = .inline → ∀ k x x', es.at? k = some x →
      es'.at? k = some x' → Names held (st.part es k) x x' := by
    intro st hst k
    have hwithin : st.part es k = Stand.within kind k := by
      rcases hst with rfl | rfl <;> simp only [Stand.part, hf.kind]
    exact hwithin ▸ hes k
  have hown := hpart (.inl rfl)
  refine ⟨⟨.map ⟨kind, hf⟩ hk hown, fun _ => ⟨rfl, fun hn =>
    .map ⟨⟨kind, hf⟩, hn⟩ hk (hpart (.inr rfl))⟩⟩, ?_⟩
  have hstill := still_schema ((alike_of_names hf.kind (.inl rfl) hk hown).fair hf) hrests
  rwa [needsName_congr hf.kind (.inl rfl) hk hown] at hstill

/-- A schema of which one part is gone through. -/
theorem makes_replaced {kind : SchemaKind} {key : String} {es' : Entries} {R : Tree → Prop} (hf : Fair es kind)
    (hother : ∀ k, k ≠ .text key → Stand.within kind k = .rest)
    (h : Entries.Replaced (fun x x' => Names held (Stand.within kind (.text key)) x x' ∧ R x') key es es')
    (hrests : (∀ x, es'.at? (.text key) = some x → R x) → PartsRest es' kind) :
    MakesSchema held (.map none es) (.map none es') (needsName es) := by
  refine makes_schema hf h.keys (fun k x x' hx hx' => ?_) (hrests fun x' hx' => ?_)
  · by_cases hk : k = .text key
    · subst hk
      exact (h.value x x' hx hx').1
    · rw [h.others k hk] at hx'
      cases hx.symm.trans hx'
      rw [hother k hk]
      exact .same rfl
  · obtain ⟨x, hx⟩ := Entries.exists_at?_of_keys_eq h.keys.symm hx'
    exact (h.value x x' hx hx').2

/-- A schema without parts. -/
theorem makes_unchanged {kind : SchemaKind} (hf : Fair es kind)
    (hrest : ∀ k, Stand.within kind k = .rest) (hrests : PartsRest es kind) :
    MakesSchema held (.map none es) (.map none es) (needsName es) := by
  refine makes_schema hf rfl (fun k x x' hx hx' => ?_) hrests
  cases hx.symm.trans hx'
  rw [hrest k]
  exact .same rfl

/-- A composition: the list under its keyword. -/
theorem composed_run {role : Role} {st : Stand} {lenient : Bool} {keyword : String}
    {kind : SchemaKind} {t' : Tree} {b : Bool} (hf : Fair es kind) (hneeds : needsName es = true)
    (hrole : ((∃ suffix, role = .alternatives suffix) ∧ st = .alternatives ∧ lenient = false) ∨
      (role = .parts ∧ st = .parts ∧ lenient = true))
    (hwithin : ∀ k, Stand.within kind k = if k = .text keyword then st else .rest)
    (hrests : ∀ es' : Entries, (∀ x, es'.at? (.text keyword) = some x → ListRests role lenient x) →
      PartsRest es' kind)
    (hc : ∀ e ∈ es, Visits e.2 (v e.2) ∧ Plain e.2)
    (h : visitSchema.composed none (es.map fun e => (e.1, e.2, v e.2)) context es keyword role lenient
      s = ((t', .ok b), s')) (hv : Valid s) :
    Adds s s' ∧ MakesSchema s'.Held (.map none es) t' b := by
  obtain ⟨⟨es', r⟩, s₁, h₁, h⟩ := bind_run.1 h
  cases r with
  | error f => cases (pure_run.1 h).1
  | ok =>
    obtain ⟨he, rfl⟩ := pure_run.1 h
    cases he
    have hst : Stand.within kind (.text keyword) = st := by rw [hwithin, if_pos rfl]
    obtain ⟨hl, hreplaced⟩ := visitList_run hrole hc h₁ hv
    have hother : ∀ k, k ≠ .text keyword → Stand.within kind k = .rest :=
      fun k hk => by rw [hwithin, if_neg hk]
    exact ⟨hl, hneeds ▸ makes_replaced hf hother (hst ▸ hreplaced) (hrests es')⟩

/-- A visit of a schema makes of it what naming may make of it. -/
theorem visitSchema_run (hc : ∀ e ∈ es, Visits e.2 (v e.2) ∧ Plain e.2)
    {t' : Tree} {b : Bool}
    (h : visitSchema none (es.map fun e => (e.1, e.2, v e.2)) context s = ((t', .ok b), s'))
    (hv : Valid s) :
    Adds s s' ∧ MakesSchema s'.Held (.map none es) t' b := by
  rw [visitSchema, map_children] at h
  simp only [childOf_eq] at h
  cases hr : Reference.ofEntries? es with
  | some r =>
    rw [hr] at h
    obtain ⟨he, rfl⟩ := pure_run.1 h
    cases he
    refine ⟨.refl _, ⟨.same ?_, fun hn => by cases hr.symm.trans hn⟩, still_reference hr⟩
    simp [Stand.skips, Reference.isReference, Reference.ofTree?, Tree.entries?, hr]
  | none =>
    rw [hr] at h
    simp only [Option.isSome_none, Bool.false_eq_true, if_false] at h
    cases hkind : Schema.kind es with
    | error f =>
      rw [hkind] at h
      cases (pure_run.1 h).1
    | ok kind =>
      rw [hkind] at h
      cases kind with
      | object =>
        have hf : Fair es .object := ⟨hr, hkind, by simp, by simp⟩
        obtain ⟨hl, hb, es₁, es₂, rfl, hprops, hadd⟩ :=
          visitObject_run hc h hv
        have hneeds : b = needsName es := by simpa only [needsName, hkind] using hb
        have hrests : PartsRest es₂ .object := by
          refine ⟨fun x' hx' => ?_, fun x' hx' => ?_⟩
          · rw [hadd.others _ (by decide)] at hx'
            obtain ⟨x, hx⟩ := Entries.exists_at?_of_keys_eq hprops.keys.symm hx'
            exact (hprops.value x x' hx hx').2
          · obtain ⟨x, hx⟩ := Entries.exists_at?_of_keys_eq hadd.keys.symm hx'
            exact (hadd.value x x' hx hx').2
        refine ⟨hl, hneeds ▸ makes_schema hf (hadd.keys.trans hprops.keys) (fun k x x' hx hx' => ?_) hrests⟩
        obtain ⟨y, hy⟩ := Entries.exists_at?_of_keys_eq hprops.keys hx
        simp only [Stand.within]
        split
        · subst k
          rw [hadd.others _ (by decide)] at hx'
          exact (hprops.value x x' hx hx').1
        · rename_i hk
          rw [hprops.others k hk] at hy
          cases hx.symm.trans hy
          split
          · subst k
            exact (hadd.value x x' ((hprops.others _ hk).trans hx) hx').1
          · rename_i hk'
            rw [hadd.others k hk', hprops.others k hk] at hx'
            cases hx.symm.trans hx'
            exact .same rfl
      | array =>
        have hf : Fair es .array := ⟨hr, hkind, by simp, by simp⟩
        have hother : ∀ k, k ≠ .text "items" → Stand.within .array k = .rest :=
          fun k hk => if_neg hk
        have hneeds : needsName es = false := by simp only [needsName, hkind]
        cases hx : es.at? (.text "items") with
        | none =>
          rw [hx] at h
          obtain ⟨he, rfl⟩ := pure_run.1 h
          cases he
          exact ⟨.refl _, hneeds ▸ makes_replaced (R := SchemaRests) hf hother
            (.of_self fun x hx' => by cases hx.symm.trans hx') id⟩
        | some x =>
          rw [hx] at h
          cases x with
          | map c fs =>
            obtain ⟨⟨u, r⟩, s₁, h₁, h⟩ := bind_run.1 h
            cases r with
            | error f => cases (pure_run.1 h).1
            | ok =>
              obtain ⟨he, rfl⟩ := pure_run.1 h
              cases he
              obtain ⟨hvisit, hp⟩ := hc _ (Entries.mem_of_at? hx)
              obtain ⟨hl, hn, hrests⟩ := named_run hvisit hp h₁ hv
              exact ⟨hl, hneeds ▸ makes_replaced (R := SchemaRests) hf hother
                (.of_set hx ⟨hn, fun _ => hrests⟩) id⟩
          | _ =>
            obtain ⟨he, rfl⟩ := pure_run.1 h
            cases he
            refine ⟨.refl _, hneeds ▸ makes_replaced (R := SchemaRests) hf hother
              (.of_self fun y hy => ?_) id⟩
            cases hx.symm.trans hy
            exact ⟨.same rfl, fun hmap => by cases hmap⟩
      | oneOf =>
        have hf : Fair es .oneOf := ⟨hr, hkind, by simp, by simp⟩
        exact composed_run hf (by simp [needsName, hkind]) (.inl ⟨⟨_, rfl⟩, rfl, rfl⟩) (fun _ => rfl)
          (fun _ => id) hc h hv
      | anyOf =>
        have hf : Fair es .anyOf := ⟨hr, hkind, by simp, by simp⟩
        exact composed_run hf (by simp [needsName, hkind]) (.inl ⟨⟨_, rfl⟩, rfl, rfl⟩) (fun _ => rfl)
          (fun _ => id) hc h hv
      | allOf =>
        have hf : Fair es .allOf := ⟨hr, hkind, by simp, by simp⟩
        exact composed_run hf (by simp [needsName, hkind]) (.inr ⟨rfl, rfl, rfl⟩) (fun _ => rfl)
          (fun _ => id) hc h hv
      | not =>
        obtain ⟨_, _, -, h⟩ := bind_run.1 h
        cases (pure_run.1 h).1
      | any =>
        cases htrivial : Schema.isTrivial es with
        | error f =>
          rw [htrivial] at h
          cases (pure_run.1 h).1
        | ok trivial =>
          rw [htrivial] at h
          cases trivial with
          | false =>
            obtain ⟨_, _, -, h⟩ := bind_run.1 h
            cases (pure_run.1 h).1
          | true =>
            obtain ⟨he, rfl⟩ := pure_run.1 h
            cases he
            have hneeds : needsName es = false := by simp only [needsName, hkind]
            have hf : Fair es .any := ⟨hr, hkind, by simp, fun _ => htrivial⟩
            exact ⟨.refl _, hneeds ▸ makes_unchanged hf (fun _ => rfl) True.intro⟩
      | _ =>
        obtain ⟨he, rfl⟩ := pure_run.1 h
        cases he
        have hneeds : needsName es = !(Schema.literals es).isEmpty := by
          simp only [needsName, hkind]
        exact ⟨.refl _, hneeds ▸ makes_unchanged ⟨hr, hkind, by simp, by simp⟩ (fun _ => rfl) True.intro⟩

end

/-! ## Visits -/

/-- A visit of a tree that is not recorded makes of it what naming may make of it. -/
theorem visits_para (again : Tree → Visit) (t : Tree) :
    Visits t (t.para (cases again)).1 := by
  induction t using Tree.induct with
  | map a es ih =>
    intro role context s t' b s' h hp hknows hv
    obtain ⟨rfl, hd, hpl⟩ := plain_map.1 hp
    have hc : ∀ e ∈ es, Visits e.2 (e.2.para (cases again)).1 ∧ Plain e.2 :=
      fun e he => ⟨ih e he, (hpl e he).2⟩
    rw [para_map] at h
    cases role with
    | schema =>
      exact visitSchema_run (v := fun t => (t.para (cases again)).1) hc h hv
    | properties =>
      obtain ⟨⟨es', r⟩, s₁, h₁, h⟩ := bind_run.1 h
      obtain ⟨he, rfl⟩ := pure_run.1 h
      cases r with
      | error f => cases he
      | ok =>
        cases he
        obtain ⟨hl, hrests, hall⟩ := eachProperty_run (fun c hm => by
          obtain ⟨e, he, rfl⟩ := List.mem_map.1 hm
          exact hc e he) h₁ hv
        rw [List.forall₂_map_left_iff] at hall
        obtain ⟨hk, hat⟩ := Entries.at?_of_forall₂ hall
        exact ⟨hl, .map trivial hk hat, still_properties hrests⟩
    | alternatives suffix =>
      obtain ⟨⟨es', r⟩, s₁, h₁, h⟩ := bind_run.1 h
      obtain ⟨he, rfl⟩ := pure_run.1 h
      cases r with
      | error f => cases he
      | ok =>
        cases he
        rw [map_children fun t => (t.para (cases again)).1, List.length_map] at h₁
        have hnumbered : ∀ n ∈ List.range (Entries.keys es).length, ∃ k ∈ Entries.keys es,
            k.same (.int n) = true := by
          intro n hn
          rw [Entries.keys, List.length_map] at hn
          obtain ⟨c, hm, hsame⟩ := exists_key_of_numbered h₁ n hn
          obtain ⟨e, he, rfl⟩ := List.mem_map.1 hm
          exact ⟨e.1, List.mem_map_of_mem he, hsame⟩
        obtain ⟨hl, hk, hat⟩ := eachNumbered_run
          (map_children (fun t => (t.para (cases again)).1) es).symm hd (fun c hm => by
          obtain ⟨e, he, rfl⟩ := List.mem_map.1 hm
          exact hc e he) rfl (fun k x x' hx _ => .inl (by
            simpa only [Entries.keys, List.length_map] using exists_number_of_keys hnumbered k
              (List.mem_map_of_mem (Entries.mem_of_at? hx)))) h₁ hv
        have hd' : es'.keys.Nodup := hk ▸ hd.nodup
        refine ⟨hl, .map trivial hk fun k x x' hx hx' => (hat k x x' hx hx').1,
          still_numbered suffix hd' (fun e he => ?_) fun n hn => ?_⟩
        · obtain ⟨x, hx⟩ := Entries.exists_at?_of_keys_eq hk.symm (Entries.at?_of_mem hd' he)
          exact (hat _ x e.2 hx (Entries.at?_of_mem hd' he)).2
        · obtain ⟨k, hm, hsame⟩ := hnumbered n (by rwa [← hk, Entries.keys, List.length_map])
          obtain ⟨e, he, rfl⟩ := List.mem_map.1 (hk ▸ hm : k ∈ es'.keys)
          exact ⟨e, he, hsame⟩
    | parts => cases hknows
  | list a ts ih =>
    intro role context s t' b s' h hp hknows hv
    obtain ⟨rfl, hpl⟩ := plain_list.1 hp
    rw [para_list] at h
    cases role with
    | schema | properties => cases hknows
    | alternatives suffix =>
      obtain ⟨⟨ts', r⟩, s₁, h₁, h⟩ := bind_run.1 h
      obtain ⟨he, rfl⟩ := pure_run.1 h
      cases r with
      | error f => cases he
      | ok =>
        cases he
        obtain ⟨hl, hrests, hall⟩ := eachAlternative_run (fun c hm => by
          obtain ⟨t, ht, rfl⟩ := List.mem_map.1 hm
          exact ⟨ih t ht, hpl t ht⟩) h₁ hv
        rw [List.forall₂_map_left_iff] at hall
        exact ⟨hl, names_list trivial hall, still_alternatives suffix hrests⟩
    | parts =>
      obtain ⟨⟨ts', r⟩, s₁, h₁, h⟩ := bind_run.1 h
      obtain ⟨he, rfl⟩ := pure_run.1 h
      cases r with
      | error f => cases he
      | ok =>
        cases he
        obtain ⟨hl, hrests, hall⟩ := eachPart_run (fun c hm => by
          obtain ⟨t, ht, rfl⟩ := List.mem_map.1 hm
          exact ⟨ih t ht, hpl t ht⟩) h₁ hv
        rw [List.forall₂_map_left_iff] at hall
        exact ⟨hl, names_list trivial hall, still_parts hrests⟩
  | _ =>
    intro role context s t' b s' h hp hknows hv
    cases role with
    | alternatives => rcases hknows with h | h <;> cases h
    | _ => cases hknows

/-- A visit of a tree makes of it what naming may make of it. -/
theorem visits_visit (t : Tree) : Visits t (visit t) := by
  intro role context s t' b s' h
  obtain ⟨_, _, hget, h⟩ := bind_run.1 h
  obtain ⟨rfl, rfl⟩ := get_run.1 hget
  exact visits_para _ t role context s t' b s' h

end ApiContract.Naming
