import ApiContract.Proofs.Naming.Schema
import ApiContract.Proofs.Naming.Stays

/-!
# Naming the schemas of an object

`Does st e`: the edit `e` makes of a tree what naming may make of it in a position that is gone through as
`st`, and leaves that as it is when it comes again. `Along f keys e`: the edit goes through the values under
some keys of a map, each as what `f` says, and leaves the others. Edits along different keys join
(`along_andThen`, `along_same`), and one along all edges of an object has gone through the object
(`does_of_along`).
-/

namespace ApiContract.Naming

open Tree Walk Edit

/-- What an edit makes of a tree, naming may make of it, and the edit leaves it as it is from then on. -/
def DoesTo (st : Stand) (e : Edit Run) (t : Tree) : Prop :=
  ∀ ⦃s t' s'⦄, e t s = ((t', .ok ()), s') → Plain t → Valid s →
    Later s s' ∧ Names s'.Held st t t' ∧ Stays e t'

/-- The same of every tree. -/
def Does (st : Stand) (e : Edit Run) : Prop := ∀ t, DoesTo st e t

/-- The same of every map. -/
def DoesMap (st : Stand) (e : Edit Run) : Prop := ∀ es : Entries, DoesTo st e (.map none es)

/-- An edit goes through the values under some keys of a map, and leaves any map as it is that has the same
under those keys. -/
def Along (f : Scalar → Stand) (keys : List String) (e : Edit Run) : Prop :=
  ∀ ⦃es : Entries⦄ ⦃s t' s'⦄, e (.map none es) s = ((t', .ok ()), s') → Plain (.map none es) →
    Valid s →
    Later s s' ∧ ∃ es' : Entries, t' = .map none es' ∧ es'.keys = es.keys ∧
      (∀ k, (∀ key ∈ keys, k ≠ .text key) → es'.at? k = es.at? k) ∧
      (∀ key ∈ keys, ∀ x x', es.at? (.text key) = some x → es'.at? (.text key) = some x' →
        Names s'.Held (f (.text key)) x x') ∧
      ∀ es'' : Entries, Plain (.map none es'') →
        (∀ key ∈ keys, es''.at? (.text key) = es'.at? (.text key)) → Stays e (.map none es'')

variable {held : String → Tree → Prop} {s s' : State} {f : Scalar → Stand} {st : Stand} {kind : Kind}

/-! ## Keys -/

theorem along_skip : Along f [] skip := by
  intro es s t' s' h _ _
  obtain ⟨he, rfl⟩ := pure_run.1 h
  cases he
  exact ⟨.refl _, es, rfl, rfl, fun _ _ => rfl, fun _ hm => absurd hm List.not_mem_nil,
    fun _ _ _ => stays_skip _⟩

/-- An edit of the value under a key. -/
theorem along_value {key : String} {e : Edit Run} (he : Does (f (.text key)) e) :
    Along f [key] (value key e) := by
  intro es s t' s' h hp hv
  rcases value_run h with ⟨a, es₀, es', heq, rfl, h⟩ | ⟨hm, -⟩
  · cases heq
    obtain ⟨hk, hother, hat⟩ := valueIn_run h
    simp only [List.mem_singleton, forall_eq]
    cases hx : es.at? (.text key) with
    | none =>
      rw [hx] at hat
      obtain ⟨rfl, rfl⟩ := hat
      refine ⟨.refl _, _, rfl, rfl, fun _ _ => rfl, fun x x' hx₀ => (by cases hx₀), fun es'' hp'' hsame => ?_⟩
      exact stays_value hp'' fun y hy => by cases hy.symm.trans (hsame.trans hx)
    | some x =>
      rw [hx] at hat
      obtain ⟨x', hx', hrun⟩ := hat
      have hpx := ((plain_map.1 hp).2.2 _ (Entries.mem_of_at? hx)).2
      rw [shared_of_anchor hpx.anchor_eq] at hrun
      obtain ⟨hl, hn, hstays⟩ := he _ hrun hpx hv
      refine ⟨hl, es', rfl, hk, hother, fun y y' hy hy' => ?_, fun es'' hp'' hsame => ?_⟩
      · cases hy
        cases hx'.symm.trans hy'
        exact hn
      · refine stays_value hp'' fun y hy => ?_
        cases hy.symm.trans (hsame.trans hx')
        exact hstays
  · cases hm

/-- What an edit along some keys makes of a plain map is plain. -/
theorem plain_of_along {keys : List String} {es es' : Entries} (hp : Plain (.map none es))
    (hk : es'.keys = es.keys) (hother : ∀ k, (∀ key ∈ keys, k ≠ .text key) → es'.at? k = es.at? k)
    (hat : ∀ key ∈ keys, ∀ x x', es.at? (.text key) = some x → es'.at? (.text key) = some x' →
      Names held (f (.text key)) x x') : Plain (.map none es') := by
  refine Entries.plain_of_keys hp hk fun k x' hx' => ?_
  obtain ⟨x, hx⟩ := Entries.exists_at?_of_keys_eq hk.symm hx'
  have hpx := ((plain_map.1 hp).2.2 _ (Entries.mem_of_at? hx)).2
  by_cases hm : ∃ key ∈ keys, k = .text key
  · obtain ⟨key, hm, rfl⟩ := hm
    exact (hat key hm x x' hx hx').plain hpx
  · rw [hother k fun key hm' he => hm ⟨key, hm', he⟩] at hx'
    cases hx.symm.trans hx'
    exact hpx

/-- Edits along different keys, one after the other. -/
theorem along_andThen {l r : List String} {e e' : Edit Run} (hd : ∀ key ∈ r, key ∉ l)
    (he : Along f l e) (he' : Along f r e') :
    Along f (l ++ r) (andThen e e') := by
  intro es s t' s' h hp hv
  obtain ⟨u, s₁, h₁, h₂⟩ := andThen_run h
  obtain ⟨hl, es₁, rfl, hk, hother, hat, hstays⟩ := he h₁ hp hv
  have hkeep : ∀ key ∈ r, es₁.at? (.text key) = es.at? (.text key) := fun key hm =>
    hother _ fun key' hm' heq => hd key hm (Scalar.text.inj heq ▸ hm')
  have hp₁ : Plain (.map none es₁) := plain_of_along hp hk hother hat
  obtain ⟨hl', es₂, rfl, hk', hother', hat', hstays'⟩ := he' h₂ hp₁ (hl.valid hv)
  have hkeep' : ∀ key ∈ l, es₂.at? (.text key) = es₁.at? (.text key) := fun key hm =>
    hother' _ fun key' hm' heq => hd key' hm' (Scalar.text.inj heq ▸ hm)
  refine ⟨hl.trans hl', es₂, rfl, hk'.trans hk, fun k hkey => ?_, fun key hm x x' hx hx' => ?_,
    fun es'' hp'' hsame => ?_⟩
  · rw [hother' k fun key hm => hkey key (List.mem_append_right _ hm),
      hother k fun key hm => hkey key (List.mem_append_left _ hm)]
  · rcases List.mem_append.1 hm with hm | hm
    · rw [hkeep' key hm] at hx'
      exact (hat key hm x x' hx hx').later hl'
    · exact hat' key hm x x' ((hkeep key hm).trans hx) hx'
  · refine (hstays es'' hp'' fun key hm => ?_).andThen (hstays' es'' hp'' fun key hm => ?_)
    · exact (hsame key (List.mem_append_left _ hm)).trans (hkeep' key hm)
    · exact hsame key (List.mem_append_right _ hm)

theorem along_cons {key : String} {keys : List String} {e : Edit Run} {l : List (Edit Run)}
    (hkey : key ∉ keys) (he : Does (f (.text key)) e)
    (hl : Along f keys (all l)) :
    Along f (key :: keys) (all (value key e :: l)) := by
  refine along_andThen (l := [key]) (fun key' hm hm' => ?_) (along_value he) hl
  rw [List.mem_singleton.1 hm'] at hm
  exact hkey hm

/-- The same edit of the values under different keys. -/
theorem along_same {e : Edit Run} : ∀ {keys : List String}, keys.Nodup →
    (∀ key ∈ keys, Does (f (.text key)) e) →
      Along f keys (all (keys.map fun key => value key e))
  | [], _, _ => along_skip
  | _ :: _, hn, he => along_cons (List.nodup_cons.1 hn).1 (he _ List.mem_cons_self)
    (along_same (List.nodup_cons.1 hn).2 fun key hm => he key (List.mem_cons_of_mem _ hm))

/-! ## Objects -/

/-- An edit along all edges of an object has gone through the object. -/
theorem does_of_along {keys : List String} {e : Edit Run} (hst : ∀ es, st.Enters es)
    (hpart : ∀ es k, st.part es k = f k) (hrest : ∀ k, (∀ key ∈ keys, k ≠ .text key) → f k = .rest)
    (he : Along f keys e) {es : Entries} {t' : Tree}
    (h : e (.map none es) s = ((t', .ok ()), s')) (hp : Plain (.map none es))
    (hv : Valid s) :
    Later s s' ∧ Names s'.Held st (.map none es) t' ∧ Stays e t' := by
  obtain ⟨hl, es', rfl, hk, hother, hat, hstays⟩ := he h hp hv
  refine ⟨hl, .map (hst es) hk fun k x x' hx hx' => ?_,
    hstays es' (plain_of_along hp hk hother hat) fun _ _ => rfl⟩
  rw [hpart]
  by_cases hm : ∃ key ∈ keys, k = .text key
  · obtain ⟨key, hm, rfl⟩ := hm
    exact hat key hm x x' hx hx'
  · have hkey : ∀ key ∈ keys, k ≠ .text key := fun key hm' he => hm ⟨key, hm', he⟩
    rw [hother k hkey] at hx'
    cases hx.symm.trans hx'
    rw [hrest k hkey]
    exact .same rfl

theorem doesTo_skip {t : Tree} (h : ∀ held, Names held st t t) : DoesTo st skip t := by
  intro s t' s' h' _ _
  obtain ⟨heq, rfl⟩ := pure_run.1 h'
  cases heq
  exact ⟨.refl _, h _, stays_skip _⟩

theorem doesTo_fail {t : Tree} (x : Failure) : DoesTo st (fail x) t :=
  fun _ _ _ h _ _ => by cases (pure_run.1 h).1

/-- An edit that is chosen by what stays when naming goes through the tree. -/
theorem doesTo_choose {g : Tree → Edit Run} {t : Tree}
    (hg : ∀ {held t'}, Names held st t t' → g t' = g t) (he : DoesTo st (g t) t) :
    DoesTo st (choose g) t := by
  intro s t' s' h hp hv
  obtain ⟨hl, hn, hstays⟩ := he h hp hv
  refine ⟨hl, hn, ?_⟩
  rw [← hg hn] at hstays
  exact hstays

theorem Does.map {e : Edit Run} (he : Does st e) : DoesMap st e :=
  fun _ => he _

theorem does_whenMap {e : Edit Run} (hskip : ∀ t : Tree, t.isMap = false → st.skips t = true)
    (he : DoesMap st e) : Does st (whenMap e) := by
  intro t s t' s' h hp hv
  rcases whenMap_run h with ⟨hm, h⟩ | ⟨hm, rfl, rfl⟩
  · cases t with
    | map a es =>
      obtain ⟨rfl, -⟩ := plain_map.1 hp
      exact (he _ h hp hv).imp_right (.imp_right fun hstays => stays_whenMap fun _ => hstays)
    | _ => cases hm
  · exact ⟨.refl _, .same (hskip _ hm), stays_whenMap fun h => by cases hm.symm.trans h⟩

/-- What is not gone through in an object stays. -/
theorem Names.get?_rest {key : String} {t t' : Tree} (h : Names held (.object kind) t t')
    (hrest : ∀ es, (Stand.object kind).part es (.text key) = .rest) : t'.get? key = t.get? key := by
  cases h with
  | same | list => rfl
  | @map _ _ es es' _ hk hes =>
    show Entries.at? _ es' = Entries.at? _ es
    cases hx : Entries.at? (.text key) es with
    | none => exact (Entries.at?_eq_none_congr hk).2 hx
    | some x =>
      obtain ⟨x', hx'⟩ := Entries.exists_at?_of_keys_eq hk hx
      have hn := hes _ x x' hx hx'
      rw [hrest] at hn
      rw [hx', hn.eq_of_rest]

theorem does_unlessReference {e : Edit Run}
    (hskip : ∀ t : Tree, (!t.isMap || Reference.isReference t) = true → (Stand.object kind).skips t = true)
    (hrest : ∀ es, (Stand.object kind).part es (.text "$ref") = .rest)
    (he : DoesMap (.object kind) e) : Does (.object kind) (unlessReference e) := by
  refine does_whenMap (fun t ht => hskip t (by simp [ht])) fun es => doesTo_choose (fun hn => ?_) ?_
  · have href := hn.get?_rest hrest
    cases hn with
    | same => rfl
    | map =>
      rw [Reference.isReference, Reference.isReference, Reference.ofTree?_map, Reference.ofTree?_map]
      rw [show Entries.at? _ _ = _ from href]
      rfl
  · split
    · rename_i hr
      exact doesTo_skip fun _ => .same (hskip _ (by simp [hr]))
    · exact he es

/-! ## Maps and lists of objects -/

theorem entriesOf_run {R : State → Scalar → Tree → Tree → Prop} {e : Scalar → Edit Run}
    (hR : ∀ {s s' k x x'}, Later s s' → R s k x x' → R s' k x x') :
    ∀ {es es' : Entries} {s s' : State}, entriesOf e es s = ((es', .ok ()), s') →
      (∀ p ∈ es, Plain p.2 ∧ ∀ s t' s', e p.1 p.2 s = ((t', .ok ()), s') → Valid s →
        Later s s' ∧ R s' p.1 p.2 t') → Valid s →
      Later s s' ∧ List.Forall₂ (fun p q => q.1 = p.1 ∧ R s' p.1 p.2 q.2) es es'
  | [], es', s, s', h, _, _ => by
    obtain ⟨he, rfl⟩ := pure_run.1 h
    cases he
    exact ⟨.refl _, .nil⟩
  | (k, t) :: es, es', s, s', h, hc, hv => by
    obtain ⟨hp, hdoes⟩ := hc _ List.mem_cons_self
    obtain ⟨⟨t', r⟩, s₁, h₁, h⟩ := bind_run.1 h
    cases r with
    | error x => cases (pure_run.1 h).1
    | ok =>
      obtain ⟨⟨es₁, r⟩, s₂, h₂, h⟩ := bind_run.1 h
      obtain ⟨he, rfl⟩ := pure_run.1 h
      cases he
      rw [shared_of_anchor hp.anchor_eq] at h₁
      obtain ⟨hl, hn⟩ := hdoes _ _ _ h₁ hv
      obtain ⟨hl', hrest⟩ := entriesOf_run (R := R) hR h₂ (fun p hm => hc p (List.mem_cons_of_mem _ hm))
        (hl.valid hv)
      exact ⟨hl.trans hl', .cons ⟨rfl, hR hl' hn⟩ hrest⟩

theorem itemsOf_run {e : Edit Run} (he : Does st e) :
    ∀ {ts ts' : List Tree} {s s' : State}, itemsOf e ts s = ((ts', .ok ()), s') →
      (∀ t ∈ ts, Plain t) → Valid s →
      Later s s' ∧ List.Forall₂ (Names s'.Held st) ts ts' ∧ ∀ t' ∈ ts', Plain t' ∧ Stays e t'
  | [], ts', s, s', h, _, _ => by
    obtain ⟨he, rfl⟩ := pure_run.1 h
    cases he
    exact ⟨.refl _, .nil, fun _ hm => absurd hm List.not_mem_nil⟩
  | t :: ts, ts', s, s', h, hc, hv => by
    have hp := hc _ List.mem_cons_self
    obtain ⟨⟨t', r⟩, s₁, h₁, h⟩ := bind_run.1 h
    cases r with
    | error x => cases (pure_run.1 h).1
    | ok =>
      obtain ⟨⟨ts₁, r⟩, s₂, h₂, h⟩ := bind_run.1 h
      obtain ⟨heq, rfl⟩ := pure_run.1 h
      cases heq
      rw [shared_of_anchor hp.anchor_eq] at h₁
      obtain ⟨hl, hn, hstays⟩ := he _ h₁ hp hv
      obtain ⟨hl', hrest, hstays'⟩ := itemsOf_run he h₂ (fun t hm => hc t (List.mem_cons_of_mem _ hm))
        (hl.valid hv)
      exact ⟨hl.trans hl', .cons (hn.later hl') hrest,
        List.forall_mem_cons.2 ⟨⟨hn.plain hp, hstays⟩, hstays'⟩⟩

/-- Every entry of a map of objects. -/
theorem does_entries {e : Scalar → Edit Run} (he : ∀ k, Does (.ofKind kind) (e k)) :
    Does (.object (.mapOf kind)) (entries e) := by
  intro t s t' s' h hp hv
  cases t with
  | map a es =>
    obtain ⟨rfl, hd, hpl⟩ := plain_map.1 hp
    obtain ⟨⟨es', r⟩, s₁, h₁, h⟩ := bind_run.1 h
    obtain ⟨heq, rfl⟩ := pure_run.1 h
    cases heq
    obtain ⟨hl, hall⟩ := entriesOf_run
      (R := fun s k x x' => Names s.Held (.ofKind kind) x x' ∧ Stays (e k) x')
      (fun hl hn => hn.imp_left (·.later hl)) h₁
      (fun p hm => ⟨(hpl p hm).2, fun _ _ _ h => he p.1 _ h (hpl p hm).2⟩) hv
    obtain ⟨hk, hat⟩ := Entries.at?_of_forall₂_keyed
      (R := fun k x x' => Names s₁.Held (.ofKind kind) x x' ∧ Stays (e k) x') hall
    have hn : Names s₁.Held (.object (.mapOf kind)) (.map none es) (.map none es') :=
      .map trivial hk fun k x x' hx hx' => (hat k x x' hx hx').1
    refine ⟨hl, hn, stays_entries (hn.plain hp) fun p hm => ?_⟩
    have hx' := Entries.at?_of_mem (hk ▸ hd.nodup : es'.keys.Nodup) hm
    obtain ⟨x, hx⟩ := Entries.exists_at?_of_keys_eq hk.symm hx'
    exact (hat _ x _ hx hx').2
  | _ =>
    obtain ⟨heq, rfl⟩ := pure_run.1 h
    cases heq
    exact ⟨.refl _, .same rfl, fun s _ => ⟨s.notices, rfl⟩⟩

/-- Every item of a list of objects. -/
theorem does_items {e : Edit Run} (he : Does (.ofKind kind) e) :
    Does (.object (.listOf kind)) (items e) := by
  intro t s t' s' h hp hv
  cases t with
  | list a ts =>
    obtain ⟨rfl, hpl⟩ := plain_list.1 hp
    obtain ⟨⟨ts', r⟩, s₁, h₁, h⟩ := bind_run.1 h
    obtain ⟨heq, rfl⟩ := pure_run.1 h
    cases heq
    obtain ⟨hl, hall, hstays⟩ := itemsOf_run he h₁ hpl hv
    exact ⟨hl, names_list trivial hall, stays_items hstays⟩
  | _ =>
    obtain ⟨heq, rfl⟩ := pure_run.1 h
    cases heq
    exact ⟨.refl _, .same rfl, fun s _ => ⟨s.notices, rfl⟩⟩

/-! ## The objects of a description -/

theorem does_schema (context : String) :
    Does .inline (whenMap (schemaAt context)) :=
  does_whenMap (fun t ht => by simp [Stand.skips, ht]) fun _ _ _ _ h hp hv =>
    (named_run (visits_visit _) hp h hv).imp Adds.toLater (.imp_right <| stays_schemaAt context)

/-- What an edit along all edges of a kind of object makes of one. -/
theorem doesMap_along {l : List String} {e : Edit Run}
    (hkind : ∀ es k, (Stand.object kind).part es k = Stand.along kind k)
    (hkeys : ∀ p ∈ Stand.edges kind, p.1 ∈ l)
    (he : Along (Stand.along kind) l e) :
    DoesMap (.object kind) e := by
  have hst : ∀ es, (Stand.object kind).Enters es := fun _ => trivial
  intro es s t' s' h hp hv
  refine does_of_along hst hkind (fun k hk => ?_) he h hp hv
  cases k with
  | text key =>
    simp only [Stand.along]
    cases hl : (Stand.edges kind).lookup key with
    | none => rfl
    | some kind' =>
      exact absurd rfl (hk key (hkeys _ (mem_of_lookup hl)))
  | _ => rfl

theorem along_mediaType (context : String) :
    Along (Stand.along .mediaType) ["schema"] (mediaType context) :=
  along_value (f := Stand.along .mediaType) (does_schema context)

theorem does_eachMap {e : String → Edit Run} (hskip : ∀ t : Tree, t.isMap = false →
    (Stand.ofKind kind).skips t = true) (he : ∀ name, DoesMap (.ofKind kind) (e name)) :
    Does (.object (.mapOf kind)) (eachMap e) :=
  does_entries fun k => does_whenMap hskip (he k.display)

theorem doesMap_mediaType (context : String) :
    DoesMap (.object .mediaType) (mediaType context) :=
  doesMap_along (fun _ _ => rfl) (by decide) (along_mediaType context)

theorem along_contents (f : Scalar → Stand) (hf : f (.text "content") = .object (.mapOf .mediaType))
    (context suffix : String) : Along f ["content"] (contents context suffix) := by
  refine along_value (hf ▸ does_eachMap (fun t ht => by simp [Stand.ofKind, Stand.skips, ht]) ?_)
  intro type es s t' s' h hp hv
  obtain ⟨_, s₁, h₁, h⟩ := bind_run.1 h
  have hl : Adds s s₁ := by
    rw [← modify_run.1 h₁]
    exact .of_eq rfl rfl rfl rfl
  obtain ⟨hl', hn, hstays⟩ := doesMap_mediaType _ _ h hp (hl.valid hv)
  exact ⟨hl.toLater.trans hl', hn, stays_report _ hstays⟩

/-- A parameter or a header. -/
theorem doesMap_schemaOrContent (context : String) :
    DoesMap (.object .parameter) (schemaOrContent context) :=
  doesMap_along (fun _ _ => rfl) (by decide) <|
    along_andThen (l := ["schema"]) (r := ["content"]) (by decide)
      (along_value (does_schema context))
      (along_value (does_eachMap (fun t ht => by simp [Stand.ofKind, Stand.skips, ht])
        fun _ => doesMap_mediaType context))

theorem doesMap_parameter (context : String) : DoesMap (.object .parameter) (parameter context) :=
  fun es => doesTo_choose (fun hn => by rw [hn.get?_rest fun _ => rfl]) (doesMap_schemaOrContent _ es)

theorem doesMap_requestBody (context suffix : String) :
    DoesMap (.object .requestBody) (contents context suffix) :=
  doesMap_along (fun _ _ => rfl) (by decide) (along_contents _ rfl context suffix)

theorem doesMap_response (context : String) :
    DoesMap (.object .response) (response context) :=
  doesMap_along (fun _ _ => rfl) (by decide) <|
    along_andThen (l := ["headers"]) (r := ["content"]) (by decide)
      (along_value (does_eachMap (fun t ht => by simp [Stand.ofKind, Stand.skips, ht])
        fun name => Does.map (does_unlessReference (fun _ ht => ht) (fun _ => rfl) (doesMap_schemaOrContent _))))
      (along_contents _ rfl context _)

/-- What becomes of a response after the default one, which has had its turn. -/
def OtherResponse (e : Scalar → Edit Run) (s : State) (k : Scalar) (t t' : Tree) : Prop :=
  (k = .text "default" → t' = t) ∧
    (k ≠ .text "default" → Names s.Held (.object .response) t t' ∧ Stays (e k) t')

/-- The responses of an operation: the default one, then the others. -/
theorem doesMap_responses {e : Edit Run} {g : Scalar → Edit Run}
    (he : Does (.object .response) e)
    (hg : ∀ k, Does (.object .response) (g k)) :
    DoesMap (.object (.mapOf .response)) (andThen (value "default" e)
      (entries fun k => if k = .text "default" then skip else g k)) := by
  intro es s t' s' h hp hv
  obtain ⟨u, s₁, h₁, h₂⟩ := andThen_run h
  obtain ⟨hl, es₁, rfl, hk, hother, hat, hstays⟩ := along_value (f := fun _ => .object .response) he h₁ hp hv
  simp only [List.mem_singleton, forall_eq] at hother hat hstays
  obtain ⟨-, hd, hpl⟩ := plain_map.1 hp
  obtain ⟨⟨es', r⟩, s₂, h₂, h₃⟩ := bind_run.1 h₂
  obtain ⟨heq, rfl⟩ := pure_run.1 h₃
  cases heq
  have hothers : ∀ p ∈ es₁, Plain p.2 ∧ ∀ s t' s',
      (if p.1 = .text "default" then skip else g p.1 : Edit Run) p.2 s = ((t', .ok ()), s') →
      Valid s → Later s s' ∧ OtherResponse g s' p.1 p.2 t' := by
    intro p hm
    have hx₁ := Entries.at?_of_mem (hk ▸ hd.nodup : es₁.keys.Nodup) hm
    obtain ⟨x, hx⟩ := Entries.exists_at?_of_keys_eq hk.symm hx₁
    have hpx := (hpl _ (Entries.mem_of_at? hx)).2
    split
    · rename_i hdefault
      refine ⟨?_, fun s t' s' h hv => ?_⟩
      · rw [hdefault] at hx hx₁
        exact (hat x p.2 hx hx₁).plain hpx
      · obtain ⟨heq, rfl⟩ := pure_run.1 h
        cases heq
        exact ⟨.refl _, fun _ => rfl, fun hne => absurd hdefault hne⟩
    · rename_i hne
      cases hx.symm.trans ((hother _ hne).symm.trans hx₁)
      refine ⟨hpx, fun s t' s' h hv => ?_⟩
      obtain ⟨hl, hn⟩ := hg p.1 _ h hpx hv
      exact ⟨hl, fun hdefault => absurd hdefault hne, fun _ => hn⟩
  obtain ⟨hl', hall⟩ := entriesOf_run (R := OtherResponse g)
    (fun hl hn => ⟨hn.1, fun hne => (hn.2 hne).imp_left (·.later hl)⟩) h₂ hothers (hl.valid hv)
  obtain ⟨hk', hat'⟩ := Entries.at?_of_forall₂_keyed (R := OtherResponse g s₂) hall
  have hn : Names s₂.Held (.object (.mapOf .response)) (.map none es) (.map none es') := by
    refine .map trivial (hk'.trans hk) fun k x x' hx hx' => ?_
    obtain ⟨x₁, hx₁⟩ := Entries.exists_at?_of_keys_eq hk hx
    have hn := hat' k x₁ x' hx₁ hx'
    by_cases hdefault : k = .text "default"
    · subst hdefault
      cases hn.1 rfl
      exact (hat x x' hx hx₁).later hl'
    · cases hx.symm.trans ((hother _ hdefault).symm.trans hx₁)
      exact (hn.2 hdefault).1
  have hp' := hn.plain hp
  refine ⟨hl.trans hl', hn, (hstays _ hp' ?_).andThen (stays_entries hp' fun p hm => ?_)⟩
  · cases hx₁ : es₁.at? (.text "default") with
    | none => exact (Entries.at?_eq_none_congr hk').2 hx₁
    | some x₁ =>
      obtain ⟨x', hx'⟩ := Entries.exists_at?_of_keys_eq hk' hx₁
      rw [hx', (hat' _ x₁ x' hx₁ hx').1 rfl]
  · split
    · exact stays_skip _
    · rename_i hne
      have hx' := Entries.at?_of_mem (hk'.trans hk ▸ hd.nodup : es'.keys.Nodup) hm
      obtain ⟨x₁, hx₁⟩ := Entries.exists_at?_of_keys_eq hk'.symm hx'
      exact ((hat' _ x₁ _ hx₁ hx').2 hne).2

theorem does_parameters (context : String) :
    Does (.object (.listOf .parameter)) (choose fun t =>
      if t.isIterable then items (unlessReference (parameter context)) else fail .malformed) := by
  have hparameter : Does (.ofKind .parameter) (unlessReference (parameter context)) :=
    does_unlessReference (fun _ ht => ht) (fun _ => rfl) (doesMap_parameter context)
  intro t
  refine doesTo_choose (fun hn => ?_) ?_
  · rw [show Tree.isIterable _ = t.isIterable by cases hn <;> rfl]
  · split
    · exact does_items hparameter t
    · exact doesTo_fail _

theorem names_of_falsy_map {t : Tree} (h : t.truthy = false) : Names held (.object (.mapOf kind)) t t := by
  cases t with
  | map a es =>
    cases es with
    | nil => exact .map trivial rfl fun _ _ _ hx => by cases hx
    | cons => cases h
  | _ => exact .same rfl

theorem does_responses (context : String) :
    Does (.object (.mapOf .response)) (choose fun t =>
      if !t.truthy then skip
      else if !t.isMap then fail .malformed
      else andThen
        (value "default" (unlessReference (response (context ++ "DefaultResponse"))))
        (entries fun k => if k = .text "default" then skip
          else unlessReference (response (context ++ Text.pascal k.display ++ "Response")))) := by
  have hresponse : ∀ context, Does (.object .response) (unlessReference (response context)) :=
    fun context => does_unlessReference (fun _ ht => ht) (fun _ => rfl) (doesMap_response context)
  intro t
  refine doesTo_choose (fun hn => by rw [hn.truthy, hn.isMap]) ?_
  split
  · rename_i hfalsy
    exact doesTo_skip fun _ => names_of_falsy_map (by simpa using hfalsy)
  · split
    · exact doesTo_fail _
    · rename_i hm
      intro s t' s' h hp hv
      obtain ⟨es, rfl⟩ := hp.eq_map (by simpa using hm)
      exact doesMap_responses (hresponse _)
        (g := fun k => unlessReference (response (context ++ Text.pascal k.display ++ "Response")))
        (fun k => hresponse _) es h hp hv

theorem doesMap_operation_named (context : String) : DoesMap (.object .operation)
    (all [parameters context, value "requestBody" (unlessReference (contents context "RequestBody")),
      responses context]) :=
  doesMap_along (fun _ _ => rfl) (l := ["parameters", "requestBody", "responses"]) (by decide) <|
    along_cons (by decide) (does_parameters _) <|
    along_cons (by decide) (does_unlessReference (fun _ ht => ht) (fun _ => rfl) (doesMap_requestBody _ _)) <|
    along_cons (by decide) (does_responses _) along_skip

/-- An operation: its parameters, its body, its responses. -/
theorem does_operation : Does (.object .operation) (whenMap operation) := by
  refine does_whenMap (fun t ht => by simp [Stand.skips, ht]) fun es => ?_
  have hskip : ((Tree.map none es).getD "operationId").truthy = false →
      DoesTo (.object .operation) skip (.map none es) :=
    fun hid => doesTo_skip fun _ => .same (by simp [Stand.skips, Stand.lacksId, hid])
  have hother : DoesTo (.object .operation)
      (if ((Tree.map none es).getD "operationId").truthy then fail .malformed else skip) (.map none es) := by
    split
    · exact doesTo_fail _
    · rename_i hid
      exact hskip (by simpa using hid)
  refine doesTo_choose (fun hn => ?_) ?_
  · have hid : Tree.get? _ "operationId" = _ := hn.get?_rest fun _ => rfl
    simp only [Tree.getD, hid]
  · cases hid : (Tree.map none es).getD "operationId" with
    | scalar v =>
      cases v with
      | text id =>
        dsimp only
        split
        · rename_i hempty
          exact hskip (by simp [hid, Tree.truthy, Scalar.truthy, hempty])
        · exact doesMap_operation_named _ es
      | _ =>
        rw [hid] at hother
        exact hother
    | _ =>
      rw [hid] at hother
      exact hother

/-- A path item: its operations, then the parameters that they share. -/
theorem does_pathItem : Does (.object .pathItem) (unlessReference pathItem) := by
  refine does_unlessReference (fun _ ht => ht) (fun _ => rfl) (doesMap_along (fun _ _ => rfl)
    (l := Method.all.map Method.key ++ ["parameters"]) (by decide) ?_)
  refine along_andThen (by decide) ?_ (along_value (does_parameters ""))
  have hmap : Method.all.map (fun m => value m.key (whenMap operation)) =
      (Method.all.map Method.key).map fun key => value key (whenMap operation) := by
    rw [List.map_map]
    rfl
  rw [hmap]
  refine along_same (by decide) fun key hm => ?_
  have hedge : Stand.along .pathItem (.text key) = .object .operation := by
    revert key
    decide
  exact hedge ▸ does_operation

/-- The components, except the schemas. -/
theorem along_components : Along (Stand.along .components)
    ["responses", "parameters", "requestBodies", "headers"] components := by
  have hskip : ∀ t : Tree, t.isMap = false → (!t.isMap || Reference.isReference t) = true :=
    fun t ht => by simp [ht]
  exact along_cons (by decide) (does_eachMap hskip fun _ => doesMap_response _) <|
    along_cons (by decide) (does_eachMap hskip fun _ => doesMap_parameter _) <|
    along_cons (by decide) (does_eachMap hskip fun _ => doesMap_requestBody _ _) <|
    along_cons (by decide) (does_eachMap hskip fun _ => doesMap_schemaOrContent _) along_skip

theorem doesMap_components : DoesMap (.object .components) components :=
  doesMap_along (fun _ _ => rfl) (by decide) along_components

end ApiContract.Naming
