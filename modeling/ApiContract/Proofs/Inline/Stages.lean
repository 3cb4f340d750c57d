import ApiContract.Proofs.Inline.Comparison
import ApiContract.Proofs.Inline.Document

/-!
# The stages of inlining

A description is inlined in stages: what lies around the table of schemas, the schemas of the table one
after the other, then the paths. In the end the added schemas join the table. What a name may have been
seen to stand for depends on the stage: before the turn of the table's own schema it is still the schema
that the description has.

* `withSchemas_joins`: joining keeps the schemas of the table and everything outside it.
* `compares_components`, `document_compares`: what the runs over the components and over the whole
  description have compared, in terms of the states before and after.
* `stages_inlineReferences`: what each stage has made of its part of the description, in terms of the
  description and the result alone (`seenWhile`).
-/

namespace ApiContract.Inline

open Tree Walk

variable {library : Library} {root : Place} {s s' : State} {t out : Tree}

/-! ## Joining the added schemas -/

/-- What joining the added schemas leaves: everything outside the table, and the schemas of the table. -/
structure Joins (table : Option Tree) (added : List (String × Tree)) (es es' : Entries) : Prop where
  plain : Plain (.map none es')
  others : ∀ k, k ≠ .text "components" → es'.at? k = es.at? k
  schemas : ∀ name, schemaOf (.map none es') name =
    (table.bind (Tree.get? · name)).or (added.lookup name)
  components : ∀ cs, es.at? (.text "components") = some (.map none cs) →
    ∃ cs' : Entries, es'.at? (.text "components") = some (.map none cs') ∧
      (∀ k, k ≠ .text "schemas" → cs'.at? k = Entries.at? k cs) ∧
      ∀ ts, table = some (.map none ts) → ∃ ts' : Entries, cs'.at? (.text "schemas") =
        some (.map none ts') ∧ ∀ k x, Entries.at? k ts = some x → ts'.at? k = some x

section

variable {table : Option Tree} {added : List (String × Tree)} {es : Entries}

theorem bind_get?_of_no_map (hno : ∀ a ts, table ≠ some (.map a ts)) (name : String) :
    table.bind (Tree.get? · name) = none := by
  cases table with
  | none => rfl
  | some u =>
    cases u with
    | map a ts => exact absurd rfl (hno a ts)
    | _ => rfl

/-- Nothing joins. -/
theorem Joins.same (hp : Plain (.map none es)) (hno : ∀ a ts, table ≠ some (.map a ts))
    (hschemas : ∀ name, schemaOf (.map none es) name = none) : Joins table [] es es where
  plain := hp
  others _ _ := rfl
  schemas name := by rw [hschemas, bind_get?_of_no_map hno]; rfl
  components cs hcs := ⟨cs, hcs, fun _ _ => rfl, fun ts hts => absurd hts (hno _ _)⟩

/-- The table of schemas is put in its place. -/
theorem Joins.put (hp : Plain (.map none es)) {cs : Entries}
    (hcs : ∀ cs₀, es.at? (.text "components") = some (.map none cs₀) → cs₀ = cs)
    (hpcs : Plain (.map none cs)) {ts : Entries} (hpts : Plain (.map none ts))
    (hschemas : ∀ name, ts.at? (.text name) = (table.bind (Tree.get? · name)).or (added.lookup name))
    (hts : ∀ ts₀, table = some (.map none ts₀) → ∀ k x,
      Entries.at? k ts₀ = some x → ts.at? k = some x) :
    Joins table added es
      (es.set "components" (.map none (cs.set "schemas" (.map none ts)))) where
  plain := Entries.plain_set hp (Entries.plain_set hpcs hpts)
  others k hk := Entries.at?_put_ne hk _ _
  schemas name := (schemaOf_set _ _ _ _).trans (hschemas name)
  components cs₀ hcs₀ := by
    cases hcs cs₀ hcs₀
    exact ⟨_, Entries.at?_put_self _ _ _, fun k hk => Entries.at?_put_ne hk _ _,
      fun ts₀ hts₀ => ⟨ts, Entries.at?_put_self _ _ _, hts ts₀ hts₀⟩⟩

theorem withSchemas_joins (hp : Plain (.map none es)) (htable : ∀ u, table = some u → Plain u)
    (hadded : ∀ name n, (name, n) ∈ added → Plain n) (hnodup : (added.map (·.1)).Nodup)
    (hmap : ∀ a ts, table = some (.map a ts) → ∃ cs, es.at? (.text "components") = some (.map none cs))
    (hschemas : (∀ a ts, table ≠ some (.map a ts)) → ∀ name, schemaOf (.map none es) name = none)
    (h : withSchemas table added (.map none es) = .ok out) :
    ∃ es', out = .map none es' ∧ Joins table added es es' := by
  have hpcs : ∀ {cs}, es.at? (.text "components") = some (.map none cs) → Plain (.map none cs) :=
    fun hcs => ((plain_map.1 hp).2.2 _ (Entries.mem_of_at? hcs)).2
  rcases withSchemas_cases hp hmap h with
    ⟨cs, a, ts, hcs, ht, rfl⟩ | ⟨hno, ⟨rfl, rfl⟩ | ⟨cs, hcs, rfl⟩⟩
  · obtain ⟨rfl, -⟩ := plain_map.1 (htable _ ht)
    refine ⟨_, rfl, .put hp (fun _ hcs₀ => by cases hcs.symm.trans hcs₀; rfl) (hpcs hcs)
      (plain_joinTable (htable _ ht) hadded) (fun name => ?_) fun ts₀ hts₀ k x hx => ?_⟩
    · rw [at?_joinTable, ht]
      rfl
    · cases ht.symm.trans hts₀
      rw [at?_joinTable, hx]
      rfl
  · exact ⟨es, rfl, .same hp hno (hschemas hno)⟩
  · have hobject : Plain (Tree.object added) :=
      plain_object.2 ⟨hnodup, fun f hf => hadded f.1 f.2 hf⟩
    have hnames : ∀ name, Entries.at? (.text name) (added.map fun f => (.text f.1, f.2)) =
        (table.bind (Tree.get? · name)).or (added.lookup name) := fun name => by
      rw [bind_get?_of_no_map hno, Option.none_or]
      exact at?_object (.text name) _
    refine ⟨_, rfl, .put hp (fun cs₀ hcs₀ => ?_) ?_ hobject hnames fun ts₀ ht => absurd ht (hno _ _)⟩
    · rcases hcs with ⟨hnone, -⟩ | ⟨hcs, -⟩
      · cases hnone.symm.trans hcs₀
      · cases hcs.symm.trans hcs₀
        rfl
    · rcases hcs with ⟨-, rfl⟩ | ⟨hcs, -⟩
      · exact plain_map.2 ⟨rfl, .nil, by simp⟩
      · exact hpcs hcs

end

/-! ## The run -/

/-- What a run over the entries of a description has done to its components and its table of schemas. -/
structure Compares (library : Library) (root : Place) (es es' : Entries) (s s' : State) : Prop where
  valid : Comparable s'
  plain : Plain (.map none es')
  null : ∀ name, declared s' name = some .null → declared s name = some .null
  stands : ∀ name, (standing s name).isSome → (standing s' name).isSome
  isMap : ∀ a ts, s'.table = some (.map a ts) →
    ∃ cs, es'.at? (.text "components") = some (.map none cs)
  noMap : (∀ a ts, s'.table ≠ some (.map a ts)) → ∀ name, schemaOf (.map none es') name = none
  component : ∀ cs k y, es.at? (.text "components") = some (.map none cs) → Entries.at? k cs = some y →
    ∃ cs' y', es'.at? (.text "components") = some (.map none cs') ∧ Entries.at? k cs' = some y' ∧
      Inlines (compared (declared s) (Seen (declared s) (standing s') fun _ => True) library root)
        root (Spot.along .components k) y y'
  entry : ∀ ts, s.table = some (.map none ts) → ∃ ts', s'.table = some (.map none ts') ∧
    ∀ before k rest x, Entries.keys ts = before ++ k :: rest → Entries.at? k ts = some x →
      ∃ x', Entries.at? k ts' = some x' ∧ Inlines (compared (declared s)
          (Seen (declared s) (standing s') fun name => .text name ∈ k :: rest) library root)
        root (.visited .schema) x x'

variable {es es' : Entries}

/-- What is no map does not become one where no visit looks. -/
theorem Inlines.entries?_of_inert {c : Scene} {doc : Place} {t t' : Tree} (h : Inlines c doc .inert t t')
    (hm : t.entries? = none) : t'.entries? = none := by
  cases h with
  | home hr | copied hr | named hr => rw [Spot.refers_inert] at hr; cases hr
  | map => cases hm
  | list => rfl
  | leaf => exact hm

/-- Components that are missing or no map. -/
theorem Compares.same (hp : Plain (.map none es')) (hv : Comparable s)
    (hsame : es'.at? (.text "components") = es.at? (.text "components"))
    (hno : ∀ a cs, es.at? (.text "components") ≠ some (.map a cs))
    (ht : s.table = (es.at? (.text "components")).bind (Tree.get? · "schemas")) :
    Compares library root es es' s s := by
  have hnone : (es.at? (.text "components")).bind (Tree.get? · "schemas") = none :=
    bind_get?_of_no_map hno "schemas"
  rw [hnone] at ht
  refine ⟨hv, hp, fun _ h => h, fun _ h => h, fun a ts hts => ?_, fun _ name => ?_,
    fun cs k y hcs => absurd hcs (hno _ _), fun ts hts => ?_⟩
  · rw [ht] at hts
    cases hts
  · rw [schemaOf_map, hsame, hnone, Option.bind_none]
  · rw [ht] at hts
    cases hts

section

variable {st : Setting}

/-- Components that are a map: first what lies around the table of schemas, then the table. -/
theorem Compares.components (hdocs : ∀ p d, st.library.get p = .ok d → Plain d)
    (hp : Plain (.map none es)) (hv : Comparable s) {cs : Entries}
    (hcs : es.at? (.text "components") = some (.map none cs)) (ht : s.table = cs.at? (.text "schemas"))
    (hkeys : es'.keys = es.keys)
    (hother : ∀ k, k ≠ .text "components" → es'.at? k = es.at? k) {t' : Tree}
    (ht' : es'.at? (.text "components") = some t')
    (h : Edit.andThen (fun t => walk (visitor (follow st [] st.root)) st.sharedDepth t .components)
      (schemas (visitor (follow st [] st.root)) st.sharedDepth) (.map none cs) s = ((t', .ok ()), s')) :
    Compares st.library st.root es es' s s' := by
  have hpcs := ((plain_map.1 hp).2.2 _ (Entries.mem_of_at? hcs)).2
  obtain ⟨u, s₁, h₁, h₂⟩ := Edit.andThen_run h
  obtain ⟨hl, hi⟩ := visits_walk (follows_follow (comparing st.library st.root) hdocs [] st.root)
    st.sharedDepth hpcs .components rfl _ _ _ h₁ hv
  have hv₁ : Comparable s₁ := hl.valid hv
  have hfirst : declared s₁ = declared s := funext hl.declared
  obtain ⟨rfl, hturns⟩ := schemas_turned hdocs hv₁ h₂
  have hpt := hi.plain hdocs rfl hpcs
  obtain ⟨cs', rfl, hk, hg, hat, -⟩ := hi.map_inv rfl
  have hcskeys := keys_eq hk (hg rfl)
  have hplain : Plain (.map none es') :=
    Entries.plain_of_changed hp hkeys hother fun y hy => by cases ht'.symm.trans hy; exact hpt
  have hown : (∀ a ts, s.table ≠ some (.map a ts)) → ∀ name, schemaOf (.map none es') name = none := by
    intro hno name
    have hnone : ∀ a ts, cs'.at? (.text "schemas") ≠ some (.map a ts) := by
      intro a ts hts
      obtain ⟨y, hy⟩ := Entries.exists_at?_of_keys_eq hcskeys.symm hts
      have hentries : y.entries? = none := by
        cases y with
        | map b us => exact absurd (ht.trans hy) (hno b us)
        | _ => rfl
      cases (hat _ y _ hy hts).entries?_of_inert hentries
    rw [schemaOf_map, ht']
    exact bind_get?_of_no_map hnone name
  have hsections : (∀ name e, Stands s₁ name e →
      Seen (declared s) (standing s') (fun _ => True) name e) → ∀ cs₀ k y,
        es.at? (.text "components") = some (.map none cs₀) → Entries.at? k cs₀ = some y →
        ∃ cs' y', es'.at? (.text "components") = some (.map none cs') ∧ Entries.at? k cs' = some y' ∧
          Inlines (compared (declared s) (Seen (declared s) (standing s') fun _ => True) st.library
            st.root) st.root (Spot.along .components k) y y' := by
    intro hseen cs₀ k y hcs₀ hy
    cases hcs.symm.trans hcs₀
    obtain ⟨y', hy'⟩ := Entries.exists_at?_of_keys_eq hcskeys hy
    exact ⟨cs', y', ht', hy', compared_mono (hat k y y' hy hy') (Spot.grows_along _ _) hseen
      fun name hnull => hfirst ▸ hnull⟩
  rcases hturns with ⟨ts, ts', hts, hturned⟩ | ⟨hno, rfl⟩
  · refine ⟨hturned.valid, hplain, fun name hnull => hfirst ▸ hturned.null name hnull,
      fun name hs => hturned.stands name (hl.isSome hs), fun _ _ _ => ⟨cs', ht'⟩,
      fun hno => absurd hturned.table (hno _ _), hsections fun name e he => ?_, fun ts₀ hts₀ => ?_⟩
    · exact (hturned.seen name e he).imp id fun ⟨_, he⟩ => ⟨trivial, hfirst ▸ he⟩
    · cases hts.symm.trans (hl.table.trans hts₀)
      exact ⟨ts', hturned.table, hfirst ▸ hturned.inlined⟩
  · rw [hl.table] at hno
    exact ⟨hv₁, hplain, fun name hnull => hfirst ▸ hnull, fun _ hs => hl.isSome hs, fun _ _ _ => ⟨cs', ht'⟩,
      fun _ => hown hno, hsections fun _ _ => .inl, fun ts hts => absurd hts (hno _ _)⟩

/-- A run over the value under `components`. -/
theorem compares_components (hdocs : ∀ p d, st.library.get p = .ok d → Plain d)
    (hp : Plain (.map none es)) (hv : Comparable s)
    (ht : s.table = (es.at? (.text "components")).bind (Tree.get? · "schemas"))
    (h : Edit.valueIn (.text "components") (Edit.whenMap (Edit.andThen
      (fun t => walk (visitor (follow st [] st.root)) st.sharedDepth t .components)
      (schemas (visitor (follow st [] st.root)) st.sharedDepth))) es s = ((es', .ok ()), s')) :
    Compares st.library st.root es es' s s' ∧
      ∀ k, k ≠ .text "components" → es'.at? k = es.at? k := by
  obtain ⟨hkeys, hother, hat⟩ := Edit.valueIn_run h
  refine ⟨?_, hother⟩
  cases hx : es.at? (.text "components") with
  | none =>
    rw [hx] at hat
    obtain ⟨rfl, rfl⟩ := hat
    exact .same hp hv rfl (by simp [hx]) ht
  | some x =>
    rw [hx] at hat
    obtain ⟨x', hx', hrun⟩ := hat
    have hpx := ((plain_map.1 hp).2.2 _ (Entries.mem_of_at? hx)).2
    rw [Edit.shared_of_anchor hpx.anchor_eq] at hrun
    rcases Edit.whenMap_run hrun with ⟨hm, hrun⟩ | ⟨hm, rfl, rfl⟩
    · cases x with
      | map a cs =>
        obtain ⟨rfl, -⟩ := plain_map.1 hpx
        exact .components hdocs hp hv hx (ht.trans (by rw [hx]; rfl)) hkeys hother hx' hrun
      | _ => cases hm
    · refine .same (Entries.plain_of_changed hp hkeys hother fun y hy => ?_) hv (hx'.trans hx.symm) ?_ ht
      · cases hx'.symm.trans hy
        exact hpx
      · rintro a cs hcs
        cases hx.symm.trans hcs
        cases hm

/-- Schemas that are added later take nothing away. -/
theorem Compares.later {es₁ : Entries} {s₁ : State} (h : Compares library root es es₁ s s₁)
    (hl : Added s₁ s') (hsame : es'.at? (.text "components") = es₁.at? (.text "components"))
    (hp : Plain (.map none es')) : Compares library root es es' s s' := by
  have hseen : ∀ {pending : String → Prop} name e, Seen (declared s) (standing s₁) pending name e →
      Seen (declared s) (standing s') pending name e :=
    fun name e he => he.imp (hl.standing name e) id
  refine ⟨hl.valid h.valid, hp, fun name hnull => h.null name (hl.declared name ▸ hnull),
    fun name hs => hl.isSome (h.stands name hs), fun a ts hts => ?_, fun hno name => ?_,
    fun cs k y hcs hy => ?_, fun ts hts => ?_⟩
  · rw [hsame]
    exact h.isMap a ts (hl.table ▸ hts)
  · rw [hl.table] at hno
    rw [schemaOf_map, hsame, ← schemaOf_map]
    exact h.noMap hno name
  · obtain ⟨cs', y', hcs', hy', hi⟩ := h.component cs k y hcs hy
    exact ⟨cs', y', hsame.trans hcs', hy', compared_mono hi (Spot.grows_along _ _) hseen fun _ => id⟩
  · obtain ⟨ts', hts', hat⟩ := h.entry ts hts
    refine ⟨ts', hl.table.trans hts', fun before k rest x hk hx => ?_⟩
    obtain ⟨x', hx', hi⟩ := hat before k rest x hk hx
    exact ⟨x', hx', compared_mono hi rfl hseen fun _ => id⟩

/-- A run over a description: its components, then its paths, when every name has had its turn. -/
theorem document_compares (hdocs : ∀ p d, st.library.get p = .ok d → Plain d)
    (hp : Plain (.map none es)) (hv : Comparable s)
    (ht : s.table = (es.at? (.text "components")).bind (Tree.get? · "schemas")) {t' : Tree}
    (h : document (visitor (follow st [] st.root)) st.sharedDepth (.map none es) s =
      ((t', .ok ()), s')) :
    ∃ es', t' = .map none es' ∧ Compares st.library st.root es es' s s' ∧
      ∀ p, es.at? (.text "paths") = some p → ∃ p', Entries.at? (.text "paths") es' = some p' ∧
        Inlines (compared (declared s) (Seen (declared s) (standing s') fun _ => False) st.library
          st.root) st.root (.visited (.mapOf .pathItem)) p p' := by
  have hfollows := follows_follow (comparing st.library st.root) hdocs [] st.root
  obtain ⟨u, s₁, h₁, h₂⟩ := Edit.andThen_run h
  obtain ⟨⟨es₁, r⟩, s₂, h₁, h₁'⟩ := bind_run.1 h₁
  obtain ⟨heq, rfl⟩ := pure_run.1 h₁'
  cases heq
  obtain ⟨hcompares, hsame⟩ := compares_components hdocs hp hv ht h₁
  have hpl : ∀ {k x}, es₁.at? k = some x → Plain x := fun hx =>
    ((plain_map.1 hcompares.plain).2.2 _ (Entries.mem_of_at? hx)).2
  obtain ⟨hl, es₂, rfl, hkeys, hother, hat⟩ := visits_value
    (fun x hx => visits_whenMap hfollows hx st.sharedDepth) (fun x hx => hpl hx) h₂ hcompares.valid
  have hplain : Plain (.map none es₂) :=
    Entries.plain_of_changed hcompares.plain hkeys hother fun y hy => by
      obtain ⟨x, hx⟩ := Entries.exists_at?_of_keys_eq hkeys.symm hy
      exact (hat x y hx hy).plain hdocs rfl (hpl hx)
  have hlater := hcompares.later hl (hother _ (by decide)) hplain
  refine ⟨es₂, rfl, hlater, fun p hpath => ?_⟩
  have hpath₁ := (hsame (.text "paths") (by decide)).trans hpath
  obtain ⟨p', hp'⟩ := Entries.exists_at?_of_keys_eq hkeys hpath₁
  exact ⟨p', hp', compared_mono (hat p p' hpath₁ hp') rfl (fun _ _ => .inl) hlater.null⟩

end

/-! ## The result -/

/-- The scene that a description and what has become of it make, while the turns of some names are
pending. -/
def seenWhile (library : Library) (root : Place) (t out : Tree) (pending : String → Prop) : Scene :=
  compared (schemaOf t) (Seen (schemaOf t) (schemaOf out) pending) (library.add root t) root

theorem seenWhile_mono {pending pending' : String → Prop} {doc : Place} {spot : Spot} {x y : Tree}
    (hi : Inlines (seenWhile library root t out pending) doc spot x y) (hs : spot.grows = false)
    (hpending : ∀ name, pending name → pending' name) :
    Inlines (seenWhile library root t out pending') doc spot x y :=
  compared_mono hi hs (fun name _ he => he.imp id fun ⟨hm, he⟩ => ⟨hpending name hm, he⟩) fun _ => id

/-- What the three stages of inlining make of a description with entries `es`. -/
structure Stages (library : Library) (root : Place) (es : Entries) (out : Tree) (es' : Entries) :
    Prop where
  out_eq : out = .map none es'
  plain : Plain out
  names : ∀ name, (schemaOf (.map none es) name).isSome → (schemaOf out name).isSome
  component : ∀ cs k y, es.at? (.text "components") = some (.map none cs) → k ≠ .text "schemas" →
    Entries.at? k cs = some y → ∃ cs' y', es'.at? (.text "components") = some (.map none cs') ∧
      Entries.at? k cs' = some y' ∧ Inlines (seenWhile library root (.map none es) out fun _ => True)
        root (Spot.along .components k) y y'
  entry : ∀ cs ts before k rest x, es.at? (.text "components") = some (.map none cs) →
    Entries.at? (.text "schemas") cs = some (.map none ts) →
    Entries.keys ts = before ++ k :: rest → Entries.at? k ts = some x →
    ∃ cs' ts' x', es'.at? (.text "components") = some (.map none cs') ∧
      Entries.at? (.text "schemas") cs' = some (.map none ts') ∧ Entries.at? k ts' = some x' ∧
      Inlines (seenWhile library root (.map none es) out fun name => .text name ∈ k :: rest)
        root (.visited .schema) x x'
  paths : ∀ p, es.at? (.text "paths") = some p → ∃ p', es'.at? (.text "paths") = some p' ∧
    Inlines (seenWhile library root (.map none es) out fun _ => False)
      root (.visited (.mapOf .pathItem)) p p'

/-- Inlining goes through three stages. -/
theorem stages_inlineReferences (hdocs : ∀ p d, library.get p = .ok d → Plain d)
    (hp : Plain (.map none es)) (h : inlineReferences library root (.map none es) = .ok out) :
    ∃ es', Stages library root es out es' := by
  obtain ⟨t', s', table, s'', t'', h₁, h₂, h₃, rfl⟩ := inlineReferences_run h
  have hget : ∀ p d, (setting library root (.map none es)).library.get p = .ok d → Plain d :=
    plain_add hdocs hp
  have hstart : Comparable (start (.map none es)) := by
    refine ⟨rfl, fun u hu => ?_, fun _ _ hm => absurd hm List.not_mem_nil, List.nodup_nil⟩
    obtain ⟨x, hx, hu⟩ := Option.bind_eq_some_iff.1 hu
    exact hp.down (l := ["components", "schemas"]) (by simp [Tree.down?, hx, hu])
  obtain ⟨es₁, rfl, hcompares, hpaths⟩ := document_compares hget hp hstart
    (by rw [← Entries.get?_eq_at?]; rfl) h₁
  rw [presentTable_run hcompares.valid.records] at h₂
  cases h₂
  obtain ⟨es', rfl, hjoins⟩ := withSchemas_joins hcompares.plain hcompares.valid.table
    (fun name n hm => (hcompares.valid.added name n hm).1) hcompares.valid.nodup hcompares.isMap
    hcompares.noMap h₃
  have hfinal : schemaOf (.map none es') = standing s' := funext hjoins.schemas
  rw [hcompares.valid.records, settle_recorded hjoins.plain]
  refine ⟨es', rfl, hjoins.plain, fun name hs => ?_, fun cs k y hcs hk hy => ?_,
    fun cs ts before k rest x hcs hts hkeys hx => ?_, fun p hpath => ?_⟩
  · rw [hfinal]
    refine hcompares.stands name ?_
    rw [standing, Option.isSome_or]
    exact Bool.or_eq_true_iff.2 (.inl hs)
  · obtain ⟨cs₁, y', hcs₁, hy', hi⟩ := hcompares.component cs k y hcs hy
    obtain ⟨cs', hcs', hother, -⟩ := hjoins.components cs₁ hcs₁
    exact ⟨cs', y', hcs', (hother k hk).trans hy', by rw [seenWhile, hfinal]; exact hi⟩
  · have htable : (start (.map none es)).table = some (.map none ts) := by
      show ((es.get? "components").bind (Tree.get? · "schemas")) = _
      rw [Entries.get?_eq_at?, hcs]
      exact hts
    obtain ⟨ts₁, hts₁, hat⟩ := hcompares.entry ts htable
    obtain ⟨cs₁, hcs₁⟩ := hcompares.isMap none ts₁ hts₁
    obtain ⟨cs', hcs', -, hschemas⟩ := hjoins.components cs₁ hcs₁
    obtain ⟨ts', hts', hkept⟩ := hschemas ts₁ hts₁
    obtain ⟨x', hx', hi⟩ := hat before k rest x hkeys hx
    exact ⟨cs', ts', x', hcs', hts', hkept k x' hx', by rw [seenWhile, hfinal]; exact hi⟩
  · obtain ⟨p', hp', hi⟩ := hpaths p hpath
    exact ⟨p', (hjoins.others _ (by decide)).trans hp', by rw [seenWhile, hfinal]; exact hi⟩

end ApiContract.Inline
