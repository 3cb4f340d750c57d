import ApiContract.Proofs.Inline.Table

/-!
# Inlining a description

`inlines_inlineReferences`: what `inlineReferences` returns is what inlining may make of the description,
where the names of the scene are those of the table of schemas in the result. The result is plain.

The table of schemas is kept apart while inlining runs and joined with the added schemas at the end
(`withSchemas_cases`). `joinTable` puts no schema in the place of one that is there.
-/

namespace ApiContract.Inline

open Tree Walk

/-- The schema of a name in the table of a description. -/
def schemaOf (t : Tree) (name : String) : Option Tree :=
  ((t.get? "components").bind (Tree.get? · "schemas")).bind (Tree.get? · name)

/-! ## Joining the added schemas -/

/-- What added schemas put under a key. -/
def underKey (added : List (String × Tree)) : Scalar → Option Tree
  | .text name => added.lookup name
  | _ => none

theorem underKey_cons (name : String) (n : Tree) (added : List (String × Tree)) (k : Scalar) :
    underKey ((name, n) :: added) k = if k = .text name then some n else underKey added k := by
  cases k with
  | text other =>
    by_cases h : other = name
    · simp [h, underKey]
    · simp [h, underKey, List.lookup_cons, beq_false_of_ne h]
  | _ => simp [underKey]

theorem at?_object (k : Scalar) :
    ∀ added : List (String × Tree),
      Entries.at? k (added.map fun f => (.text f.1, f.2)) = underKey added k
  | [] => by cases k <;> rfl
  | (name, n) :: added => by
    rw [List.map_cons, Entries.at?_cons, at?_object k added, underKey_cons]
    simp only [eq_comm]

/-- The schemas of the table come first. -/
theorem at?_joinTable (k : Scalar) :
    ∀ (added : List (String × Tree)) (es : Entries),
      (joinTable added es).at? k = (es.at? k).or (underKey added k)
  | [], es => by cases k <;> simp [joinTable, underKey]
  | (name, n) :: added, es => by
    show (joinTable added (if es.has name then es else es.set name n)).at? k = _
    rw [at?_joinTable k added, underKey_cons]
    cases hx : es.at? (.text name) with
    | some x =>
      have hhas : es.has name = true := by rw [Entries.has, Entries.get?_eq_at?, hx]; rfl
      rw [if_pos hhas]
      split
      · rename_i hk
        rw [hk, hx]
        rfl
      · rfl
    | none =>
      have hhas : ¬ es.has name = true := by rw [Entries.has, Entries.get?_eq_at?, hx]; simp
      rw [if_neg hhas, Entries.set]
      split
      · rename_i hk
        rw [hk, Entries.at?_put_self, hx]
        rfl
      · rename_i hk
        rw [Entries.at?_put_ne hk]

theorem keys_prefix_joinTable :
    ∀ (added : List (String × Tree)) (es : Entries), es.keys <+: (joinTable added es).keys
  | [], es => List.prefix_refl _
  | (name, n) :: added, es => by
    show _ <+: (joinTable added (if es.has name then es else es.set name n)).keys
    refine List.IsPrefix.trans ?_ (keys_prefix_joinTable added _)
    split
    · exact List.prefix_refl _
    · exact Entries.keys_prefix_put _ _ _

theorem plain_joinTable :
    ∀ {added : List (String × Tree)} {es : Entries}, Plain (.map none es) →
      (∀ name n, (name, n) ∈ added → Plain n) → Plain (.map none (joinTable added es))
  | [], es, hes, _ => hes
  | (name, n) :: added, es, hes, hadded => by
    show Plain (.map none (joinTable added (if es.has name then es else es.set name n)))
    refine plain_joinTable ?_ fun name n hm => hadded name n (List.mem_cons_of_mem _ hm)
    split
    · exact hes
    · exact Entries.plain_set hes (hadded name n List.mem_cons_self)

/-- The added schemas join a table that is there or make one, if there are any. -/
theorem withSchemas_cases {table : Option Tree} {added : List (String × Tree)} {es : Entries} {out : Tree}
    (hp : Plain (.map none es))
    (hmap : ∀ a ts, table = some (.map a ts) → ∃ cs, es.at? (.text "components") = some (.map none cs))
    (h : withSchemas table added (.map none es) = .ok out) :
    (∃ (cs : Entries) (a : Anchor) (ts : Entries),
      es.at? (.text "components") = some (.map none cs) ∧ table = some (.map a ts) ∧
      out = .map none
        (es.set "components" (.map none (cs.set "schemas" (.map a (joinTable added ts)))))) ∨
    (∀ a ts, table ≠ some (.map a ts)) ∧
      ((added = [] ∧ out = .map none es) ∨
        ∃ cs : Entries, (es.at? (.text "components") = none ∧ cs = [] ∨
            es.at? (.text "components") = some (.map none cs) ∧ table = none) ∧
          out = .map none
            (es.set "components" (.map none (cs.set "schemas" (Tree.object added))))) := by
  have hno : ∀ b cs, es.at? (.text "components") = some (.map b cs) → b = none := fun b cs hcs =>
    (plain_map.1 ((plain_map.1 hp).2.2 _ (Entries.mem_of_at? hcs)).2).1
  simp only [withSchemas, Entries.get?_eq_at?] at h
  by_cases htable : ∃ a ts, table = some (.map a ts)
  · obtain ⟨a, ts, rfl⟩ := htable
    obtain ⟨cs, hcs⟩ := hmap a ts rfl
    rw [hcs] at h
    exact .inl ⟨cs, a, ts, hcs, rfl, (Except.ok.inj h).symm⟩
  · have htable : ∀ a ts, table ≠ some (.map a ts) := fun a ts ht => htable ⟨a, ts, ht⟩
    refine .inr ⟨htable, ?_⟩
    cases hc : es.at? (.text "components") with
    | none =>
      rw [hc] at h
      cases added with
      | nil => exact .inl ⟨rfl, (Except.ok.inj h).symm⟩
      | cons entry added => exact .inr ⟨[], .inl ⟨rfl, rfl⟩, (Except.ok.inj h).symm⟩
    | some x =>
      rw [hc] at h
      cases added with
      | nil =>
        refine .inl ⟨rfl, ?_⟩
        cases x with
        | map b cs =>
          rcases table with _ | u
          · exact (Except.ok.inj h).symm
          · cases u with
            | map a ts => exact absurd rfl (htable a ts)
            | _ => exact (Except.ok.inj h).symm
        | _ => exact (Except.ok.inj h).symm
      | cons entry added =>
        cases x with
        | map b cs =>
          obtain rfl := hno b cs hc
          rcases table with _ | u
          · exact .inr ⟨cs, .inr ⟨rfl, rfl⟩, (Except.ok.inj h).symm⟩
          · cases u with
            | map a ts => exact absurd rfl (htable a ts)
            | _ => cases h
        | _ => cases h

@[simp] theorem lone_object {fields : List (String × Tree)} :
    Lone (Tree.object fields) ↔
      (((fields.lookup "$ref").bind Tree.text?).isSome → fields.length = 1) ∧
        ∀ f ∈ fields, Lone f.2 := by
  rw [Tree.object, lone_map, Reference.ofTree?_map, at?_object, List.forall_mem_map, List.length_map]
  rfl

@[simp] theorem get?_object (fields : List (String × Tree)) (key : String) :
    (Tree.object fields).get? key = fields.lookup key :=
  at?_object (.text key) fields

/-! ## The scene of the result -/

/-- What joins a description: foreign schemas in its table, with what lies around the table where it
is new. -/
def Joined (c : Scene) : Spot → Scalar → Tree → Prop
  | .table, _, x => Foreign c x
  | .components, k, x => k = .text "schemas" ∧ ∃ added : List (String × Tree),
      x = Tree.object added ∧ ∀ name n, (name, n) ∈ added → Foreign c n
  | .document, k, x => k = .text "components" ∧ ∃ added : List (String × Tree),
      x = Tree.object [("schemas", Tree.object added)] ∧
        ∀ name n, (name, n) ∈ added → Foreign c n
  | _, _, _ => False

/-- A scene in which foreign schemas join the table. -/
def joined (c : Scene) : Scene := { c with joins := Joined c }

variable {c : Scene} {doc : Place}

theorem Inlines.to_joined {spot : Spot} {t t' : Tree} (h : Inlines c doc spot t t')
    (hs : spot.grows = false) : Inlines (joined c) doc spot t t' :=
  Inlines.mono (c := c) (d := joined c) rfl rfl (fun _ _ h => h) (fun _ _ h => h) h hs

/-- Entries of which one key may be new. -/
theorem inlines_grown {spot : Spot} (hs : spot.grows = true) {key : String} {es es' es'' : Entries}
    (hkeys : es'.keys = es.keys) (hgrown : es'.keys <+: es''.keys)
    (hother : ∀ k, k ≠ .text key → es''.at? k = es'.at? k)
    (hat : ∀ k x x', k ≠ .text key → es.at? k = some x → es'.at? k = some x' →
      Inlines c doc (spot.part k) x x')
    (hkey : ∀ x x', es.at? (.text key) = some x → es''.at? (.text key) = some x' →
      Inlines c doc (spot.part (.text key)) x x')
    (hj : es.at? (.text key) = none → ∀ x, es''.at? (.text key) = some x →
      c.joins spot (.text key) x) :
    Inlines c doc spot (.map none es) (.map none es'') := by
  refine .map ?_ (hkeys ▸ hgrown) (fun h => ?_) (fun k x x' hx hx' => ?_) fun k x hx hx' => ?_
  · cases spot with
    | document | components | table => rfl
    | _ => cases hs
  · rw [hs] at h
    cases h
  · by_cases hk : k = .text key
    · subst hk
      exact hkey x x' hx hx'
    · rw [hother k hk] at hx'
      exact hat k x x' hk hx hx'
  · by_cases hk : k = .text key
    · subst hk
      exact hj hx x hx'
    · rw [hother k hk, (Entries.at?_eq_none_congr hkeys).2 hx] at hx'
      cases hx'

theorem inlines_table {es es' : Entries} {added : List (String × Tree)} (hkeys : es'.keys = es.keys)
    (hat : ∀ k x x', es.at? k = some x → es'.at? k = some x' →
      Inlines c doc (.visited .schema) x x')
    (hadded : ∀ name n, (name, n) ∈ added → Foreign c n) :
    Inlines (joined c) doc .table (.map none es) (.map none (joinTable added es')) := by
  refine .map rfl (hkeys ▸ keys_prefix_joinTable added es') (fun h => by cases h)
    (fun k x x' hx hx' => ?_) fun k x hx hx' => ?_
  · obtain ⟨y, hy⟩ := Entries.exists_at?_of_keys_eq hkeys hx
    rw [at?_joinTable, hy] at hx'
    cases hx'
    exact (hat k x x' hx hy).to_joined rfl
  · rw [at?_joinTable, (Entries.at?_eq_none_congr hkeys).2 hx, Option.none_or] at hx'
    cases k with
    | text name => exact hadded name x (mem_of_lookup hx')
    | _ => cases hx'

/-! ## The run -/

/-- What has become of a table of schemas: the schemas of a map are inlined. -/
structure TableDone (library : Library) (root : Place) (table : Option Tree) (s : State) : Prop where
  map : ∀ ts : Entries, table = some (.map none ts) → ∃ ts' : Entries,
    s.table = some (.map none ts') ∧ ts'.keys = ts.keys ∧
      ∀ k x x', ts.at? k = some x → ts'.at? k = some x' →
        Inlines (scene library root s) root (.visited .schema) x x'
  noMap : (∀ a ts, table ≠ some (.map a ts)) → s.table = table

theorem TableDone.cases {table : Option Tree} {s : State} (h : TableDone library root table s)
    (hp : ∀ u, table = some u → Plain u) :
    (∃ ts ts' : Entries, table = some (.map none ts) ∧ s.table = some (.map none ts') ∧
      ts'.keys = ts.keys ∧ ∀ k x x', ts.at? k = some x → ts'.at? k = some x' →
        Inlines (scene library root s) root (.visited .schema) x x') ∨
      (∀ a ts, s.table ≠ some (.map a ts)) ∧ s.table = table := by
  by_cases hmap : ∃ a ts, table = some (.map a ts)
  · obtain ⟨a, ts, hts⟩ := hmap
    obtain ⟨rfl, -⟩ := plain_map.1 (hp _ hts)
    obtain ⟨ts', hts', hkeys, hat⟩ := h.map ts hts
    exact .inl ⟨ts, ts', hts, hts', hkeys, hat⟩
  · have hno : ∀ a ts, table ≠ some (.map a ts) := fun a ts hts => hmap ⟨a, ts, hts⟩
    exact .inr ⟨(h.noMap hno).symm ▸ hno, h.noMap hno⟩

/-- What has become of a description's components and of its table of schemas. -/
structure ComponentsDone (library : Library) (root : Place) (es : Entries) (s : State)
    (es' : Entries) : Prop where
  keys : es'.keys = es.keys
  components : ∀ x x', es.at? (.text "components") = some x →
    es'.at? (.text "components") = some x' → ∃ cs cs' : Entries, x = .map none cs ∧
      x' = .map none cs' ∧ cs'.keys = cs.keys ∧ ∀ k y y', cs.at? k = some y → cs'.at? k = some y' →
        Inlines (scene library root s) root (Spot.along .components k) y y'
  table : TableDone library root
    ((es.at? (.text "components")).bind (Tree.get? · "schemas")) s
  valid : Valid library root s
  plain : Plain (.map none es')

/-- What has become of a description's entries and of its table of schemas. -/
structure Worked (library : Library) (root : Place) (es : Entries) (s : State) (es' : Entries) : Prop
    extends ComponentsDone library root es s es' where
  others : ∀ k x x', k ≠ .text "components" → es.at? k = some x → es'.at? k = some x' →
    Inlines (scene library root s) root (Spot.document.part k) x x'

variable {library : Library} {root : Place} {s : State} {es es' : Entries} {out : Tree}

theorem Worked.document (hw : Worked library root es s es') {es'' : Entries}
    (hgrown : es'.keys <+: es''.keys)
    (hother : ∀ k, k ≠ .text "components" → es''.at? k = es'.at? k)
    (hkey : ∀ x x', es.at? (.text "components") = some x → es''.at? (.text "components") = some x' →
      Inlines (joined (scene library root s)) root .components x x')
    (hj : es.at? (.text "components") = none → ∀ x, es''.at? (.text "components") = some x →
      Joined (scene library root s) .document (.text "components") x) :
    Inlines (joined (scene library root s)) root .document (.map none es) (.map none es'') := by
  refine inlines_grown rfl hw.keys hgrown hother (fun k x x' hk hx hx' => ?_) hkey hj
  refine (hw.others k x x' hk hx hx').to_joined ?_
  simp only [Spot.part, if_neg hk]
  split <;> rfl

theorem inlines_components {cs cs' cs'' : Entries} (hkeys : cs'.keys = cs.keys)
    (hat : ∀ k y y', cs.at? k = some y → cs'.at? k = some y' →
      Inlines c doc (Spot.along .components k) y y')
    (hgrown : cs'.keys <+: cs''.keys)
    (hother : ∀ k, k ≠ .text "schemas" → cs''.at? k = cs'.at? k)
    (hkey : ∀ y y', cs.at? (.text "schemas") = some y → cs''.at? (.text "schemas") = some y' →
      Inlines (joined c) doc .table y y')
    (hj : cs.at? (.text "schemas") = none → ∀ y, cs''.at? (.text "schemas") = some y →
      Joined c .components (.text "schemas") y) :
    Inlines (joined c) doc .components (.map none cs) (.map none cs'') := by
  refine inlines_grown rfl hkeys hgrown hother (fun k y y' hk hy hy' => ?_) hkey hj
  simp only [Spot.part, if_neg hk]
  exact (hat k y y' hy hy').to_joined (Spot.grows_along _ _)

theorem schemaOf_map (es : Entries) (name : String) : schemaOf (.map none es) name =
    ((es.at? (.text "components")).bind (Tree.get? · "schemas")).bind (Tree.get? · name) := by
  rw [← Entries.get?_eq_at?]
  rfl

theorem schemaOf_set (es cs : Entries) (table : Tree) (name : String) :
    schemaOf (.map none (es.set "components" (.map none (cs.set "schemas" table)))) name =
      table.get? name := by
  simp [schemaOf, Tree.get?, Tree.entries?, Entries.get?_eq_at?, Entries.set]

/-- What a description is in the end: what inlining may make of it, with the names of the run. -/
def Ends (library : Library) (root : Place) (es : Entries) (s : State) (out : Tree) : Prop :=
  Inlines (joined (scene library root s)) root .document (.map none es) out ∧
    (∀ name, schemaOf out name = entry s name) ∧ Plain out

/-- A description without components, where the added schemas are all of the table. -/
theorem Worked.ends_new (hw : Worked library root es s es')
    (hnone : es.at? (.text "components") = none) (htable : s.table = none) :
    Ends library root es s (.map none
      (es'.set "components" (Tree.object [("schemas", Tree.object s.added)]))) := by
  refine ⟨hw.document (Entries.keys_prefix_put _ _ _) (fun k hk => Entries.at?_put_ne hk _ _)
    (fun x x' hx => by rw [hnone] at hx; cases hx) (fun _ x hx => ?_),
    fun name => ?_, Entries.plain_set hw.plain ?_⟩
  · rw [Entries.set, Entries.at?_put_self] at hx
    cases hx
    exact ⟨rfl, s.added, rfl, fun name n hm => (hw.valid.added name n hm).2⟩
  · rw [show Tree.object [("schemas", Tree.object s.added)]
      = .map none (Entries.set [] "schemas" (Tree.object s.added)) from rfl, schemaOf_set, entry,
      htable, Option.bind_none, Option.or_none]
    exact at?_object (.text name) s.added
  · refine plain_object.2 ⟨by simp, fun f hf => ?_⟩
    cases List.mem_singleton.1 hf
    exact plain_object.2 ⟨hw.valid.nodup, fun f hf => (hw.valid.added f.1 f.2 hf).1⟩

/-- Nothing joins a description without components. -/
theorem Worked.ends_none (hw : Worked library root es s es')
    (hnone : es.at? (.text "components") = none) (htable : s.table = none) (hadded : s.added = []) :
    Ends library root es s (.map none es') := by
  have hnone' : es'.at? (.text "components") = none := (Entries.at?_eq_none_congr hw.keys).2 hnone
  refine ⟨hw.document (List.prefix_refl _) (fun _ _ => rfl)
    (fun x x' hx => by rw [hnone] at hx; cases hx)
    (fun _ x hx => by rw [hnone'] at hx; cases hx),
    fun name => ?_, hw.plain⟩
  simp [schemaOf, Tree.get?, Tree.entries?, Entries.get?_eq_at?, hnone', entry, hadded, htable]

section

variable {cs cs' : Entries}

/-- The table in its final form takes the place of the one that was there. -/
theorem Worked.ends_table (hw : Worked library root es s es')
    (hx : es.at? (.text "components") = some (.map none cs))
    (hx' : es'.at? (.text "components") = some (.map none cs')) (hkeys : cs'.keys = cs.keys)
    (hat : ∀ k y y', cs.at? k = some y → cs'.at? k = some y' →
      Inlines (scene library root s) root (Spot.along .components k) y y')
    {table : Tree} (hplain : Plain table) (hentry : ∀ name, table.get? name = entry s name)
    (htable : ∀ y, cs.at? (.text "schemas") = some y →
      Inlines (joined (scene library root s)) root .table y table)
    (hnew : cs.at? (.text "schemas") = none →
      Joined (scene library root s) .components (.text "schemas") table) :
    Ends library root es s
      (.map none (es'.set "components" (.map none (cs'.set "schemas" table)))) := by
  have hpcs' := ((plain_map.1 hw.plain).2.2 _ (Entries.mem_of_at? hx')).2
  refine ⟨hw.document (Entries.keys_prefix_put _ _ _) (fun k hk => Entries.at?_put_ne hk _ _)
    (fun y y' hy hy' => ?_) (fun hnone => by rw [hnone] at hx; cases hx),
    fun name => (schemaOf_set _ _ _ _).trans (hentry name),
    Entries.plain_set hw.plain (Entries.plain_set hpcs' hplain)⟩
  rw [Entries.set, Entries.at?_put_self] at hy'
  cases hy'
  cases hx.symm.trans hy
  refine inlines_components hkeys hat (Entries.keys_prefix_put _ _ _)
    (fun k hk => Entries.at?_put_ne hk _ _) (fun y y' hy hy' => ?_) fun hnone y hy => ?_
  · rw [Entries.set, Entries.at?_put_self] at hy'
    cases hy'
    exact htable y hy
  · rw [Entries.set, Entries.at?_put_self] at hy
    cases hy
    exact hnew hnone

/-- Nothing joins a table that is missing or no map. -/
theorem Worked.ends_kept (hw : Worked library root es s es') (hes : Plain (.map none es))
    (hlone : Lone (.map none es)) (hx : es.at? (.text "components") = some (.map none cs))
    (hx' : es'.at? (.text "components") = some (.map none cs')) (hkeys : cs'.keys = cs.keys)
    (hat : ∀ k y y', cs.at? k = some y → cs'.at? k = some y' →
      Inlines (scene library root s) root (Spot.along .components k) y y')
    (hadded : s.added = []) (htable : s.table = cs.at? (.text "schemas"))
    (hno : ∀ a ts, s.table ≠ some (.map a ts)) : Ends library root es s (.map none es') := by
  have hmem := Entries.mem_of_at? hx
  have hpcs := ((plain_map.1 hes).2.2 _ hmem).2
  have hlcs := (lone_map.1 hlone).2 _ hmem
  have hsame : ∀ y y', cs.at? (.text "schemas") = some y → cs'.at? (.text "schemas") = some y' →
      y' = y := fun y y' hy hy' =>
    have hmem := Entries.mem_of_at? hy
    (hat _ y y' hy hy').eq_of_inert ((plain_map.1 hpcs).2.2 _ hmem).2 ((lone_map.1 hlcs).2 _ hmem)
  refine ⟨hw.document (List.prefix_refl _) (fun _ _ => rfl) (fun y y' hy hy' => ?_)
    (fun hnone => by rw [hnone] at hx; cases hx), fun name => ?_, hw.plain⟩
  · cases hx.symm.trans hy
    cases hx'.symm.trans hy'
    refine inlines_components hkeys hat (List.prefix_refl _) (fun _ _ => rfl)
      (fun y y' hy hy' => ?_) fun hnone y hy => ?_
    · rw [hsame y y' hy hy']
      refine inlines_of_not_map ?_ rfl rfl
      cases y with
      | map a ts => exact absurd (htable.trans hy) (hno a ts)
      | _ => rfl
    · rw [(Entries.at?_eq_none_congr hkeys).2 hnone] at hy
      cases hy
  · have hsame' : cs'.at? (.text "schemas") = s.table := by
      rw [htable]
      cases hy : cs.at? (.text "schemas") with
      | none => exact (Entries.at?_eq_none_congr hkeys).2 hy
      | some y =>
        obtain ⟨y', hy'⟩ := Entries.exists_at?_of_keys_eq hkeys hy
        rw [hy', hsame y y' hy hy']
    simp [schemaOf, Tree.get?, Tree.entries?, Entries.get?_eq_at?, hx', hsame', entry, hadded]

end

/-- The added schemas join the table. -/
theorem Worked.get?_joinTable (hw : Worked library root es s es') {a : Anchor} {ts : Entries}
    (hts : s.table = some (.map a ts)) (name : String) :
    (Tree.map a (joinTable s.added ts)).get? name = entry s name := by
  show Entries.at? (.text name) (joinTable s.added ts) = _
  rw [at?_joinTable, entry, hts]
  show (Entries.at? (.text name) ts).or (s.added.lookup name)
    = (s.added.lookup name).or (Entries.at? (.text name) ts)
  cases hl : s.added.lookup name with
  | none => rw [Option.or_none, Option.none_or]
  | some n =>
    have hfresh : Entries.at? (.text name) ts = none := hw.valid.fresh _ name n hts (mem_of_lookup hl)
    rw [hfresh, Option.none_or, Option.some_or]

/-- What a description with its table of schemas is, once the added schemas have joined. -/
theorem Worked.ends (hw : Worked library root es s es') (hes : Plain (.map none es))
    (hlone : Lone (.map none es)) (h : withSchemas s.table s.added (.map none es') = .ok out) :
    Ends library root es s out := by
  have hforeign : ∀ name n, (name, n) ∈ s.added → Foreign (scene library root s) n :=
    fun name n hm => (hw.valid.added name n hm).2
  have hplain : ∀ name n, (name, n) ∈ s.added → Plain n :=
    fun name n hm => (hw.valid.added name n hm).1
  cases hx : es.at? (.text "components") with
  | none =>
    have hnone' := (Entries.at?_eq_none_congr hw.keys).2 hx
    have htable : s.table = none := by simpa [hx] using hw.table.noMap (by simp [hx])
    rcases withSchemas_cases hw.plain (by simp [htable]) h with ⟨_, _, _, -, hts, -⟩ |
      ⟨-, ⟨hadded, rfl⟩ | ⟨cs, ⟨-, rfl⟩ | ⟨hcs, -⟩, rfl⟩⟩
    · cases htable.symm.trans hts
    · exact hw.ends_none hx htable hadded
    · exact hw.ends_new hx htable
    · cases hnone'.symm.trans hcs
  | some x =>
    obtain ⟨x', hx'⟩ := Entries.exists_at?_of_keys_eq hw.keys hx
    obtain ⟨cs, cs', rfl, rfl, hkeys, hat⟩ := hw.components x x' hx hx'
    have hpcs := ((plain_map.1 hes).2.2 _ (Entries.mem_of_at? hx)).2
    have htable : TableDone library root (cs.at? (.text "schemas")) s := by
      have h := hw.table
      rwa [hx] at h
    rcases htable.cases fun u hu => ((plain_map.1 hpcs).2.2 _ (Entries.mem_of_at? hu)).2 with
      ⟨ts, ts', hts, hts', htkeys, htat⟩ | ⟨hno, hsame⟩
    · rcases withSchemas_cases hw.plain (fun _ _ _ => ⟨cs', hx'⟩) h with
        ⟨_, _, _, hcs, ht, rfl⟩ | ⟨hno, -⟩
      · cases hx'.symm.trans hcs
        cases hts'.symm.trans ht
        refine hw.ends_table hx hx' hkeys hat (plain_joinTable (hw.valid.table _ hts') hplain)
          (hw.get?_joinTable hts') (fun y hy => ?_) fun hnone => by rw [hnone] at hts; cases hts
        cases hts.symm.trans hy
        exact inlines_table htkeys htat hforeign
      · exact absurd hts' (hno _ _)
    · rcases withSchemas_cases hw.plain (fun a ts ht => absurd ht (hno a ts)) h with
        ⟨_, _, _, -, ht, -⟩ | ⟨-, ⟨hadded, rfl⟩ | ⟨_, ⟨hcs, -⟩ | ⟨hcs, ht⟩, rfl⟩⟩
      · exact absurd ht (hno _ _)
      · exact hw.ends_kept hes hlone hx hx' hkeys hat hadded hsame hno
      · cases hx'.symm.trans hcs
      · cases hx'.symm.trans hcs
        have hts := hsame.symm.trans ht
        refine hw.ends_table hx hx' hkeys hat
          (plain_object.2 ⟨hw.valid.nodup, fun f hf => hplain f.1 f.2 hf⟩) (fun name => ?_)
          (fun y hy => by rw [hts] at hy; cases hy) fun _ => ⟨rfl, s.added, rfl, hforeign⟩
        rw [entry, ht, Option.bind_none, Option.or_none]
        exact at?_object (.text name) s.added

/-! ## The run of a description -/

section

variable {st : Setting} {s' : State}

/-- The table after its schemas have been inlined one after the other. -/
theorem schemas_run (hdocs : ∀ p d, st.library.get p = .ok d → Plain d)
    (hlone : ∀ t, s.table = some t → Lone t) {t t' : Tree}
    (h : schemas (visitor (follow st [] st.root)) st.sharedDepth t s = ((t', .ok ()), s'))
    (hv : Valid st.library st.root s) :
    t' = t ∧ Knows s s' ∧ Valid st.library st.root s' ∧
      TableDone st.library st.root s.table s' := by
  obtain ⟨rfl, hrun⟩ := schemas_cases hv.records h
  by_cases hmap : ∃ ts, s.table = some (.map none ts)
  · obtain ⟨ts, hts⟩ := hmap
    rw [hts] at hrun
    obtain ⟨-, hd, -⟩ := plain_map.1 (hv.table _ hts)
    have hstart : Partly (scene st.library st.root s) (ts.map (·.1)) ts ts :=
      ⟨rfl, fun _ _ => rfl, fun k x x' hk hx => absurd (List.mem_map_of_mem (Entries.mem_of_at? hx)) hk⟩
    obtain ⟨hknows, hv', ts', hts', hpart⟩ := schemasFrom_run hdocs
      (fun k x hx => (lone_map.1 (hlone _ hts)).2 _ (Entries.mem_of_at? hx)) hd.nodup
      (fun _ hk => hk) hts hstart hrun hv
    refine ⟨rfl, hknows, hv', ⟨fun us hus => ?_, fun hno => absurd hts (hno none ts)⟩⟩
    cases hts.symm.trans hus
    exact ⟨ts', hts', hpart.keys, fun k x x' => hpart.done k x x' List.not_mem_nil⟩
  · have hkeys : tableKeys s.table = [] := by
      cases ht : s.table with
      | none => rfl
      | some u =>
        cases u with
        | map a ts =>
          obtain ⟨rfl, -⟩ := plain_map.1 (hv.table _ ht)
          exact absurd ⟨ts, ht⟩ hmap
        | _ => rfl
    rw [hkeys] at hrun
    obtain ⟨-, rfl⟩ := pure_run.1 hrun
    exact ⟨rfl, .refl _, hv, ⟨fun ts hts => absurd ⟨ts, hts⟩ hmap, fun _ => rfl⟩⟩

theorem TableDone.later {table : Option Tree} (h : TableDone st.library st.root table s)
    (hl : Later st.library st.root s s') : TableDone st.library st.root table s' := by
  refine ⟨fun ts hts => ?_, fun hno => hl.table.trans (h.noMap hno)⟩
  obtain ⟨ts', hts', hkeys, hat⟩ := h.map ts hts
  exact ⟨ts', hl.table.trans hts', hkeys, fun k x x' hx hx' =>
    (hat k x x' hx hx').later hl.toKnows rfl⟩

/-- What a run over the components has done. -/
theorem components_run (hdocs : ∀ p d, st.library.get p = .ok d → Plain d) {cs : Entries}
    (hp : Plain (.map none cs)) (hlone : Lone (.map none cs))
    (ht : s.table = cs.at? (.text "schemas")) (hv : Valid st.library st.root s) {t' : Tree}
    (h : Edit.andThen (fun t => walk (visitor (follow st [] st.root)) st.sharedDepth t .components)
      (schemas (visitor (follow st [] st.root)) st.sharedDepth) (.map none cs) s = ((t', .ok ()), s')) :
    (∃ cs' : Entries, t' = .map none cs' ∧ Plain t' ∧ cs'.keys = cs.keys ∧
      ∀ k y y', cs.at? k = some y → cs'.at? k = some y' →
        Inlines (scene st.library st.root s') st.root (Spot.along .components k) y y') ∧
      Knows s s' ∧ Valid st.library st.root s' ∧
        TableDone st.library st.root (cs.at? (.text "schemas")) s' := by
  obtain ⟨u, s₁, h₁, h₂⟩ := Edit.andThen_run h
  obtain ⟨hl, hi⟩ := visits_walk (follows_follow (names st.library st.root) hdocs [] st.root)
    st.sharedDepth hp .components rfl _ _ _ h₁ hv
  have htable : ∀ t, s₁.table = some t → Lone t := by
    intro t hts
    rw [hl.table, ht] at hts
    exact (lone_map.1 hlone).2 _ (Entries.mem_of_at? hts)
  obtain ⟨rfl, hknows, hv', hdone⟩ := schemas_run hdocs htable h₂ (hl.valid hv)
  rw [hl.table, ht] at hdone
  have hpu := hi.plain hdocs rfl hp
  obtain ⟨cs', rfl, hk, hg, hat, -⟩ := hi.map_inv rfl
  exact ⟨⟨cs', rfl, hpu, keys_eq hk (hg rfl), fun k y y' hy hy' =>
    (hat k y y' hy hy').later hknows (Spot.grows_along _ _)⟩, hl.toKnows.trans hknows, hv', hdone⟩

/-- What a run over the value under `components` has done. -/
theorem componentsDone (hdocs : ∀ p d, st.library.get p = .ok d → Plain d)
    (hp : Plain (.map none es)) (hlone : Lone (.map none es))
    (hc : ∀ x, es.at? (.text "components") = some x → x.isMap = true)
    (ht : s.table = (es.at? (.text "components")).bind (Tree.get? · "schemas"))
    (hv : Valid st.library st.root s)
    (h : Edit.valueIn (.text "components") (Edit.whenMap (Edit.andThen
      (fun t => walk (visitor (follow st [] st.root)) st.sharedDepth t .components)
      (schemas (visitor (follow st [] st.root)) st.sharedDepth))) es s = ((es', .ok ()), s')) :
    ComponentsDone st.library st.root es s' es' ∧
      ∀ k, k ≠ .text "components" → es'.at? k = es.at? k := by
  obtain ⟨hkeys, hother, hat⟩ := Edit.valueIn_run h
  obtain ⟨-, -, hpl⟩ := plain_map.1 hp
  refine ⟨?_, hother⟩
  cases hx : es.at? (.text "components") with
  | none =>
    rw [hx] at hat ht
    obtain ⟨rfl, rfl⟩ := hat
    refine ⟨rfl, fun y y' hy => ?_, ?_, hv, hp⟩
    · rw [hx] at hy
      cases hy
    · rw [hx]
      exact ⟨fun _ hts => (by cases hts), fun _ => ht⟩
  | some x =>
    rw [hx] at hat ht
    obtain ⟨x', hx', hrun⟩ := hat
    have hmem := Entries.mem_of_at? hx
    have hpx := (hpl _ hmem).2
    rw [Edit.shared_of_anchor hpx.anchor_eq] at hrun
    cases x with
    | map a cs =>
      obtain ⟨rfl, -⟩ := plain_map.1 hpx
      rcases Edit.whenMap_run hrun with ⟨-, hrun⟩ | ⟨hm, -⟩
      · obtain ⟨⟨cs', rfl, hpx', hckeys, hcat⟩, -, hv', hdone⟩ :=
          components_run hdocs hpx ((lone_map.1 hlone).2 _ hmem) ht hv hrun
        refine ⟨hkeys, fun y y' hy hy' => ?_, ?_, hv', Entries.plain_of_changed hp hkeys hother ?_⟩
        · cases hx.symm.trans hy
          cases hx'.symm.trans hy'
          exact ⟨cs, cs', rfl, rfl, hckeys, hcat⟩
        · rw [hx]
          exact hdone
        · intro y hy
          cases hx'.symm.trans hy
          exact hpx'
      · cases hm
    | _ => cases hc _ hx

/-- What a run over a description has done to its entries and its table. -/
theorem worked_document (hdocs : ∀ p d, st.library.get p = .ok d → Plain d)
    (hp : Plain (.map none es)) (hlone : Lone (.map none es))
    (hc : ∀ x, es.at? (.text "components") = some x → x.isMap = true)
    (ht : s.table = (es.at? (.text "components")).bind (Tree.get? · "schemas"))
    (hv : Valid st.library st.root s) {t' : Tree}
    (h : document (visitor (follow st [] st.root)) st.sharedDepth (.map none es) s =
      ((t', .ok ()), s')) :
    ∃ es', t' = .map none es' ∧ Worked st.library st.root es s' es' := by
  have hfollows := follows_follow (names st.library st.root) hdocs [] st.root
  obtain ⟨u, s₁, h₁, h₂⟩ := Edit.andThen_run h
  obtain ⟨⟨es₁, r⟩, s₂, h₁, h₁'⟩ := bind_run.1 h₁
  obtain ⟨heq, rfl⟩ := pure_run.1 h₁'
  cases heq
  obtain ⟨hdone, hsame⟩ := componentsDone hdocs hp hlone hc ht hv h₁
  obtain ⟨hl, es₂, rfl, hkeys, hother, hat⟩ := visits_value
    (fun x hx => visits_whenMap hfollows hx st.sharedDepth)
    (fun x hx => ((plain_map.1 hdone.plain).2.2 _ (Entries.mem_of_at? hx)).2) h₂ hdone.valid
  have hcomp : es₂.at? (.text "components") = es₁.at? (.text "components") :=
    hother _ (by decide)
  refine ⟨es₂, rfl, ⟨hkeys.trans hdone.keys, fun x x' hx hx' => ?_, hdone.table.later hl,
    hl.valid hdone.valid, Entries.plain_of_changed hdone.plain hkeys hother fun y hy => ?_⟩,
    fun k x x' hk hx hx' => ?_⟩
  · obtain ⟨cs, cs', rfl, rfl, hckeys, hcat⟩ := hdone.components x x' hx (hcomp ▸ hx')
    exact ⟨cs, cs', rfl, rfl, hckeys, fun k y y' hy hy' =>
      (hcat k y y' hy hy').later hl.toKnows (Spot.grows_along _ _)⟩
  · obtain ⟨x, hx⟩ := Entries.exists_at?_of_keys_eq hkeys.symm hy
    exact (hat x y hx hy).plain hdocs rfl
      ((plain_map.1 hdone.plain).2.2 _ (Entries.mem_of_at? hx)).2
  · simp only [Spot.part, if_neg hk]
    split
    · subst k
      exact hat x x' ((hsame _ hk).trans hx) hx'
    · rw [hother k ‹_›, hsame k hk] at hx'
      cases hx.symm.trans hx'
      exact inlines_inert x

end

/-! ## Inlining the references of a description -/

/-- The descriptions that are looked at: no document shares nodes, the references of the description
are maps of their own, its components are a map, and the schemas in its table are maps. -/
structure Regular (library : Library) (t : Tree) : Prop where
  documents : ∀ p d, library.get p = .ok d → Plain d
  plain : Plain t
  lone : Lone t
  components : ∀ x, t.get? "components" = some x → x.isMap = true
  schemas : ∀ name x, schemaOf t name = some x → x.isMap = true

/-- A library is plain whose documents are. -/
theorem plain_get {library : Library} (h : ∀ e ∈ library, ∀ d, e.2 = .ok d → Plain d) (p : Place)
    (d : Tree) (hd : library.get p = .ok d) : Plain d := by
  rw [Library.get] at hd
  split at hd
  · rename_i heq
    exact h _ (List.mem_of_find?_eq_some heq) d hd
  · cases hd

/-- The scene that a description and what has become of it make. -/
def outcome (library : Library) (root : Place) (t out : Tree) : Scene :=
  joined (described (library.add root t) root (schemaOf out))

variable {t : Tree}

theorem get_add (p : Place) :
    (library.add root t).get p = if root = p then .ok t else library.get p := by
  simp only [Library.get, Library.add, List.find?_cons]
  by_cases h : root = p <;> simp [h]

/-- The documents are plain if the description and all others are. -/
theorem plain_add (hdocs : ∀ p d, library.get p = .ok d → Plain d) (hp : Plain t) (p : Place) (d : Tree)
    (h : (library.add root t).get p = .ok d) : Plain d := by
  rw [get_add] at h
  split at h
  · cases h
    exact hp
  · exact hdocs p d h

theorem Regular.get_plain (hr : Regular library t) (p : Place) (d : Tree)
    (h : (library.add root t).get p = .ok d) : Plain d :=
  plain_add hr.documents hr.plain p d h

/-- What inlining a description is set up with. -/
def setting (library : Library) (root : Place) (t : Tree) : Setting where
  library := library.add root t
  root := root
  targets := candidates (library.add root t)
  sharedDepth := ((library.add root t).documents.map fun d => d.2.anchorBound).foldl (· + ·) 1 *
    ((candidates (library.add root t)).length + 1)

/-- The state that inlining a description starts in. -/
def start (t : Tree) : State where
  components := (t.get? "components").filter fun c => !c.isMap
  table := (t.get? "components").bind (Tree.get? · "schemas")
  added := []
  records := []
  nextAnchor := t.anchorBound

theorem inlineWith_eq (edit : Setting → Edit Run) :
    inlineWith edit library root t =
    match (do return (← edit (setting library root t) t, ← presentTable) : Run _) (start t) with
    | (((t', r), table), s) => match r with
      | .error f => (.error f : Except Failure Tree)
      | .ok _ => do
        let t ← withSchemas table s.added t'
        let components := t.getD "components"
        return t.settle ((components.getD "schemas").recordIn (components.recordIn s.records)) :=
  rfl

/-- Inlining runs over the description, then the added schemas join. -/
theorem inlineReferences_run (h : inlineReferences library root t = .ok out) :
    ∃ t' s' table s'' t'', document (visitor (follow (setting library root t) [] root))
        (setting library root t).sharedDepth t (start t) = ((t', .ok ()), s') ∧
      presentTable s' = (table, s'') ∧ withSchemas table s''.added t' = .ok t'' ∧
        out = t''.settle (((t''.getD "components").getD "schemas").recordIn
          ((t''.getD "components").recordIn s''.records)) := by
  obtain ⟨⟨⟨⟨t', r⟩, table⟩, s''⟩, hrun⟩ : ∃ x, (do
      return (← document (visitor (follow (setting library root t) [] root))
        (setting library root t).sharedDepth t, ← presentTable) : Run _) (start t) = x :=
    ⟨_, rfl⟩
  rw [inlineReferences, inlineWith_eq, show (setting library root t).root = root from rfl, hrun] at h
  obtain ⟨⟨t', r⟩, s', h₁, hrun⟩ := bind_run.1 hrun
  obtain ⟨table, s'', h₂, hrun⟩ := bind_run.1 hrun
  obtain ⟨heq, rfl⟩ := pure_run.1 hrun
  cases heq
  cases r with
  | error e => cases h
  | ok =>
    simp only [bind, Except.bind] at h
    split at h
    · cases h
    · rename_i t'' ht''
      exact ⟨t', s', table, s'', t'', h₁, h₂, ht'', (Except.ok.inj h).symm⟩

/-- A plain description has no nodes to bring to their last form. -/
theorem settle_recorded (hp : Plain t) :
    t.settle (((t.getD "components").getD "schemas").recordIn ((t.getD "components").recordIn [])) =
      t := by
  rw [recordIn_plain (plain_getD (plain_getD hp _) _), recordIn_plain (plain_getD hp _)]
  rfl

theorem valid_start (hr : Regular library t) : Valid (library.add root t) root (start t) where
  components := by
    show (t.get? "components").filter (fun c => !c.isMap) = none
    cases hx : t.get? "components" with
    | none => rfl
    | some x => simp [Option.filter, hr.components x hx]
  records := rfl
  table := by
    intro u hu
    obtain ⟨x, hx, hu⟩ := Option.bind_eq_some_iff.1 hu
    exact hr.plain.down (l := ["components", "schemas"]) (by simp [Tree.down?, hx, hu])
  maps := by
    intro u name x hu hx
    refine hr.schemas name x ?_
    obtain ⟨y, hy, hu⟩ := Option.bind_eq_some_iff.1 hu
    simp [schemaOf, hy, hu, hx]
  added _ _ h := absurd h List.not_mem_nil
  fresh _ _ _ _ h := absurd h List.not_mem_nil
  nodup := List.nodup_nil

/-- What inlining returns is what inlining may make of a description. -/
theorem inlines_inlineReferences (hr : Regular library t)
    (h : inlineReferences library root t = .ok out) :
    Inlines (outcome library root t out) root .document t out ∧ Plain out := by
  obtain ⟨t', s', table, s'', t'', h₁, h₂, h₃, rfl⟩ := inlineReferences_run h
  have hv : Valid (library.add root t) root (start t) := valid_start hr
  cases ht : t with
  | map a es =>
    subst ht
    obtain ⟨rfl, -⟩ := plain_map.1 hr.plain
    have hget : ∀ p d, (setting library root (.map none es)).library.get p = .ok d → Plain d :=
      hr.get_plain
    obtain ⟨es', rfl, hw⟩ := worked_document hget hr.plain hr.lone hr.components rfl hv h₁
    rw [presentTable_run hw.valid.records] at h₂
    cases h₂
    obtain ⟨hi, hentry, hp⟩ := hw.ends hr.plain hr.lone h₃
    rw [hw.valid.records, settle_recorded hp, outcome, show schemaOf t'' = entry s' from funext hentry]
    exact ⟨hi, hp⟩
  | _ =>
    subst ht
    obtain ⟨u, s₁, h, h'⟩ := Edit.andThen_run h₁
    obtain ⟨heq, rfl⟩ := pure_run.1 h
    cases heq
    obtain ⟨heq, rfl⟩ := pure_run.1 h'
    cases heq
    rw [presentTable_run hv.records] at h₂
    cases h₂
    cases h₃
    exact ⟨inlines_of_not_map rfl rfl rfl, hr.plain⟩

end ApiContract.Inline
