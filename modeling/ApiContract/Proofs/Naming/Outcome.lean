import ApiContract.Compilation
import ApiContract.Proofs.Naming.Document

/-!
# What naming ends with

* `Ends`: how the outcome of naming hangs together with the last state of the run (`ends_nameSchemas`).
* `Joined`: where the last table comes to stand in the description (`Ends.joined`).
* `prepared_schemaTable`: in no schema of a named description's table does anything that needs a name
  stand inline.
-/

namespace ApiContract.Naming

open Tree Edit

variable {s s' : State} {t t' : Tree}

/-- The state that naming starts in. -/
def start (t : Tree) : State where
  home := match t.get? "components" with
    | none => .absent
    | some c => if c.isMap then .map else .other
  table := (t.get? "components").bind (Tree.get? · "schemas")
  created := []
  notices := []
  records := []
  sharedDepth := t.anchorBound

theorem start_table_of_not_map (h : (t.getD "components").isMap = false) :
    (start t).table = none := by
  rw [Tree.getD] at h
  show (t.get? "components").bind (Tree.get? · "schemas") = none
  cases hx : t.get? "components" with
  | none => rfl
  | some x =>
    rw [hx] at h
    cases x with
    | map => cases h
    | _ => rfl

theorem nameSchemas_eq (t : Tree) : nameSchemas t =
    match (do return (← document t, ← presentTable) : Run _) (start t) with
    | (((t', r), table), s) =>
      let t := withTable s.home table t'
      let components := t.getD "components"
      { document := t.settle ((components.getD "schemas").recordIn (components.recordIn s.records))
        created := s.created.reverse
        notices := s.notices
        result := r } :=
  rfl

/-- Naming runs over the description, then the table joins. -/
theorem nameSchemas_run (h : (nameSchemas t).result = .ok ()) :
    ∃ t' s' table s'', document t (start t) = ((t', .ok ()), s') ∧ presentTable s' = (table, s'') ∧
      (nameSchemas t).document = (withTable s''.home table t').settle
        ((((withTable s''.home table t').getD "components").getD "schemas").recordIn
          (((withTable s''.home table t').getD "components").recordIn s''.records)) ∧
      (nameSchemas t).created = s''.created.reverse := by
  obtain ⟨⟨⟨⟨t', r⟩, table⟩, s''⟩, hrun⟩ : ∃ x, (do
      return (← document t, ← presentTable) : Run _) (start t) = x := ⟨_, rfl⟩
  rw [nameSchemas_eq, hrun] at h ⊢
  obtain ⟨⟨t', r⟩, s', h₁, hrun⟩ := bind_run.1 hrun
  obtain ⟨table, s'', h₂, hrun⟩ := bind_run.1 hrun
  obtain ⟨hpair, rfl⟩ := pure_run.1 hrun
  cases hpair
  cases (show r = .ok () from h)
  exact ⟨t', s', table, s'', h₁, h₂, rfl, rfl⟩

theorem plain_withTable (home : Home) {table : Option Tree} (hp : Plain t)
    (htable : ∀ u, table = some u → Plain u) : Plain (withTable home table t) := by
  cases t with
  | map a es =>
    obtain ⟨rfl, -, hpl⟩ := plain_map.1 hp
    simp only [withTable]
    split
    · rename_i b comps hcomponents
      have hpc := (hpl _ (Entries.mem_of_at? hcomponents)).2
      obtain ⟨rfl, -⟩ := plain_map.1 hpc
      split
      · rename_i u
        exact Entries.plain_set hp (Entries.plain_set hpc (htable u rfl))
      · exact hp
    · refine Entries.plain_set hp (plain_object.2 ⟨?_, fun f hf => ?_⟩)
      · cases table <;> simp
      · obtain ⟨u, hu, rfl⟩ := Option.map_eq_some_iff.1 (Option.mem_toList.1 hf)
        exact htable u hu
    · exact hp
  | _ => exact hp

theorem componentsOf_eq {a b : Anchor} {es comps : Entries}
    (h : Entries.get? es "components" = some (.map b comps)) : componentsOf (.map a es) = comps :=
  congrArg (fun c => (Option.bind c Tree.entries?).getD []) h

/-- Components that are alike under the keys that count may be put in the place of others. -/
theorem besides_set {a : Anchor} {es : Entries} {c : Tree}
    (h : ∀ key ∈ componentKeys, (c.entries?.getD []).at? (.text key) =
      (componentsOf (.map a es)).at? (.text key)) :
    Besides (.map a es) (.map a (Entries.set es "components" c)) := by
  refine ⟨Entries.at?_put_ne (by decide) c es, fun key hkey => ?_⟩
  rw [← h key hkey]
  show Entries.at? _ ((Option.bind (Entries.at? _ (Entries.put _ c es)) _).getD []) = _
  rw [Entries.at?_put_self, Option.bind_some]

/-- Only the table of schemas is put into a description. -/
theorem besides_withTable (home : Home) (table : Option Tree) (t : Tree) :
    Besides t (withTable home table t) := by
  have refl : Besides t t := ⟨rfl, fun _ _ => rfl⟩
  have hschemas : ∀ key ∈ componentKeys, Scalar.text key ≠ .text "schemas" := by decide
  cases t with
  | map a es =>
    simp only [withTable]
    split
    · rename_i hcomps
      split
      · refine besides_set fun key hkey => ?_
        rw [componentsOf_eq hcomps]
        exact Entries.at?_put_ne (hschemas key hkey) _ _
      · exact refl
    · rename_i hcomps
      refine besides_set fun key hkey => ?_
      have hnone : componentsOf (.map a es) = [] := congrArg (fun c => (Option.bind c Tree.entries?).getD []) hcomps
      rw [hnone]
      cases table with
      | none => rfl
      | some u => exact Entries.at?_put_ne (hschemas key hkey) u []
    · exact refl
  | _ => exact refl

/-- The outcome of naming and the state in which it ends. -/
structure Ends (t : Tree) (o : Outcome) (s : State) : Prop where
  names : ∃ t', Names s.Held .document t t' ∧ o.document = withTable s.home s.table t'
  created : o.created = s.created.reverse
  later : Later (start t) s
  valid : Valid s
  settled : Settled (fun _ => False) s
  idle : t.isMap = false → s = start t
  plain : Plain o.document
  stays : Stays document o.document

theorem plain_table (hp : Plain t) {u : Tree} (hu : (start t).table = some u) : Plain u := by
  obtain ⟨x, hx, hu⟩ := Option.bind_eq_some_iff.1 hu
  exact hp.down (l := ["components", "schemas"]) (by simp [Tree.down?, hx, hu])

theorem valid_start (hp : Plain t) : Valid (start t) :=
  ⟨rfl, fun _ => plain_table hp, fun _ _ h => absurd h.1 List.not_mem_nil⟩

/-- How naming ends. -/
theorem ends_nameSchemas (hp : Plain t) (h : (nameSchemas t).result = .ok ()) :
    ∃ s, Ends t (nameSchemas t) s := by
  obtain ⟨t', s', table, s'', h₁, h₂, hout, hcreated⟩ := nameSchemas_run h
  have hv := valid_start hp
  obtain ⟨hl, hn, hset, hidle, hstays⟩ := document_run h₁ hp hv start_table_of_not_map
  have hv' := hl.valid hv
  rw [presentTable_run hv'.records] at h₂
  cases h₂
  have hp' := plain_withTable s'.home (hn.plain hp) hv'.plain
  rw [recordIn_plain (plain_getD (plain_getD hp' _) _), recordIn_plain (plain_getD hp' _),
    hv'.records] at hout
  change (nameSchemas t).document = withTable s'.home s'.table t' at hout
  exact ⟨s', ⟨t', hn, hout⟩, hcreated, hl, hv', hset, hidle, hout ▸ hp',
    hout ▸ hstays _ hp' (besides_withTable _ _ _)⟩

/-! ## The table of the outcome -/

/-- What a description has as its table of schemas. -/
def schemas? (t : Tree) : Option Tree :=
  (t.get? "components").bind (Tree.get? · "schemas")

/-- The entries of that table. -/
def tableOf (t : Tree) : Entries := ((schemas? t).bind Tree.entries?).getD []

theorem schemaTable_eq_ok {u : Tree} {table : Entries}
    (h : Compilation.schemaTable u = .ok table) : table = [] ∨ ∃ a, schemas? u = some (.map a table) := by
  rw [Compilation.schemaTable, Tree.getD] at h
  rw [schemas?]
  cases hc : u.get? "components" with
  | none =>
    rw [hc] at h
    exact .inl (Except.ok.inj h).symm
  | some x =>
    rw [hc] at h
    simp only [Option.getD_some] at h
    split at h
    · exact .inl (Except.ok.inj h).symm
    · cases x with
      | map b comps =>
        have hget : (Tree.map b comps).get? "schemas" = Entries.get? comps "schemas" := rfl
        simp only [Entries.orNull] at h
        rw [Option.bind_some, hget]
        cases hs : Entries.get? comps "schemas" with
        | none =>
          rw [hs] at h
          exact .inl (Except.ok.inj h).symm
        | some y =>
          rw [hs] at h
          cases y with
          | map a es =>
            cases h
            exact .inr ⟨a, rfl⟩
          | _ =>
            simp only [Option.getD_some] at h
            split at h
            · cases h
            · exact .inl (Except.ok.inj h).symm
      | _ => cases h

theorem schemaTable_of_schemas? {u : Tree} {a : Anchor} {table : Entries}
    (h : schemas? u = some (.map a table)) : Compilation.schemaTable u = .ok table := by
  obtain ⟨x, hx, hs⟩ := Option.bind_eq_some_iff.1 h
  cases x with
  | map b comps =>
    have hne : (Tree.map b comps).truthy = true := by
      cases comps with
      | nil => cases hs
      | cons => rfl
    have hget : Entries.get? comps "schemas" = some (.map a table) := hs
    rw [Compilation.schemaTable, Tree.getD, hx]
    simp only [Option.getD_some, hne, Entries.orNull, hget]
    rfl
  | _ => cases hs

section

variable {held : String → Tree → Prop}

/-- Naming keeps what stands under `components`, as far as it is a map. -/
theorem Names.components (hn : Names held .document t t') :
    (t'.get? "components").map Tree.isMap = (t.get? "components").map Tree.isMap := by
  cases hn with
  | same => rfl
  | @map _ a es es' _ hk hes =>
    show (Entries.at? _ es').map _ = (Entries.at? _ es).map _
    cases hx : Entries.at? (.text "components") es with
    | none => rw [(Entries.at?_eq_none_congr hk).2 hx]
    | some x =>
      obtain ⟨x', hx'⟩ := Entries.exists_at?_of_keys_eq hk hx
      rw [hx']
      cases hes _ x x' hx hx' with
      | same | map => rfl
      | list hst => exact hst.elim
  | list hst => exact hst.elim

/-- Going through the components leaves the table to a turn of its own. -/
theorem Names.schemas (hn : Names held .document t t') : schemas? t' = schemas? t := by
  cases hn with
  | same => rfl
  | @map _ a es es' _ hk hes =>
    show (Entries.at? _ es').bind _ = (Entries.at? _ es).bind _
    cases hx : Entries.at? (.text "components") es with
    | none => rw [(Entries.at?_eq_none_congr hk).2 hx]
    | some x =>
      obtain ⟨x', hx'⟩ := Entries.exists_at?_of_keys_eq hk hx
      rw [hx', Option.bind_some, Option.bind_some]
      cases hes _ x x' hx hx' with
      | same => rfl
      | @map _ b comps comps' _ hk' hcomps =>
        show Entries.at? (.text "schemas") comps' = Entries.at? (.text "schemas") comps
        cases hy : Entries.at? (.text "schemas") comps with
        | none => exact (Entries.at?_eq_none_congr hk').2 hy
        | some y =>
          obtain ⟨y', hy'⟩ := Entries.exists_at?_of_keys_eq hk' hy
          have hrest : Names held .rest y y' := hcomps _ y y' hy hy'
          rw [hy', hrest.eq_of_rest]
      | list hst => exact hst.elim
  | list hst => exact hst.elim

end

theorem start_home : (start t).home =
    ((t.get? "components").map Tree.isMap).elim .absent (bif · then .map else .other) := by
  rw [start]
  cases t.get? "components" with
  | none => rfl
  | some x => cases h : x.isMap <;> simp [h]

/-- A description with some components, and among them a table of schemas. -/
def withSchemas (es comps table : Entries) : Tree :=
  .map none (es.set "components" (.map none (comps.set "schemas" (.map none table))))

theorem schemas?_withSchemas (es comps table : Entries) :
    schemas? (withSchemas es comps table) = some (.map none table) := by
  simp [schemas?, withSchemas, Tree.get?, Tree.entries?, Entries.get?_eq_at?, Entries.set]

/-- Without a table that schemas could be added to, no names are given. -/
theorem created_of_no_table (hl : Later (start t) s) (h : s.table.bind Tree.entries? = none) :
    s.created = [] := by
  obtain ⟨names, hc, hk⟩ := hl.grows
  rw [State.keys, h] at hk
  have hnil := List.append_eq_nil_iff.1 hk.symm
  rw [hc, List.map_eq_nil_iff.1 hnil.2]
  rfl

/-- How the last table comes into what naming has made of a description: not at all, if there is no
table and no schema was to be added, and else in the place of the first one. -/
inductive Joined (t t' : Tree) (s : State) (out : Tree) : Prop
  | alone (hout : out = t') (hcreated : s.created = [])
      (htable : (schemas? t).bind Tree.entries? = none)
  | table {es comps table : Entries} (ht' : t' = .map none es) (htable : s.table = some (.map none table))
      (hcomps : es.at? (.text "components") = some (.map none comps) ∨
        es.at? (.text "components") = none ∧ comps = [])
      (hout : out = withSchemas es comps table)

section

variable {held : String → Tree → Prop} {es comps : Entries} (hl : Later (start t) s) (hv : Valid s)
  (hn : Names held .document t (.map none es))
include hl hv hn

theorem joined_of_absent (hx : es.at? (.text "components") = none) :
    Joined t (.map none es) s (withTable s.home s.table (.map none es)) := by
  have hget : (Tree.map none es).get? "components" = none := hx
  have hschemas := hn.schemas
  have hhome := start_home (t := t)
  rw [schemas?, hget] at hschemas
  rw [← hn.components, hget] at hhome
  rcases hl.home with h | ⟨-, h, htable⟩
  · replace h : s.home = .absent := h.trans hhome
    refine .alone ?_ (hl.idle (by rw [h]; decide)) (by rw [← hschemas]; rfl)
    simp only [withTable, Entries.get?_eq_at?, hx, h]
  · rcases hl.table with hsame | ⟨-, u, hu, hm⟩
    · exact absurd (hsame.trans hschemas.symm) htable
    · obtain ⟨table, rfl⟩ := (hv.plain u hu).eq_map hm
      refine .table rfl hu (.inr ⟨hx, rfl⟩) ?_
      simp only [withTable, Entries.get?_eq_at?, hx, h, hu]
      rfl

theorem joined_of_components (hx : es.at? (.text "components") = some (.map none comps)) :
    Joined t (.map none es) s (withTable s.home s.table (.map none es)) := by
  have hget : (Tree.map none es).get? "components" = some (.map none comps) := hx
  have hschemas : comps.at? (.text "schemas") = schemas? t := by
    rw [← hn.schemas, schemas?, hget]
    rfl
  have hhome := start_home (t := t)
  rw [← hn.components, hget] at hhome
  replace hhome : s.home = .map := hl.home_map hhome
  simp only [withTable, Entries.get?_eq_at?, hx, hhome]
  cases hu : s.table with
  | none =>
    refine .alone rfl (created_of_no_table hl (by rw [hu]; rfl)) ?_
    cases hstart : schemas? t with
    | none => rfl
    | some u =>
      have hne : (start t).table ≠ none := fun h => by cases hstart.symm.trans h
      exact absurd hu (hl.table_ne_none hne)
  | some u =>
    cases hm : u.isMap with
    | true =>
      obtain ⟨table, rfl⟩ := (hv.plain u hu).eq_map hm
      exact .table rfl hu (.inl hx) rfl
    | false =>
      -- What is no map can neither have changed nor have come anew.
      rcases hl.table with hsame | ⟨-, u', hu', hm'⟩
      · have hstart : schemas? t = some u := hsame.symm.trans hu
        have hentries : u.entries? = none := Option.not_isSome_iff_eq_none.1 (Bool.eq_false_iff.1 hm)
        refine .alone ?_ (created_of_no_table hl (by rw [hu]; exact hentries))
          (by rw [hstart]; exact hentries)
        show Tree.map none (es.put _ (.map none (comps.put _ u))) = _
        rw [Entries.put_self (hschemas.trans hstart), Entries.put_self hx]
      · cases hu.symm.trans hu'
        cases hm.symm.trans hm'

omit hv in
theorem joined_of_other {x : Tree} (hx : es.at? (.text "components") = some x) (hm : x.isMap = false) :
    Joined t (.map none es) s (withTable s.home s.table (.map none es)) := by
  have hget : (Tree.map none es).get? "components" = some x := hx
  have hschemas : x.get? "schemas" = schemas? t := by
    rw [← hn.schemas, schemas?, hget]
    rfl
  have hhome := start_home (t := t)
  rw [← hn.components, hget, Option.map_some, hm] at hhome
  replace hhome : s.home = .other := by
    rcases hl.home with h | ⟨h, -⟩
    · exact h.trans hhome
    · cases h.symm.trans hhome
  refine .alone ?_ (hl.idle (by rw [hhome]; decide)) ?_
  · simp only [withTable, hhome]
  · rw [← hschemas]
    cases x with
    | map => cases hm
    | _ => rfl

end

/-- The outcome is what naming makes of the description, with the last table. -/
theorem Ends.joined {o : Outcome} (hp : Plain t) (he : Ends t o s) :
    ∃ t', Names s.Held .document t t' ∧ Joined t t' s o.document := by
  obtain ⟨t', hn, hout⟩ := he.names
  refine ⟨t', hn, ?_⟩
  rw [hout]
  have hpt' := hn.plain hp
  cases t' with
  | map a es =>
    obtain ⟨rfl, -, hpl⟩ := plain_map.1 hpt'
    cases hx : Entries.at? (.text "components") es with
    | none => exact joined_of_absent he.later he.valid hn hx
    | some x =>
      cases hm : x.isMap with
      | true =>
        obtain ⟨comps, rfl⟩ := (hpl _ (Entries.mem_of_at? hx)).2.eq_map hm
        exact joined_of_components he.later he.valid hn hx
      | false => exact joined_of_other he.later hn hx hm
  | _ =>
    have hm : t.isMap = false := by cases hn <;> rfl
    refine .alone rfl (by rw [he.idle hm]; rfl) ?_
    rw [← hn.schemas]
    rfl

/-- The table of a named description is the one that naming ends with. -/
theorem Ends.table {o : Outcome} {table : Entries} (hp : Plain t) (he : Ends t o s)
    (h : Compilation.schemaTable o.document = .ok table) : table = [] ∨ s.table = some (.map none table) := by
  refine (schemaTable_eq_ok h).imp_right fun ⟨a, hschemas⟩ => ?_
  obtain ⟨t', hn, hj⟩ := he.joined hp
  cases hj with
  | alone hout _ hno =>
    rw [hout, hn.schemas] at hschemas
    rw [hschemas] at hno
    cases hno
  | table _ htable _ hout =>
    rw [hout, schemas?_withSchemas] at hschemas
    cases hschemas
    exact htable

/-- What is known of the table of a named description. -/
theorem Ends.entry {o : Outcome} {table : Entries} (hp : Plain t) (he : Ends t o s)
    (h : Compilation.schemaTable o.document = .ok table) :
    Plain (.map none table) ∧ ∀ e ∈ table, Prepared .own e.2 := by
  rcases he.table hp h with rfl | htable
  · exact ⟨by simp [Distinct], fun e hm => absurd hm List.not_mem_nil⟩
  · have hpt := he.valid.plain _ htable
    obtain ⟨-, hd, -⟩ := plain_map.1 hpt
    refine ⟨hpt, fun e hm => (he.settled e.1 e.2 ?_ id).prepared⟩
    rw [State.entry?, htable]
    exact Entries.at?_of_mem hd.nodup hm

/-- The table of a named description is plain. -/
theorem plain_schemaTable {table : Entries} (hp : Plain t) (h : (nameSchemas t).result = .ok ())
    (ht : Compilation.schemaTable (nameSchemas t).document = .ok table) : Plain (.map none table) := by
  obtain ⟨s, he⟩ := ends_nameSchemas hp h
  exact (he.entry hp ht).1

/-- In no schema of a named description's table does anything that needs a name stand inline. -/
theorem prepared_schemaTable {table : Entries} (hp : Plain t) (h : (nameSchemas t).result = .ok ())
    (ht : Compilation.schemaTable (nameSchemas t).document = .ok table) :
    ∀ e ∈ table, Prepared .own e.2 := by
  obtain ⟨s, he⟩ := ends_nameSchemas hp h
  exact (he.entry hp ht).2

end ApiContract.Naming
