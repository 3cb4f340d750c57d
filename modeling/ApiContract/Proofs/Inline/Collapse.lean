import ApiContract.Proofs.Inline.Stages
import ApiContract.Proofs.Inline.Unfolding

/-!
# Schemas that are the same have one name

A foreign schema gets its name if the name stands for the same schema when the two are compared, and what
a reader sees is what the name stands for in the result. Both decide alike if the turn of the table's own
schema of that name was over, or if inlining leaves that schema what it was (`Settled`). Otherwise the name
may have stood for a reference that was itself to be inlined.

* `inlined_at`: what has become of a reference of the description, with the names whose turn was over
  (`inlinedBefore`).
* `Shown`: what of the result stands for what of the documents. A copy and a schema that has joined the
  table stand for their targets, so a reference is followed into both.
* `Shown.inlines`: what is shown for a tree is the same as what inlining makes of it. Schemas that joined
  are compared, so it need not be what was made at this very place.
* `collapses_inlineReferences` puts the three together.
-/

namespace ApiContract.Inline

open Tree Walk

variable {library : Library} {root doc : Place} {spot : Spot} {t out x : Tree} {steps : List Step}

/-! ## Positions -/

/-- Where entries may join, references are met under keys. -/
theorem Spot.key_of_refers {spot' : Spot} (hs : spot.grows = true)
    (h : spot.visit? t steps = some (spot', x)) (hr : (spot'.refers x).isSome) :
    ∃ k rest a es x₀, steps = .key k :: rest ∧ t = .map a es ∧ Entries.at? k es = some x₀ ∧
      (spot.part k).visit? x₀ rest = some (spot', x) := by
  cases steps with
  | nil =>
    cases h
    cases spot with
    | document | components | table => cases hr
    | _ => cases hs
  | cons step rest =>
    cases step with
    | key k =>
      obtain ⟨-, a, es, x₀, rfl, hx₀, h⟩ := Spot.visit?_key.1 h
      exact ⟨k, rest, a, es, x₀, rfl, rfl, hx₀, h⟩
    | index i =>
      have hitem : spot.item = .inert := by
        cases spot with
        | visited => cases hs
        | _ => rfl
      obtain ⟨-, a, ts, x₀, rfl, hx₀, h⟩ := Spot.visit?_index.1 h
      rw [hitem] at h
      rw [Spot.refers_of_inert h] at hr
      cases hr

/-- The keys of the table whose schemas are inlined before what is at a position. -/
def inlinedBefore (t : Tree) : List Step → List Scalar
  | .key (.text "components") :: .key (.text "schemas") :: .key k :: _ =>
    (tableKeys ((t.get? "components").bind (Tree.get? · "schemas"))).takeWhile (· ≠ k)
  | .key (.text "paths") :: _ => tableKeys ((t.get? "components").bind (Tree.get? · "schemas"))
  | _ => []

theorem inlinedBefore_component {k : Scalar} (hk : k ≠ .text "schemas") :
    inlinedBefore t (.key (.text "components") :: .key k :: steps) = [] := by
  unfold inlinedBefore
  split
  · rename_i heq
    cases heq
    exact absurd rfl hk
  · rename_i heq
    simp at heq
  · rfl

theorem inlinedBefore_entry {es cs ts : Entries} {k : Scalar} {before after : List Scalar}
    (hcs : es.at? (.text "components") = some (.map none cs))
    (hts : cs.at? (.text "schemas") = some (.map none ts)) (hn : ts.keys.Nodup)
    (hkeys : ts.keys = before ++ k :: after) :
    inlinedBefore (.map none es) (.key (.text "components") :: .key (.text "schemas") :: .key k :: steps) =
      before := by
  have htable : (Tree.get? (.map none es) "components").bind (Tree.get? · "schemas") =
      some (.map none ts) := by
    show (es.get? "components").bind _ = _
    rw [Entries.get?_eq_at?, hcs]
    exact hts
  rw [hkeys] at hn
  show (tableKeys ((Tree.get? (.map none es) "components").bind (Tree.get? · "schemas"))).takeWhile
    (· ≠ k) = before
  rw [htable, tableKeys, hkeys, List.takeWhile_append_of_pos, List.takeWhile_cons_of_neg, List.append_nil]
  · simp
  · intro l hl
    simpa using fun heq => (List.nodup_append.1 hn).2.2 l hl k List.mem_cons_self heq

/-- Every reference of the description is inlined, compared with what was seen at its turn. -/
theorem inlined_at (hdocs : ∀ p d, library.get p = .ok d → Plain d) (hp : Plain t)
    (h : inlineReferences library root t = .ok out)
    (hx : Spot.document.visit? t steps = some (spot, x)) (hr : (spot.refers x).isSome) :
    ∃ y, Spot.document.visit? out steps = some (spot, y) ∧
      Inlines (seenWhile library root t out fun name => .text name ∉ inlinedBefore t steps)
        root spot x y ∧ Plain x ∧ Plain out := by
  have hs := Spot.grows_of_refers hr
  obtain ⟨k, rest, a, es, x₀, rfl, rfl, hx₀, hrest⟩ := Spot.key_of_refers rfl hx hr
  obtain ⟨rfl, -, hpes⟩ := plain_map.1 hp
  obtain ⟨es', hstages⟩ := stages_inlineReferences hdocs hp h
  obtain rfl := hstages.out_eq
  have hp₀ := (hpes _ (Entries.mem_of_at? hx₀)).2
  by_cases hpath : k = .text "paths"
  · subst hpath
    obtain ⟨y₀, hy₀, hi⟩ := hstages.paths x₀ hx₀
    obtain ⟨y, hy, hi, hpx⟩ := hi.visit hp₀ hrest
    refine ⟨y, Spot.visit?_key.2 ⟨rfl, none, es', y₀, rfl, hy₀, hy⟩, ?_, hpx, hstages.plain⟩
    exact seenWhile_mono hi hs fun _ => False.elim
  by_cases hcomp : k = .text "components"
  · subst hcomp
    obtain ⟨k, rest, a, cs, x₁, rfl, rfl, hx₁, hrest₁⟩ := Spot.key_of_refers rfl hrest hr
    obtain ⟨rfl, -, hpcs⟩ := plain_map.1 hp₀
    have hp₁ := (hpcs _ (Entries.mem_of_at? hx₁)).2
    by_cases hk : k = .text "schemas"
    · subst hk
      obtain ⟨k, rest, a, ts, x₂, rfl, rfl, hx₂, hrest₂⟩ := Spot.key_of_refers rfl hrest₁ hr
      obtain ⟨rfl, hd, hpts⟩ := plain_map.1 hp₁
      have hmem := Entries.mem_of_at? hx₂
      obtain ⟨before, after, hkeys⟩ := List.append_of_mem (List.mem_map_of_mem hmem)
      obtain ⟨cs', ts', y₂, hcs', hts', hy₂, hi⟩ :=
        hstages.entry cs ts before k after x₂ hx₀ hx₁ hkeys hx₂
      obtain ⟨y, hy, hi, hpx⟩ := hi.visit (hpts _ hmem).2 hrest₂
      refine ⟨y, Spot.visit?_key.2 ⟨rfl, none, es', _, rfl, hcs', Spot.visit?_key.2
        ⟨rfl, none, cs', _, rfl, hts', Spot.visit?_key.2 ⟨rfl, none, ts', y₂, rfl, hy₂, hy⟩⟩⟩, ?_, hpx,
        hstages.plain⟩
      refine seenWhile_mono hi hs fun name hm => ?_
      rw [inlinedBefore_entry hx₀ hx₁ hd.nodup hkeys]
      exact fun hbefore => (List.nodup_append.1 (hkeys ▸ hd.nodup)).2.2 _ hbefore _ hm rfl
    · obtain ⟨cs', y₁, hcs', hy₁, hi⟩ := hstages.component cs k x₁ hx₀ hk hx₁
      have hpart : (Spot.document.part (.text "components")).part k = Spot.along .components k :=
        if_neg hk
      rw [hpart] at hrest₁
      obtain ⟨y, hy, hi, hpx⟩ := hi.visit hp₁ hrest₁
      refine ⟨y, Spot.visit?_key.2 ⟨rfl, none, es', _, rfl, hcs', Spot.visit?_key.2
        ⟨rfl, none, cs', y₁, rfl, hy₁, hpart ▸ hy⟩⟩, ?_, hpx, hstages.plain⟩
      refine seenWhile_mono hi hs fun name _ => ?_
      rw [inlinedBefore_component hk]
      exact List.not_mem_nil
  · simp only [Spot.part, if_neg hcomp, if_neg hpath] at hrest
    rw [Spot.refers_of_inert hrest] at hr
    cases hr

/-! ## Trees that are the same -/

theorem eq_of_same_text {r : String} {y : Tree} (h : (Tree.text r).same y = true) : y = .text r := by
  obtain ⟨s, rfl, hs⟩ := same_scalar.1 h
  rw [Scalar.same_comm, Scalar.same_text] at hs
  rw [hs]

/-- A tree that is the same as a reference is that reference. -/
theorem eq_of_same_asTree {r : String} {y : Tree} (hp : Plain y)
    (h : (Reference.asTree r).same y = true) : y = Reference.asTree r := by
  obtain ⟨b, fs, rfl, hlen, hes⟩ := same_map.1 h
  obtain ⟨rfl, -⟩ := plain_map.1 hp
  obtain ⟨f, rfl⟩ := List.length_eq_one_iff.1 hlen.symm
  obtain ⟨w, hw, hsame⟩ := hes _ List.mem_cons_self
  obtain ⟨f, hf, hk, rfl⟩ := findSame?_eq_some hw
  cases List.mem_singleton.1 hf
  rw [Scalar.same_text] at hk
  rw [Reference.asTree, Tree.object, List.map_singleton, ← hk, ← eq_of_same_text hsame]

/-- What is the same as a reference that is written at a position is that reference. -/
theorem eq_of_same_writes {r : String} {y z : Tree} (hp : Plain y)
    (hw : spot.writes (Reference.asTree r) = some z) (h : z.same y = true) : y = z := by
  cases spot with
  | mappingTarget =>
    rw [Spot.writes, Reference.ofTree?_asTree] at hw
    cases hw
    exact eq_of_same_text h
  | _ =>
    cases hw
    exact eq_of_same_asTree hp h

/-- Along steps, trees that are the same have parts that are the same. -/
theorem same_visit : ∀ {steps : List Step} {spot spot' spot'' : Spot} {y z y' z' : Tree}, Plain y →
    Plain z → z.same y = true → spot.visit? z steps = some (spot', z') →
      spot.visit? y steps = some (spot'', y') →
        spot'' = spot' ∧ Plain y' ∧ Plain z' ∧ z'.same y' = true
  | [], _, _, _, _, _, _, _, hpy, hpz, h, hz, hy => by
    cases hz
    cases hy
    exact ⟨rfl, hpy, hpz, h⟩
  | .key k :: steps, _, _, _, _, _, _, _, hpy, hpz, h, hz, hy => by
    obtain ⟨-, a, es, x, rfl, hx, hz⟩ := Spot.visit?_key.1 hz
    obtain ⟨-, b, fs, w, rfl, hw, hy⟩ := Spot.visit?_key.1 hy
    have hmem := Entries.mem_of_at? hx
    obtain ⟨l, v, hv, hlk, hxv⟩ := at?_of_same hpy h hmem
    obtain ⟨-, hd, hpfs⟩ := plain_map.1 hpy
    obtain rfl : k = l := hd.eq_of_same (List.mem_map_of_mem (Entries.mem_of_at? hw))
      (List.mem_map_of_mem (Entries.mem_of_at? hv)) (Scalar.same_self k) hlk
    cases hv.symm.trans hw
    exact same_visit (hpfs _ (Entries.mem_of_at? hw)).2 ((plain_map.1 hpz).2.2 _ hmem).2 hxv hz hy
  | .index i :: steps, _, _, _, _, _, _, _, hpy, hpz, h, hz, hy => by
    obtain ⟨-, a, ts, x, rfl, hx, hz⟩ := Spot.visit?_index.1 hz
    obtain ⟨-, b, us, w, rfl, hw, hy⟩ := Spot.visit?_index.1 hy
    obtain ⟨_, _, heq, hus⟩ := same_list.1 h
    cases heq
    obtain ⟨hi, rfl⟩ := List.getElem?_eq_some_iff.1 hx
    obtain ⟨hi', rfl⟩ := List.getElem?_eq_some_iff.1 hw
    exact same_visit ((plain_list.1 hpy).2 _ (List.getElem_mem hi'))
      ((plain_list.1 hpz).2 _ (List.getElem_mem hi)) (List.forall₂_iff_get.1 hus |>.2 i hi hi') hz hy

/-! ## What stands for what -/

/-- What of the result stands for what of the documents. The list is that of the keys of the table whose
schemas were inlined before. -/
inductive Shown (library : Library) (root : Place) (t out : Tree) :
    List Scalar → Place → Spot → Tree → Tree → Prop
  /-- A reference of the description. -/
  | position {steps spot x y} (hx : Spot.document.visit? t steps = some (spot, x))
      (hr : (spot.refers x).isSome) (hy : Spot.document.visit? out steps = some (spot, y)) :
      Shown library root t out (inlinedBefore t steps) root spot x y
  /-- A part of what was copied in the place of a reference. -/
  | copied {before doc kind r res x y steps spot x' y'}
      (h : Shown library root t out before doc (.visited kind) x y)
      (hr : (Spot.visited kind).refers x = some (kind, r))
      (hres : (library.add root t).target? doc r = some res) (hroot : res.path ≠ root)
      (hcopy : Reference.ofTree? y = none)
      (hx : (Spot.visited kind).visit? res.target.tree steps = some (spot, x'))
      (hy : (Spot.visited kind).visit? y steps = some (spot, y')) :
      Shown library root t out before res.path spot x' y'
  /-- A part of a schema that has joined the table. -/
  | joined {before doc spot r res x y e steps spot' x' y'}
      (h : Shown library root t out before doc spot x y) (hr : spot.refers x = some (.schema, r))
      (hres : (library.add root t).target? doc r = some res) (hroot : res.path ≠ root)
      (hnew : schemaOf t res.target.name = none) (he : schemaOf out res.target.name = some e)
      (hname : spot.writes (Reference.asTree (Reference.toSchema res.target.name)) = some y)
      (hx : (Spot.visited .schema).visit? res.target.tree steps = some (spot', x'))
      (hy : (Spot.visited .schema).visit? e steps = some (spot', y')) :
      Shown library root t out [] res.path spot' x' y'

/-- A name whose turn was over, or one that stands for the same schema before and after inlining. -/
def Settled (t out : Tree) (before : List Scalar) (name : String) : Prop :=
  .text name ∈ before ∨
    ∀ e₀ e, schemaOf t name = some e₀ → schemaOf out name = some e → e₀.same e = true

section

variable {before : List Scalar} {kind : Kind} {r : String} {res : Library.Resolved} {y z : Tree}
  {c : Scene}

/-- A copy is not the same as a reference. -/
theorem not_same_copy {n : Tree} (hn : Reference.ofTree? n = none) (hz : spot.writes n = some z)
    (hy : spot.writes (Reference.asTree r) = some y) (hpz : Plain z) (hpy : Plain y) :
    z.same y = false := by
  refine Bool.eq_false_iff.2 fun h => ?_
  cases spot with
  | mappingTarget =>
    rw [Spot.writes, hn] at hz
    cases hz
  | _ =>
    cases hz
    cases hy
    cases hn.symm.trans (ofTree?_same (same_symm hpz hpy h) (Reference.ofTree?_asTree r))

theorem plain_schemaOf {name : String} {e : Tree} (hp : Plain t) (he : schemaOf t name = some e) :
    Plain e := by
  obtain ⟨u, hu, he⟩ := Option.bind_eq_some_iff.1 he
  obtain ⟨v, hv, hu⟩ := Option.bind_eq_some_iff.1 hu
  exact hp.down (l := ["components", "schemas", name]) (by simp [Tree.down?, hv, hu, he])

/-- A settled name is compared as it stands in the result. -/
theorem Settled.same_eq {name : String} {e e' n : Tree} (hs : Settled t out before name)
    (hseen : Seen (schemaOf t) (schemaOf out) (fun name => .text name ∉ before) name e')
    (he : schemaOf out name = some e) (hpt : Plain t) (hout : Plain out) : e'.same n = e.same n := by
  rcases hseen with hfinal | ⟨hpending, hfirst⟩
  · cases he.symm.trans hfinal
    rfl
  · rcases hs with hbefore | hkeeps
    · exact absurd hbefore hpending
    · have hsame := hkeeps e' e hfirst he
      have hsymm := same_symm (plain_schemaOf hpt hfirst) (plain_schemaOf hout he) hsame
      exact Bool.eq_iff_iff.2 ⟨same_trans hsymm, same_trans hsame⟩

variable (hdocs : ∀ p d, library.get p = .ok d → Plain d) (hp : Plain t)
  (h : inlineReferences library root t = .ok out)
include hdocs hp h

/-- What is shown for a tree is the same as what inlining makes of it. -/
theorem Shown.inlines (hs : Shown library root t out before doc spot x y) :
    Plain out ∧ Plain x ∧ Plain y ∧ ∃ z, z.same y = true ∧ Plain z ∧
      Inlines (seenWhile library root t out fun name => .text name ∉ before) doc spot x z := by
  have hget : ∀ p d, (library.add root t).get p = .ok d → Plain d := plain_add hdocs hp
  induction hs with
  | position hx hr hy =>
    obtain ⟨y', hy', hi, hpx, hout⟩ := inlined_at hdocs hp h hx hr
    cases hy.symm.trans hy'
    have hpy := hi.plain hget (Spot.grows_of_refers hr) hpx
    exact ⟨hout, hpx, hpy, _, same_refl hpy, hpy, hi⟩
  | copied _ hr hres hroot hcopy hx hy ih =>
    obtain ⟨hout, hpx, hpy, z, hsame, hpz, hi⟩ := ih
    obtain ⟨n, hn, ⟨hw, -⟩ | ⟨-, -, hw⟩⟩ := hi.foreign hr hres hroot
    · cases hw
      obtain ⟨z', hz', hi', hpx'⟩ := hn.visit (plain_target hget hres) hx
      obtain ⟨-, hpy', hpz', hsame'⟩ := same_visit hpy hpz hsame hz' hy
      exact ⟨hout, hpx', hpy', z', hsame', hpz', hi'⟩
    · cases hw
      rw [eq_of_same_asTree hpy hsame, Reference.ofTree?_asTree] at hcopy
      cases hcopy
  | joined _ hr hres hroot hnew he hname hx hy ih =>
    obtain ⟨hout, hpx, hpy, z, hsame, hpz, hi⟩ := ih
    obtain ⟨n, hn, ⟨hw, -⟩ | ⟨-, hkept, -⟩⟩ := hi.foreign hr hres hroot
    · have hno := hn.ofTree?_eq_none (fun hg => by cases hg) (Library.ofTree?_target hres)
      rw [not_same_copy hno hw hname hpz hpy] at hsame
      cases hsame
    · rcases hkept with ⟨e', hseen | ⟨-, hfirst⟩, hsame'⟩ | hnull
      · cases he.symm.trans hseen
        have hpt := plain_target hget hres
        have hpn := hn.plain hget rfl hpt
        have hpe := plain_schemaOf hout he
        obtain ⟨z', hz', hi', hpx'⟩ := (seenWhile_mono hn rfl fun _ _ => List.not_mem_nil).visit hpt hx
        obtain ⟨-, hpy', hpz', hsame''⟩ := same_visit hpe hpn (same_symm hpe hpn hsame') hz' hy
        exact ⟨hout, hpx', hpy', z', hsame'', hpz', hi'⟩
      · cases hnew.symm.trans hfirst
      · cases hnew.symm.trans hnull

theorem isSome_schemaOf {name : String} (hs : (schemaOf t name).isSome) :
    (schemaOf out name).isSome := by
  cases t with
  | map a es =>
    obtain ⟨rfl, -⟩ := plain_map.1 hp
    obtain ⟨es', hstages⟩ := stages_inlineReferences hdocs hp h
    exact hstages.names name hs
  | _ => cases hs

/-- Schemas that are the same have one name: wherever a reference to a foreign schema is met, in the
description, in a copy or in a schema that has joined the table, the schema's name takes its place if the
name stands for the same schema in the result, as long as the turn of the name was over or its schema
stays what it was. Otherwise a copy does. -/
theorem collapses_inlineReferences :
    (∀ steps spot x, Spot.document.visit? t steps = some (spot, x) → (spot.refers x).isSome →
      ∃ y, Spot.document.visit? out steps = some (spot, y)) ∧
    ∀ before doc spot x y r res, Shown library root t out before doc spot x y →
      spot.refers x = some (.schema, r) → (library.add root t).target? doc r = some res →
      res.path ≠ root → Settled t out before res.target.name → ∃ n e,
        Inlines (seenWhile library root t out fun name => .text name ∉ before) res.path
          (.visited .schema) res.target.tree n ∧ schemaOf out res.target.name = some e ∧
        (e.same n = true →
          spot.writes (Reference.asTree (Reference.toSchema res.target.name)) = some y) ∧
        (e.same n = false → (∃ m, spot.writes n = some m ∧ m.same y = true) ∨
          schemaOf t res.target.name = some .null ∧
            spot.writes (Reference.asTree (Reference.toSchema res.target.name)) = some y) := by
  refine ⟨fun steps spot x hx hr => ?_, fun before doc spot x y r res hs hr hres hroot hsettled => ?_⟩
  · obtain ⟨y, hy, -⟩ := inlined_at hdocs hp h hx hr
    exact ⟨y, hy⟩
  · obtain ⟨hout, hpx, hpy, z, hsame, hpz, hi⟩ := hs.inlines hdocs hp h
    obtain ⟨n, hn, hput⟩ := hi.foreign hr hres hroot
    have hentry : ∀ e', Seen (schemaOf t) (schemaOf out) (fun name => .text name ∉ before)
        res.target.name e' → ∃ e, schemaOf out res.target.name = some e ∧ e'.same n = e.same n := by
      intro e' hseen
      have hsome : (schemaOf out res.target.name).isSome := by
        rcases hseen with hfinal | ⟨-, hfirst⟩
        · rw [hfinal]; rfl
        · exact isSome_schemaOf hdocs hp h (by rw [hfirst]; rfl)
      obtain ⟨e, he⟩ := Option.isSome_iff_exists.1 hsome
      exact ⟨e, he, hsettled.same_eq hseen he hp hout⟩
    rcases hput with ⟨hw, htaken⟩ | ⟨-, ⟨e', hseen, hkept⟩ | hnull, hw⟩
    · obtain ⟨e', hseen, hdiffers⟩ := htaken rfl
      obtain ⟨e, he, heq⟩ := hentry e' hseen
      rw [heq] at hdiffers
      exact ⟨n, e, hn, he, fun hs => absurd hs (Bool.eq_false_iff.1 hdiffers),
        fun _ => .inl ⟨z, hw, hsame⟩⟩
    · obtain ⟨e, he, heq⟩ := hentry e' hseen
      rw [heq] at hkept
      obtain rfl := eq_of_same_writes hpy hw hsame
      exact ⟨n, e, hn, he, fun _ => hw, fun hs => absurd hkept (Bool.eq_false_iff.1 hs)⟩
    · obtain ⟨e, he⟩ := Option.isSome_iff_exists.1
        (isSome_schemaOf hdocs hp h (by rw [hnull]; rfl : (schemaOf t res.target.name).isSome))
      obtain rfl := eq_of_same_writes hpy hw hsame
      exact ⟨n, e, hn, he, fun _ => hw, fun _ => .inr ⟨hnull, hw⟩⟩

end

/-! ## A reference before and after the turn of its name -/

/-- A schema. -/
def sampleThing : Tree :=
  Tree.object [("type", .text "object"),
    ("properties", Tree.object [("id", Tree.object [("type", .text "string")])])]

/-- The schema in a document next to the description. -/
def sampleThings : Library :=
  [(⟨true, ["bar.json"]⟩, .ok (Tree.object [("Pet", sampleThing)]))]

/-- A response with a schema. -/
def sampleReply (schema : Tree) : Tree :=
  Tree.object [("description", .text "ok"),
    ("content", Tree.object [("application/json", Tree.object [("schema", schema)])])]

/-- A description with a schema in a path, in a response and in the table of schemas. -/
def sampleThrice (inPath inResponse inTable : Tree) : Tree :=
  Tree.object [
    ("openapi", .text "3.0.0"),
    ("paths", Tree.object [("/pets", Tree.object [("get", Tree.object [
      ("operationId", .text "listPets"),
      ("responses", Tree.object [("200", sampleReply inPath)])])])]),
    ("components", Tree.object [
      ("responses", Tree.object [("Ok", sampleReply inResponse)]),
      ("schemas", Tree.object [("Pet", inTable)])])]

/-- The description before inlining: the schema is a reference everywhere. -/
def sampleReferences : Tree :=
  sampleThrice (Reference.asTree "bar.json#/Pet") (Reference.asTree "bar.json#/Pet")
    (Reference.asTree "bar.json#/Pet")

/-- The description after inlining. -/
def sampleCollapsed : Tree :=
  sampleThrice (Reference.asTree "#/components/schemas/Pet") sampleThing sampleThing

theorem inlineReferences_sampleReferences :
    inlineReferences sampleThings samplePlace sampleReferences = .ok sampleCollapsed :=
  eq_ok_of_toOption (by decide +kernel)

/-- The steps to the schema of a response. -/
def sampleSteps (response : List String) : List Step :=
  (response ++ ["content", "application/json", "schema"]).map fun key => .key (.text key)

theorem target_sampleReferences :
    ∃ res, (sampleThings.add samplePlace sampleReferences).target? samplePlace "bar.json#/Pet" = some res ∧
      res.path ≠ samplePlace ∧ res.target.name = "Pet" := by
  have h : ((sampleThings.add samplePlace sampleReferences).target? samplePlace "bar.json#/Pet").map
      (fun res => (res.path, res.target.name)) = some (⟨true, ["bar.json"]⟩, "Pet") := by decide +kernel
  obtain ⟨res, hres, heq⟩ := Option.map_eq_some_iff.1 h
  obtain ⟨hpath, hname⟩ := Prod.mk.inj heq
  exact ⟨res, hres, by rw [hpath]; decide, hname⟩

theorem plain_sampleThings (p : Place) (d : Tree) (hd : sampleThings.get p = .ok d) : Plain d :=
  plain_get (by simp [sampleThings, sampleThing, Scalar.anchor]) p d hd

theorem plain_sampleReferences : Plain sampleReferences := by
  simp [sampleReferences, sampleThrice, sampleReply, Reference.asTree, Scalar.anchor]

/-- In a path, where the turn of the name is over, the name takes the place of the reference. -/
theorem collapses_sampleReferences :
    Shown sampleThings samplePlace sampleReferences sampleCollapsed [.text "Pet"] samplePlace
        (.visited .schema) (Reference.asTree "bar.json#/Pet")
        (Reference.asTree "#/components/schemas/Pet") ∧
      Settled sampleReferences sampleCollapsed [.text "Pet"] "Pet" ∧
      ∃ res n e, (sampleThings.add samplePlace sampleReferences).target? samplePlace "bar.json#/Pet" =
          some res ∧ res.path ≠ samplePlace ∧ res.target.name = "Pet" ∧
        Inlines (seenWhile sampleThings samplePlace sampleReferences sampleCollapsed
          fun name => .text name ∉ [Scalar.text "Pet"]) res.path (.visited .schema) res.target.tree n ∧
        schemaOf sampleCollapsed "Pet" = some e ∧ e.same n = true := by
  have hshown : Shown sampleThings samplePlace sampleReferences sampleCollapsed [.text "Pet"] samplePlace
      (.visited .schema) (Reference.asTree "bar.json#/Pet")
      (Reference.asTree "#/components/schemas/Pet") := by
    have hbefore : inlinedBefore sampleReferences
        (sampleSteps ["paths", "/pets", "get", "responses", "200"]) = [.text "Pet"] := by
      decide +kernel
    rw [← hbefore]
    exact .position (by decide +kernel) (by decide +kernel) (by decide +kernel)
  have hsettled : Settled sampleReferences sampleCollapsed [.text "Pet"] "Pet" :=
    .inl List.mem_cons_self
  obtain ⟨res, hres, hroot, hname⟩ := target_sampleReferences
  obtain ⟨n, e, hi, he, -, hdiffers⟩ := (collapses_inlineReferences plain_sampleThings
    plain_sampleReferences inlineReferences_sampleReferences).2 _ _ _ _ _ "bar.json#/Pet" _ hshown
    (by decide +kernel) hres hroot (hname ▸ hsettled)
  rw [hname] at he hdiffers
  refine ⟨hshown, hsettled, res, n, e, hres, hroot, hname, hi, he, ?_⟩
  have hget : ∀ p d, (sampleThings.add samplePlace sampleReferences).get p = .ok d → Plain d :=
    plain_add plain_sampleThings plain_sampleReferences
  by_contra hne
  rcases hdiffers (Bool.eq_false_iff.2 hne) with ⟨m, hm, hsame⟩ | ⟨hnull, -⟩
  · have hno := hi.ofTree?_eq_none (fun hg => by cases hg) (Library.ofTree?_target hres)
    have hpn := hi.plain hget rfl (plain_target hget hres)
    have hpm : Plain m := Option.some.inj hm ▸ hpn
    have hwrites : (Spot.visited .schema).writes (Reference.asTree "#/components/schemas/Pet") =
        some (Reference.asTree "#/components/schemas/Pet") := rfl
    rw [not_same_copy hno hm hwrites hpm (Reference.plain_asTree _)] at hsame
    cases hsame
  · exact absurd hnull (by decide +kernel)

/-- In a response the name is compared before its turn, when it still stands for a reference, and a copy
takes the place of the reference. -/
theorem not_collapses_sampleReferences :
    inlineReferences sampleThings samplePlace sampleReferences = .ok sampleCollapsed ∧
      Spot.document.visit? sampleReferences (sampleSteps ["components", "responses", "Ok"]) =
        some (.visited .schema, Reference.asTree "bar.json#/Pet") ∧
      ∃ res, (sampleThings.add samplePlace sampleReferences).target? samplePlace "bar.json#/Pet" =
          some res ∧ res.path ≠ samplePlace ∧ res.target.name = "Pet" ∧
        Inlines (seenWhile sampleThings samplePlace sampleReferences sampleCollapsed
          fun name => .text name ∉ ([] : List Scalar)) res.path (.visited .schema) res.target.tree
          sampleThing ∧
        schemaOf sampleCollapsed "Pet" = some sampleThing ∧ sampleThing.same sampleThing = true ∧
        Spot.document.visit? sampleCollapsed (sampleSteps ["components", "responses", "Ok"]) =
          some (.visited .schema, sampleThing) ∧
        sampleThing ≠ Reference.asTree (Reference.toSchema "Pet") := by
  have hx : Spot.document.visit? sampleReferences (sampleSteps ["components", "responses", "Ok"]) =
      some (.visited .schema, Reference.asTree "bar.json#/Pet") := by decide +kernel
  have hy : Spot.document.visit? sampleCollapsed (sampleSteps ["components", "responses", "Ok"]) =
      some (.visited .schema, sampleThing) := by decide +kernel
  have hcopy : sampleThing ≠ Reference.asTree (Reference.toSchema "Pet") := by decide +kernel
  obtain ⟨res, hres, hroot, hname⟩ := target_sampleReferences
  obtain ⟨y, hy', hi, -⟩ := inlined_at plain_sampleThings plain_sampleReferences
    inlineReferences_sampleReferences hx (by decide +kernel)
  cases hy.symm.trans hy'
  have hr : (Spot.visited .schema).refers (Reference.asTree "bar.json#/Pet") =
      some (.schema, "bar.json#/Pet") := by decide +kernel
  obtain ⟨n, hn, ⟨hw, -⟩ | ⟨-, -, hw⟩⟩ := hi.foreign hr hres hroot
  · obtain rfl := Option.some.inj hw
    exact ⟨inlineReferences_sampleReferences, hx, res, hres, hroot, hname, hn, by decide +kernel,
      by decide +kernel, hy, hcopy⟩
  · rw [hname] at hw
    exact absurd (Option.some.inj hw).symm hcopy

end ApiContract.Inline
