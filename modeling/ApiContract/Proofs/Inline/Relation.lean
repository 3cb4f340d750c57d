import ApiContract.Proofs.Inline.Spot
import ApiContract.Proofs.Reference.Pointer

/-!
# What inlining makes of a tree

`Inlines c doc spot t t'`: inlining may put `t'` where the document at `doc` has `t` in a position that
is visited as `spot`. The rules are those of the references, one each for a way back into the
description (`home`), a target that is copied (`copied`) and a schema that is referred to by its name
(`named`), and those that go on to the parts. The scene says which names stand for a schema and which
are taken by another one.

* `Inlines.plain`: plain trees become plain ones.
* `Inlines.references`: no foreign reference is left.
* `Inlines.eq_self`: a part of the description without foreign references stays as it is.
-/

namespace ApiContract.Inline

open Tree Walk

/-- The documents and the place of the description among them, and what is known of its table of
schemas. -/
structure Scene where
  library : Library
  root : Place
  /-- The name stands for a schema that is the same. -/
  kept : String → Tree → Prop
  /-- The name is taken by another schema. -/
  taken : String → Tree → Prop
  /-- What joins the entries of a position where entries may join. -/
  joins : Spot → Scalar → Tree → Prop

/-- What inlining may make of a tree. -/
inductive Inlines (c : Scene) : Place → Spot → Tree → Tree → Prop
  | home {doc spot t kind r res t'} (hr : spot.refers t = some (kind, r))
      (hres : c.library.target? doc r = some res) (hroot : res.path = c.root)
      (hw : spot.writes (localReference res.pointer) = some t') : Inlines c doc spot t t'
  | copied {doc spot t kind r res n t'} (hr : spot.refers t = some (kind, r))
      (hres : c.library.target? doc r = some res) (hroot : res.path ≠ c.root)
      (hn : Inlines c res.path (.visited kind) res.target.tree n)
      (hk : kind = .schema → c.taken res.target.name n) (hw : spot.writes n = some t') :
      Inlines c doc spot t t'
  | named {doc spot t r res n t'} (hr : spot.refers t = some (.schema, r))
      (hres : c.library.target? doc r = some res) (hroot : res.path ≠ c.root)
      (hn : Inlines c res.path (.visited .schema) res.target.tree n)
      (hk : c.kept res.target.name n)
      (hw : spot.writes (Reference.asTree (Reference.toSchema res.target.name)) = some t') :
      Inlines c doc spot t t'
  | list {doc spot a ts ts'} (hl : ts.length = ts'.length)
      (hts : ∀ (i : Nat) (x x' : Tree), ts[i]? = some x → ts'[i]? = some x' →
        Inlines c doc spot.item x x') : Inlines c doc spot (.list a ts) (.list a ts')
  | map {doc spot a} {es es' : Entries} (hr : spot.refers (.map a es) = none)
      (hk : es.keys <+: es'.keys) (hg : spot.grows = false → es'.length = es.length)
      (hes : ∀ k x x', es.at? k = some x → es'.at? k = some x' →
        Inlines c doc (spot.part k) x x')
      (hj : ∀ k x, es.at? k = none → es'.at? k = some x → c.joins spot k x) :
      Inlines c doc spot (.map a es) (.map a es')
  | leaf {doc spot t} (hr : spot.refers t = none) (hm : t.entries? = none) (hl : t.items? = none) :
      Inlines c doc spot t t

/-! ## Positions that do not grow -/

namespace Spot

theorem grows_along (kind : Kind) (k : Scalar) : (along kind k).grows = false := by
  cases k with
  | text key =>
    simp only [along]
    cases (edges kind).lookup key <;> rfl
  | _ => rfl

/-- Nothing joins below a position where nothing joins. -/
theorem grows_part {spot : Spot} (h : spot.grows = false) (k : Scalar) :
    (spot.part k).grows = false := by
  cases spot with
  | document | components | table => cases h
  | visited kind =>
    cases kind with
    | schema =>
      simp only [part]
      split
      · rfl
      · exact grows_along _ _
    | mapOf | callback => rfl
    | _ => exact grows_along _ _
  | discriminator =>
    simp only [part]
    split <;> rfl
  | _ => rfl

theorem grows_item (spot : Spot) : spot.item.grows = false := by
  cases spot with
  | visited kind => cases kind <;> rfl
  | _ => rfl

/-- Nothing joins a reference. -/
theorem grows_of_refers {spot : Spot} {t : Tree} (hr : (spot.refers t).isSome) :
    spot.grows = false := by
  cases spot with
  | document | components | table => cases hr
  | _ => rfl

end Spot

theorem keys_eq {es es' : Entries} (hk : es.keys <+: es'.keys) (hl : es'.length = es.length) :
    es'.keys = es.keys :=
  (hk.eq_of_length (by simpa [Entries.keys] using hl.symm)).symm

variable {c d : Scene} {doc : Place} {spot : Spot} {t t' : Tree}

/-- More knowledge of the table keeps what inlining may make of a tree. -/
theorem Inlines.mono (hlib : c.library = d.library) (hroot : c.root = d.root)
    (hk : ∀ name n, c.kept name n → d.kept name n) (ht : ∀ name n, c.taken name n → d.taken name n)
    (h : Inlines c doc spot t t') : spot.grows = false → Inlines d doc spot t t' := by
  induction h with
  | home hr hres hp hw => exact fun _ => .home hr (hlib ▸ hres) (hroot ▸ hp) hw
  | copied hr hres hp _ hc hw ih =>
    exact fun _ => .copied hr (hlib ▸ hres) (hroot ▸ hp) (ih rfl) (fun h => ht _ _ (hc h)) hw
  | named hr hres hp _ hc hw ih =>
    exact fun _ => .named hr (hlib ▸ hres) (hroot ▸ hp) (ih rfl) (hk _ _ hc) hw
  | list hl _ ih => exact fun _ => .list hl fun i x x' hx hx' => ih i x x' hx hx' (Spot.grows_item _)
  | map hr hkeys hg _ hj ih =>
    intro hs
    refine .map hr hkeys hg (fun k x x' hx hx' => ih k x x' hx hx' (Spot.grows_part hs k)) ?_
    intro k x hx hx'
    rw [(Entries.at?_eq_none_congr (keys_eq hkeys (hg hs))).2 hx] at hx'
    cases hx'
  | leaf hr hm hl => exact fun _ => .leaf hr hm hl

/-! ## The shape of what comes out -/

theorem Inlines.map_inv {a : Anchor} {es : Entries} (h : Inlines c doc spot (.map a es) t')
    (hr : spot.refers (.map a es) = none) :
    ∃ es' : Entries, t' = .map a es' ∧ es.keys <+: es'.keys ∧
      (spot.grows = false → es'.length = es.length) ∧
      (∀ k x x', es.at? k = some x → es'.at? k = some x' → Inlines c doc (spot.part k) x x') ∧
      ∀ k x, es.at? k = none → es'.at? k = some x → c.joins spot k x := by
  cases h with
  | home hr' | copied hr' | named hr' => rw [hr] at hr'; cases hr'
  | map _ hk hg hes hj => exact ⟨_, rfl, hk, hg, hes, hj⟩
  | leaf _ hm => cases hm

theorem Inlines.list_inv {a : Anchor} {ts : List Tree} (h : Inlines c doc spot (.list a ts) t') :
    ∃ ts', t' = .list a ts' ∧ ts.length = ts'.length ∧
      ∀ (i : Nat) (x x' : Tree), ts[i]? = some x → ts'[i]? = some x' →
        Inlines c doc spot.item x x' := by
  cases h with
  | home hr | copied hr | named hr => cases hr.symm.trans (Spot.refers_list _ _ _)
  | list hl hts => exact ⟨_, rfl, hl, hts⟩
  | leaf _ _ hl => cases hl

/-- What takes the place of a foreign reference: a copy, or the name of a schema. -/
theorem Inlines.foreign {kind : Kind} {r : String} {res : Library.Resolved}
    (h : Inlines c doc spot t t') (hr : spot.refers t = some (kind, r))
    (hres : c.library.target? doc r = some res) (hroot : res.path ≠ c.root) :
    ∃ n, Inlines c res.path (.visited kind) res.target.tree n ∧
      ((spot.writes n = some t' ∧ (kind = .schema → c.taken res.target.name n)) ∨
        (kind = .schema ∧ c.kept res.target.name n ∧
          spot.writes (Reference.asTree (Reference.toSchema res.target.name)) = some t')) := by
  cases h with
  | home hr' hres' hroot' =>
    cases hr.symm.trans hr'
    cases hres.symm.trans hres'
    exact absurd hroot' hroot
  | copied hr' hres' _ hn hk hw =>
    cases hr.symm.trans hr'
    cases hres.symm.trans hres'
    exact ⟨_, hn, .inl ⟨hw, hk⟩⟩
  | named hr' hres' _ hn hk hw =>
    cases hr.symm.trans hr'
    cases hres.symm.trans hres'
    exact ⟨_, hn, .inr ⟨rfl, hk, hw⟩⟩
  | list => cases hr.symm.trans (Spot.refers_list _ _ _)
  | map hr' | leaf hr' => cases hr.symm.trans hr'

/-- A text comes from a text. -/
theorem Inlines.text {s : String} (h : Inlines c doc spot t (.text s)) : ∃ r, t = .text r := by
  cases h with
  | home hr _ _ hw | named hr _ _ _ _ hw =>
    rcases Spot.refers_eq_some hr with ⟨rfl, -, -⟩ | ⟨-, -, rfl, -⟩
    · cases hw
    · exact ⟨_, rfl⟩
  | copied hr hres _ hn _ hw =>
    rcases Spot.refers_eq_some hr with ⟨rfl, -, -⟩ | ⟨-, -, rfl, -⟩
    · cases hw
      obtain ⟨_, he, -⟩ := hn.map_inv (Spot.refers_visited_eq_none (Library.ofTree?_target hres))
      cases he
    · exact ⟨_, rfl⟩
  | leaf => exact ⟨s, rfl⟩

/-- What is no reference does not become one. -/
theorem Inlines.ofTree?_eq_none {a : Anchor} {es : Entries}
    (h : Inlines c doc spot (.map a es) t')
    (hj : spot.grows = true → ∀ x, c.joins spot (.text "$ref") x → x.text? = none)
    (hr : Reference.ofTree? (.map a es) = none) : Reference.ofTree? t' = none := by
  obtain ⟨es', rfl, hk, hg, hes, hjoins⟩ := h.map_inv (Spot.refers_eq_none hr)
  rw [Reference.ofTree?_map] at hr ⊢
  cases hx' : Entries.at? (.text "$ref") es' with
  | none => rfl
  | some x' =>
    cases hs : x'.text? with
    | none => simpa using hs
    | some s =>
      cases hx : Entries.at? (.text "$ref") es with
      | none =>
        cases hs' : spot.grows with
        | false =>
          rw [(Entries.at?_eq_none_congr (keys_eq hk (hg hs'))).2 hx] at hx'
          cases hx'
        | true =>
          rw [hj hs' x' (hjoins _ x' hx hx')] at hs
          cases hs
      | some x =>
        obtain rfl : x' = .text s := by
          unfold Tree.text? at hs
          split at hs <;> simp_all
        obtain ⟨r, rfl⟩ := (hes _ _ _ hx hx').text
        rw [hx] at hr
        cases hr

theorem Inlines.refers_eq_none {a b : Anchor} {es es' : Entries}
    (h : Inlines c doc spot (.map a es) (.map b es')) (hr : spot.refers (.map a es) = none) :
    spot.refers (.map b es') = none := by
  cases spot with
  | visited kind =>
    simp only [Spot.refers] at hr ⊢
    split
    · rename_i hk
      rw [if_pos hk, Option.map_eq_none_iff] at hr
      rw [h.ofTree?_eq_none (fun h => by cases h) hr]
      rfl
    · rfl
  | _ => rfl

/-! ## Positions that no visit looks into -/

/-- What no visit looks into may stay. -/
theorem inlines_rest (hr : spot.refers t = none) (hi : spot.item = .inert)
    (hp : ∀ k, spot.part k = .inert) : Inlines c doc spot t t := by
  induction t using Tree.induct generalizing spot with
  | list a ts ih =>
    refine .list rfl fun i x x' hx hx' => ?_
    cases hx.symm.trans hx'
    rw [hi]
    exact ih x (List.mem_of_getElem? hx) (Spot.refers_inert x) rfl Spot.part_inert
  | map a es ih =>
    refine .map hr (List.prefix_refl _) (fun _ => rfl) (fun k x x' hx hx' => ?_) fun k x hx hx' => ?_
    · cases hx.symm.trans hx'
      rw [hp]
      exact ih _ (Entries.mem_of_at? hx) (Spot.refers_inert x) rfl Spot.part_inert
    · rw [hx] at hx'
      cases hx'
  | _ => exact .leaf hr rfl rfl

theorem inlines_inert (t : Tree) : Inlines c doc .inert t t :=
  inlines_rest (Spot.refers_inert t) rfl Spot.part_inert

/-- What is no map, and no list of objects, may stay. -/
theorem inlines_of_not_map (hm : t.entries? = none) (hr : spot.refers t = none)
    (hi : spot.item = .inert) : Inlines c doc spot t t := by
  cases t with
  | map a es => cases hm
  | list a ts =>
    refine .list rfl fun i x x' hx hx' => ?_
    cases hx.symm.trans hx'
    rw [hi]
    exact inlines_inert x
  | _ => exact .leaf hr rfl rfl

/-! ## Lone references -/

/-- Every reference in a tree is a map with no other entry. -/
def Lone : Tree → Prop :=
  para {
    scalar _ := True
    list _ items := ∀ i ∈ items, i.2
    map _ entries :=
      ((Reference.ofEntries? (entries.map fun e => (e.1, e.2.1))).isSome → entries.length = 1) ∧
        ∀ e ∈ entries, e.2.2
    set _ _ := True
    pair x y := x.2 ∧ y.2
    back _ _ := True }

theorem lone_list {a : Anchor} {ts : List Tree} : Lone (.list a ts) ↔ ∀ t ∈ ts, Lone t := by
  simp only [Lone, para, paraItems_eq, List.forall_mem_map]

theorem lone_map {a : Anchor} {es : Entries} :
    Lone (.map a es) ↔
      ((Reference.ofTree? (.map a es)).isSome → es.length = 1) ∧ ∀ e ∈ es, Lone e.2 := by
  simp only [Lone, para, paraEntries_eq, List.forall_mem_map, List.map_map, List.length_map]
  simp [Reference.ofTree?, Tree.entries?, Function.comp_def]

@[simp] theorem lone_text (s : String) : Lone (.text s) := trivial

@[simp] theorem lone_asTree (r : String) : Lone (Reference.asTree r) := by
  simp [Reference.asTree, Tree.object, lone_map]

/-- There is nothing in a lone reference but where it leads. -/
theorem eq_text_of_lone {a : Anchor} {es : Entries} {r : String} (hl : Lone (.map a es))
    (hr : Reference.ofTree? (.map a es) = some r) {k : Scalar} {y : Tree} (hy : es.at? k = some y) :
    y = .text r := by
  have hlen := (lone_map.1 hl).1 (by simp [hr])
  obtain ⟨⟨l, z⟩, rfl⟩ := List.length_eq_one_iff.1 hlen
  rw [Reference.ofTree?_map, Option.bind_eq_some_iff] at hr
  obtain ⟨w, hw, hr⟩ := hr
  obtain rfl : z = w := by
    rw [Entries.at?_cons] at hw
    split at hw
    · exact Option.some.inj hw
    · cases hw
  rw [Entries.at?_cons] at hy
  split at hy
  · cases hy
    unfold Tree.text? at hr
    split at hr
    · cases hr; rfl
    · cases hr
  · cases hy

/-- A lone reference is known by where it leads. -/
theorem eq_asTree {r : String} (hp : Plain t) (hl : Lone t) (hr : Reference.ofTree? t = some r) :
    t = Reference.asTree r := by
  cases t with
  | map a es =>
    obtain ⟨rfl, -, -⟩ := plain_map.1 hp
    have hlen := (lone_map.1 hl).1 (by simp [hr])
    obtain ⟨⟨k, x⟩, rfl⟩ := List.length_eq_one_iff.1 hlen
    have href := hr
    rw [Reference.ofTree?_map, Option.bind_eq_some_iff] at hr
    obtain ⟨y, hy, -⟩ := hr
    obtain rfl := eq_text_of_lone hl href hy
    rw [Entries.at?_cons] at hy
    split at hy
    · cases hy
      subst k
      rfl
    · cases hy
  | _ => cases hr

/-- A reference text that names no other document. -/
def Rooted (reference : String) : Prop := ∃ pointer, reference = "#/" ++ pointer

/-- A part of the description whose references are all local stays as it is. -/
theorem Inlines.eq_self (h : Inlines c doc spot t t') (hdoc : doc = c.root) :
    spot.grows = false → Plain t → Lone t → References (fun _ r => Rooted r) spot t → t' = t := by
  induction h with
  | home hr hres _ hw =>
    intro _ hp hl hP
    obtain ⟨pointer, rfl⟩ := hP.here hr
    rw [localReference, (Library.eq_of_target?_rooted hres).2] at hw
    rcases Spot.refers_eq_some hr with ⟨rfl, -, hr⟩ | ⟨rfl, -, rfl, -⟩
    · rw [eq_asTree hp hl hr]
      cases hw
      rfl
    · cases hw
      rfl
  | copied hr hres hpath | named hr hres hpath =>
    intro _ _ _ hP
    obtain ⟨pointer, rfl⟩ := hP.here hr
    exact absurd ((Library.eq_of_target?_rooted hres).1.trans hdoc) hpath
  | list hl _ ih =>
    intro _ hp hlone hP
    refine congrArg _ (List.ext_getElem hl.symm fun i hi' hi => ?_)
    have hx := List.getElem?_eq_getElem hi
    exact ih i _ _ hx (List.getElem?_eq_getElem hi') hdoc (Spot.grows_item _)
      ((plain_list.1 hp).2 _ (List.getElem_mem hi)) (lone_list.1 hlone _ (List.getElem_mem hi))
      (hP.item hx)
  | @map _ _ _ es _ hr hk hg _ _ ih =>
    intro hs hp hlone hP
    have hkeys := keys_eq hk (hg hs)
    obtain ⟨-, hd, hpl⟩ := plain_map.1 hp
    refine congrArg _ (Entries.ext_at? hkeys hd.nodup fun k => ?_)
    cases hx : Entries.at? k es with
    | none => exact (Entries.at?_eq_none_congr hkeys).2 hx
    | some x =>
      obtain ⟨x', hx'⟩ := Entries.exists_at?_of_keys hk hx
      have hmem := Entries.mem_of_at? hx
      rw [hx', ih k x x' hx hx' hdoc (Spot.grows_part hs k) (hpl _ hmem).2
        ((lone_map.1 hlone).2 _ hmem) (hP.entry hr hx)]
  | leaf => exact fun _ _ _ _ => rfl

theorem references_inert {P : Kind → String → Prop} (t : Tree) : References P .inert t := by
  intro steps spot x kind reference hx hr
  rw [Spot.refers_of_inert hx] at hr
  cases hr

/-- What no visit looks into stays. -/
theorem Inlines.eq_of_inert (h : Inlines c c.root .inert t t') (hp : Plain t) (hl : Lone t) :
    t' = t :=
  h.eq_self rfl rfl hp hl (references_inert t)

/-! ## What holds of everything that comes out -/

theorem plain_writes {n : Tree} (hn : Plain n) (hw : spot.writes n = some t') : Plain t' := by
  cases spot with
  | mappingTarget =>
    obtain ⟨s, -, rfl⟩ := Option.map_eq_some_iff.1 hw
    exact plain_scalar.2 rfl
  | _ => cases hw; exact hn

/-- The target of a reference into plain documents is plain. -/
theorem plain_target {library : Library} {r : String} {res : Library.Resolved}
    (hdocs : ∀ p d, library.get p = .ok d → Plain d) (h : library.target? doc r = some res) :
    Plain res.target.tree := by
  obtain ⟨_, _, d, -, -, -, hd, hl⟩ := Library.target?_eq_some.1 h
  exact (hdocs _ _ hd).down hl.1

/-- Plain trees become plain trees, where nothing joins. -/
theorem Inlines.plain (hdocs : ∀ p d, c.library.get p = .ok d → Plain d)
    (h : Inlines c doc spot t t') : spot.grows = false → Plain t → Plain t' := by
  induction h with
  | home _ _ _ hw => exact fun _ _ => plain_writes (Reference.plain_asTree _) hw
  | copied _ hres _ _ _ hw ih => exact fun _ _ => plain_writes (ih rfl (plain_target hdocs hres)) hw
  | named _ _ _ _ _ hw => exact fun _ _ => plain_writes (Reference.plain_asTree _) hw
  | list hl _ ih =>
    intro _ hp
    obtain ⟨rfl, hts⟩ := plain_list.1 hp
    refine plain_list.2 ⟨rfl, fun x' hx' => ?_⟩
    obtain ⟨i, hi, rfl⟩ := List.getElem_of_mem hx'
    have hi' := hl ▸ hi
    exact ih i _ _ (List.getElem?_eq_getElem hi') (List.getElem?_eq_getElem hi) (Spot.grows_item _)
      (hts _ (List.getElem_mem hi'))
  | @map _ _ _ es es' hr hk hg _ _ ih =>
    intro hs hp
    have hkeys := keys_eq hk (hg hs)
    obtain ⟨rfl, -, hpl⟩ := plain_map.1 hp
    refine Entries.plain_of_keys hp hkeys fun k x' hx' => ?_
    obtain ⟨x, hx⟩ := Entries.exists_at?_of_keys_eq hkeys.symm hx'
    exact ih k x x' hx hx' (Spot.grows_part hs _) (hpl _ (Entries.mem_of_at? hx)).2
  | leaf => exact fun _ hp => hp

/-- The references of what is put at a position are those of what a reference is replaced by. -/
theorem references_writes {P : Kind → String → Prop} {kind : Kind} {r : String} {n : Tree}
    (hr : spot.refers t = some (kind, r)) (h : References P (.visited kind) n)
    (hw : spot.writes n = some t') : References P spot t' := by
  rcases Spot.refers_eq_some hr with ⟨rfl, -, -⟩ | ⟨rfl, rfl, -, -⟩
  · cases hw
    exact h
  · obtain ⟨r', hr', rfl⟩ := Option.map_eq_some_iff.1 hw
    have hP := h.here (Spot.refers_visited.2 ⟨rfl, rfl, hr'⟩)
    cases hs : Spot.mappingTarget.refers (.text r') with
    | none => exact references_leaf hs rfl rfl
    | some x =>
      refine references_of_refers hs ?_
      rcases Spot.refers_eq_some hs with ⟨he, -⟩ | ⟨-, hk, ht, -⟩
      · cases he
      · cases ht
        rw [hk]
        exact hP

/-- What is known of the references that are put in place of others holds of all that are left. -/
theorem Inlines.references {P : Kind → String → Prop}
    (hhome : ∀ doc kind r res, c.library.target? doc r = some res → res.path = c.root →
      P kind ("#/" ++ res.pointer))
    (hnamed : ∀ name n, c.kept name n → P .schema (Reference.toSchema name))
    (hjoins : ∀ spot k x, c.joins spot k x → References P (spot.part k) x)
    (h : Inlines c doc spot t t') : References P spot t' := by
  have hput : ∀ {spot : Spot} {t t' : Tree} {kind : Kind} {r r' : String},
      spot.refers t = some (kind, r) → P kind r' →
        spot.writes (Reference.asTree r') = some t' → References P spot t' := by
    intro spot t t' kind r r' hr hP hw
    refine references_writes hr ?_ hw
    cases hs : (Spot.visited kind).refers (Reference.asTree r') with
    | none =>
      simp only [Spot.refers, Reference.ofTree?_asTree] at hs
      rcases Spot.refers_eq_some hr with ⟨rfl, hk, -⟩ | ⟨-, rfl, -⟩
      · simp [hk] at hs
      · simp [Kind.mayRefer] at hs
    | some x =>
      obtain ⟨rfl, hk, hx⟩ := Spot.refers_visited.1 hs
      rw [Reference.ofTree?_asTree] at hx
      cases hx
      exact references_of_refers hs hP
  induction h with
  | home hr hres hroot hw => exact hput hr (hhome _ _ _ _ hres hroot) hw
  | copied hr _ _ _ _ hw ih => exact references_writes hr ih hw
  | named hr _ _ _ hk hw => exact hput hr (hnamed _ _ hk) hw
  | list hl _ ih =>
    refine references_list fun i x' hx' => ?_
    obtain ⟨hi', rfl⟩ := List.getElem?_eq_some_iff.1 hx'
    exact ih i _ _ (List.getElem?_eq_getElem (hl ▸ hi')) hx'
  | @map doc spot a es es' hr hk hg hes hj ih =>
    refine references_map ((Inlines.map hr hk hg hes hj).refers_eq_none hr) fun k x' hx' => ?_
    cases hx : Entries.at? k es with
    | none => exact hjoins _ _ _ (hj k x' hx hx')
    | some x => exact ih k x x' hx hx'
  | leaf hr hm hl => exact references_leaf hr hm hl

end ApiContract.Inline
