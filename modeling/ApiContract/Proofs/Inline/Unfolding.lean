import ApiContract.Proofs.Inline.Closed
import ApiContract.Proofs.Lists

/-!
# Inlining keeps what a description stands for

`unfold false library root n doc spot t`: the tree in a position of the document at `doc`, with its
references replaced by what they lead to, down to `n` levels of lists and maps. The references are
those that a visit of the position takes. A target in the description at `root` is read as what its
own position is visited, and any other target as an object of the kind that the reference stands for.

* `unfold_inlineReferences`: at every position that inlining visits, the unfolding of the description
  is that of the result.
* `unfold_whole_ne`: a reference to the table of schemas as a whole unfolds to more in the result.
* `Agree`: the relation between the two unfoldings that the proof carries from parts to wholes
  (`agree_map`, `agree_list`).
-/

namespace ApiContract.Inline

open Tree Walk

/-- A list or map with its parts replaced. -/
def parts (f : Spot → Tree → Option Tree) (spot : Spot) : Tree → Option Tree
  | .map a es => (es.mapM fun e => (f (spot.part e.1) e.2).map (e.1, ·)).map (.map a)
  | .list a ts => (ts.mapM (f spot.item)).map (.list a)
  | t => some t

/-- As what the target of a reference to an object of a kind is read. -/
def readAs (root : Place) (res : Library.Resolved) (kind : Kind) : Spot :=
  let spot := Spot.document.down (Reference.keysOf res.pointer)
  if res.path = root ∧ spot ≠ .inert then spot else .visited kind

/-- The tree in a position, unfolded down to a depth. Nothing is said of a reference that leads
nowhere, and only with `whole` of one that leads to something that entries may join. -/
def unfold (whole : Bool) (library : Library) (root : Place) :
    Nat → Place → Spot → Tree → Option Tree
  | 0, _, _, _ => some .null
  | n + 1, doc, spot, t =>
    match spot.refers t with
    | none => parts (unfold whole library root n doc) spot t
    | some (kind, r) =>
      (library.target? doc r).bind fun res =>
        if (readAs root res kind).grows && !whole then none
        else parts (unfold whole library root n res.path) (readAs root res kind) res.target.tree

/-! ## Agreement -/

/-- Where the first unfolding says something, the second says the same. -/
def Agree (f f' : Tree → Option Tree) (x x' : Tree) : Prop :=
  ∀ u, f x = some u → ∃ u', f' x' = some u' ∧ u.same u' = true

theorem mapM_eq_some {α β : Type} {f : α → Option β} :
    ∀ {xs : List α} {ys : List β},
      xs.mapM f = some ys ↔ List.Forall₂ (fun x y => f x = some y) xs ys
  | [], ys => by
    rw [List.mapM_nil, List.forall₂_nil_left_iff]
    exact ⟨fun h => (Option.some.inj h).symm, fun h => h ▸ rfl⟩
  | x :: xs, ys => by
    rw [List.mapM_cons, List.forall₂_cons_left_iff]
    constructor
    · intro h
      obtain ⟨y, hy, h⟩ := Option.bind_eq_some_iff.1 h
      obtain ⟨ys, hys, h⟩ := Option.bind_eq_some_iff.1 h
      cases h
      exact ⟨y, ys, hy, mapM_eq_some.1 hys, rfl⟩
    · rintro ⟨y, ys, hy, hys, rfl⟩
      simp [hy, mapM_eq_some.2 hys]

theorem exists_mapM {α β : Type} {f : α → Option β} :
    ∀ {xs : List α}, (∀ x ∈ xs, ∃ y, f x = some y) → ∃ ys, xs.mapM f = some ys
  | [], _ => ⟨[], rfl⟩
  | x :: xs, h => by
    obtain ⟨y, hy⟩ := h x List.mem_cons_self
    obtain ⟨ys, hys⟩ := exists_mapM fun z hz => h z (List.mem_cons_of_mem _ hz)
    exact ⟨y :: ys, by simp [List.mapM_cons, hy, hys]⟩

variable {f f' : Spot → Tree → Option Tree} {spot : Spot} {a b : Anchor}

theorem parts_map {es : Entries} {u : Tree} :
    parts f spot (.map a es) = some u ↔ ∃ us : Entries, u = .map a us ∧
      List.Forall₂ (fun e v => v.1 = e.1 ∧ f (spot.part e.1) e.2 = some v.2) es us := by
  simp only [parts, Option.map_eq_some_iff, mapM_eq_some]
  constructor
  · rintro ⟨us, h, rfl⟩
    refine ⟨us, rfl, h.imp ?_⟩
    rintro e v ⟨x, hx, rfl⟩
    exact ⟨rfl, hx⟩
  · rintro ⟨us, rfl, h⟩
    refine ⟨us, h.imp ?_, rfl⟩
    rintro e ⟨k, v⟩ ⟨rfl, hv⟩
    exact ⟨v, hv, rfl⟩

theorem parts_list {ts : List Tree} {u : Tree} :
    parts f spot (.list a ts) = some u ↔ ∃ us : List Tree, u = .list a us ∧
      List.Forall₂ (fun x v => f spot.item x = some v) ts us := by
  simp only [parts, Option.map_eq_some_iff, mapM_eq_some]
  constructor
  · rintro ⟨us, h, rfl⟩
    exact ⟨us, rfl, h⟩
  · rintro ⟨us, rfl, h⟩
    exact ⟨us, h, rfl⟩

theorem keys_of_parts {es us : Entries} {P : Scalar × Tree → Scalar × Tree → Prop}
    (h : List.Forall₂ (fun e v => v.1 = e.1 ∧ P e v) es us) : us.map (·.1) = es.map (·.1) := by
  induction h with
  | nil => rfl
  | cons he _ ih => rw [List.map_cons, List.map_cons, he.1, ih]

/-- Maps agree whose keys stand for the same scalars and whose values agree. -/
theorem agree_map {es fs : Entries} (hd : Distinct (fs.map (·.1))) (hlen : fs.length = es.length)
    (hfwd : ∀ e ∈ es, ∃ e' ∈ fs, e'.1.same e.1 = true ∧
      Agree (f (spot.part e.1)) (f' (spot.part e'.1)) e.2 e'.2)
    (hback : ∀ e' ∈ fs, ∃ e ∈ es, e'.1.same e.1 = true ∧
      Agree (f (spot.part e.1)) (f' (spot.part e'.1)) e.2 e'.2) :
    Agree (parts f spot) (parts f' spot) (.map a es) (.map b fs) := by
  intro u hu
  obtain ⟨us, rfl, hus⟩ := parts_map.1 hu
  obtain ⟨vs, hvs⟩ : ∃ vs, fs.mapM (fun e => (f' (spot.part e.1) e.2).map (e.1, ·)) = some vs := by
    refine exists_mapM fun e' he' => ?_
    obtain ⟨e, he, -, hagree⟩ := hback e' he'
    obtain ⟨v, -, -, hv⟩ := mem_of_forall₂_left hus he
    obtain ⟨u', hu', -⟩ := hagree _ hv
    exact ⟨(e'.1, u'), by rw [hu']; rfl⟩
  have hmap : parts f' spot (.map b fs) = some (.map b vs) := by
    simp only [parts, hvs, Option.map_some]
  obtain ⟨_, he, hvs'⟩ := parts_map.1 hmap
  cases he
  refine ⟨_, hmap, same_map.2 ⟨b, vs, rfl, ?_, fun v hv => ?_⟩⟩
  · rw [← hus.length_eq, ← hvs'.length_eq, hlen]
  · obtain ⟨e, he, hk, hv'⟩ := mem_of_forall₂_right hus hv
    obtain ⟨e', he', hsame, hagree⟩ := hfwd e he
    obtain ⟨w, hw, hkw, hw'⟩ := mem_of_forall₂_left hvs' he'
    obtain ⟨u', hu', hsame'⟩ := hagree _ hv'
    cases hu'.symm.trans hw'
    refine ⟨w.2, findSame?_of_mem (keys_of_parts hvs' ▸ hd) hw ?_, hsame'⟩
    rwa [hkw, hk]

/-- Lists agree whose items agree. -/
theorem agree_list {ts ts' : List Tree}
    (h : List.Forall₂ (Agree (f spot.item) (f' spot.item)) ts ts') :
    Agree (parts f spot) (parts f' spot) (.list a ts) (.list b ts') := by
  intro u hu
  obtain ⟨us, rfl, hus⟩ := parts_list.1 hu
  have hvs : ∃ vs, List.Forall₂ (fun t v => f' spot.item t = some v) ts' vs ∧
      List.Forall₂ (fun u v => same u v = true) us vs := by
    clear hu
    induction h generalizing us with
    | nil =>
      cases hus
      exact ⟨[], .nil, .nil⟩
    | cons hagree _ ih =>
      obtain ⟨u, us', hu, hus', rfl⟩ := List.forall₂_cons_left_iff.1 hus
      obtain ⟨v, hv, hsame⟩ := hagree u hu
      obtain ⟨vs, hvs, hsames⟩ := ih us' hus'
      exact ⟨v :: vs, .cons hv hvs, .cons hsame hsames⟩
  obtain ⟨vs, hvs, hsame⟩ := hvs
  exact ⟨.list b vs, parts_list.2 ⟨vs, rfl, hvs⟩, same_list.2 ⟨b, vs, rfl, hsame⟩⟩

/-! ## Parts that agree -/

/-- A tree without parts agrees with itself. -/
theorem agree_leaf {x : Tree} (hp : Plain x) (hm : x.entries? = none) (hl : x.items? = none) :
    Agree (parts f spot) (parts f' spot) x x := by
  intro u hu
  cases x with
  | map a es => cases hm
  | list a ts => cases hl
  | _ => cases hu; exact ⟨_, rfl, same_refl hp⟩

/-- A tree agrees with itself if its parts do. -/
theorem agree_self {x : Tree} (hp : Plain x)
    (h : ∀ spot' y, Plain y → (spot' = spot.item ∨ ∃ k, spot' = spot.part k) →
      Agree (f spot') (f' spot') y y) : Agree (parts f spot) (parts f' spot) x x := by
  cases x with
  | map a es =>
    obtain ⟨-, hd, hpl⟩ := plain_map.1 hp
    have hself : ∀ e ∈ es, ∃ e' ∈ es, e'.1.same e.1 = true ∧
        Agree (f (spot.part e.1)) (f' (spot.part e'.1)) e.2 e'.2 := fun e he =>
      ⟨e, he, Scalar.same_self _, h _ _ (hpl e he).2 (.inr ⟨e.1, rfl⟩)⟩
    refine agree_map hd rfl hself fun e he => ?_
    exact ⟨e, he, Scalar.same_self _, h _ _ (hpl e he).2 (.inr ⟨e.1, rfl⟩)⟩
  | list a ts =>
    exact agree_list (List.forall₂_same.2 fun y hy => h _ y ((plain_list.1 hp).2 y hy) (.inl rfl))
  | _ => exact agree_leaf hp rfl rfl

/-- What inlining makes of a tree agrees with it if the parts do. -/
theorem Inlines.agree {c : Scene} {doc : Place} {x x' : Tree} (hi : Inlines c doc spot x x')
    (hr : spot.refers x = none) (hs : spot.grows = false) (hp : Plain x)
    (h : ∀ spot' y y', spot'.grows = false → Plain y → Inlines c doc spot' y y' →
      Agree (f spot') (f' spot') y y') : Agree (parts f spot) (parts f' spot) x x' := by
  cases hi with
  | home hr' | copied hr' | named hr' => rw [hr] at hr'; cases hr'
  | leaf _ hm hl => exact agree_leaf hp hm hl
  | list hl hts =>
    refine agree_list (List.forall₂_iff_get.2 ⟨hl, fun i hi hi' => ?_⟩)
    exact h _ _ _ (Spot.grows_item spot) ((plain_list.1 hp).2 _ (List.getElem_mem hi))
      (hts i _ _ (List.getElem?_eq_getElem hi) (List.getElem?_eq_getElem hi'))
  | @map _ _ _ es es' _ hk hg hes _ =>
    have hkeys := keys_eq hk (hg hs)
    obtain ⟨-, hd, hpl⟩ := plain_map.1 hp
    have hd' : Distinct (es'.map (·.1)) := by rwa [← Entries.keys, hkeys]
    have hpart : ∀ k y y', es.at? k = some y → es'.at? k = some y' →
        Agree (f (spot.part k)) (f' (spot.part k)) y y' := fun k y y' hy hy' =>
      h _ y y' (Spot.grows_part hs k) (hpl _ (Entries.mem_of_at? hy)).2 (hes k y y' hy hy')
    refine agree_map hd' (hg hs) (fun e he => ?_) fun e' he' => ?_
    · have hy := Entries.at?_of_mem hd.nodup he
      obtain ⟨y', hy'⟩ := Entries.exists_at?_of_keys_eq hkeys hy
      exact ⟨_, Entries.mem_of_at? hy', Scalar.same_self _, hpart _ _ _ hy hy'⟩
    · have hy' := Entries.at?_of_mem hd'.nodup he'
      obtain ⟨y, hy⟩ := Entries.exists_at?_of_keys_eq hkeys.symm hy'
      exact ⟨_, Entries.mem_of_at? hy, Scalar.same_self _, hpart _ _ _ hy hy'⟩

/-- Trees that are the same agree if their parts do. -/
theorem agree_same {x y : Tree} (hx : Plain x) (hy : Plain y) (hxy : x.same y = true)
    (h : ∀ spot' z w, Plain z → Plain w → z.same w = true → Agree (f spot') (f' spot') z w) :
    Agree (parts f spot) (parts f' spot) x y := by
  cases x with
  | map a es =>
    obtain ⟨b, fs, rfl, hlen, -⟩ := same_map.1 hxy
    obtain ⟨-, hd, hpl⟩ := plain_map.1 hx
    obtain ⟨-, hd', hpl'⟩ := plain_map.1 hy
    refine agree_map hd' hlen.symm (fun e he => ?_) fun e' he' => ?_
    · obtain ⟨l, w, hw, hk, hzw⟩ := at?_of_same hy hxy he
      have hmem := Entries.mem_of_at? hw
      refine ⟨_, hmem, hk, ?_⟩
      rw [Spot.part_congr hk]
      exact h _ _ _ (hpl e he).2 (hpl' _ hmem).2 hzw
    · obtain ⟨l, w, hw, hk, hzw⟩ := at?_of_same hx (same_symm hx hy hxy) he'
      have hmem := Entries.mem_of_at? hw
      refine ⟨_, hmem, Scalar.same_comm.trans hk, ?_⟩
      rw [Spot.part_congr hk]
      exact h _ _ _ (hpl _ hmem).2 (hpl' e' he').2 (same_symm (hpl' e' he').2 (hpl _ hmem).2 hzw)
  | list a ts =>
    obtain ⟨b, us, rfl, hus⟩ := same_list.1 hxy
    refine agree_list (List.forall₂_iff_get.2 ⟨hus.length_eq, fun i hi hi' => ?_⟩)
    exact h _ _ _ ((plain_list.1 hx).2 _ (List.getElem_mem hi))
      ((plain_list.1 hy).2 _ (List.getElem_mem hi')) ((List.forall₂_iff_get.1 hus).2 i hi hi')
  | _ =>
    intro u hu
    cases hu
    refine ⟨y, ?_, hxy⟩
    cases y with
    | map | list => simp [same, para] at hxy
    | _ => rfl

/-! ## Unfoldings -/

variable {library : Library} {root : Place} {n : Nat} {doc : Place} {t out : Tree}

theorem unfold_of_none {x : Tree} (h : spot.refers x = none) :
    unfold false library root (n + 1) doc spot x = parts (unfold false library root n doc) spot x := by
  rw [unfold, h]

theorem unfold_of_refers {x : Tree} {kind : Kind} {r : String} {res : Library.Resolved}
    (h : spot.refers x = some (kind, r)) (hres : library.target? doc r = some res)
    (hs : (readAs root res kind).grows = false) :
    unfold false library root (n + 1) doc spot x =
      parts (unfold false library root n res.path) (readAs root res kind) res.target.tree := by
  simp only [unfold, h, hres, Option.bind_some, hs, Bool.false_and, Bool.false_eq_true,
    if_false]

/-- An unfolding that says something at a reference has followed it. -/
theorem unfold_refers_inv {x u : Tree} {kind : Kind} {r : String}
    (h : spot.refers x = some (kind, r))
    (hu : unfold false library root (n + 1) doc spot x = some u) :
    ∃ res, library.target? doc r = some res ∧ (readAs root res kind).grows = false ∧
      parts (unfold false library root n res.path) (readAs root res kind) res.target.tree = some u := by
  simp only [unfold, h, Option.bind_eq_some_iff] at hu
  obtain ⟨res, hres, hu⟩ := hu
  split at hu
  · cases hu
  · rename_i hs
    exact ⟨res, hres, by simpa using hs, hu⟩

/-- Parts that are plain make a plain tree. -/
theorem plain_parts {x u : Tree} (hp : Plain x) (h : ∀ spot y v, Plain y → f spot y = some v → Plain v)
    (hu : parts f spot x = some u) : Plain u := by
  cases x with
  | map a es =>
    obtain ⟨us, rfl, hus⟩ := parts_map.1 hu
    obtain ⟨rfl, hd, hpl⟩ := plain_map.1 hp
    refine plain_map.2 ⟨rfl, keys_of_parts hus ▸ hd, fun v hv => ?_⟩
    obtain ⟨e, he, hk, hv'⟩ := mem_of_forall₂_right hus hv
    exact ⟨hk ▸ (hpl e he).1, h _ _ _ (hpl e he).2 hv'⟩
  | list a ts =>
    obtain ⟨us, rfl, hus⟩ := parts_list.1 hu
    obtain ⟨rfl, hpl⟩ := plain_list.1 hp
    refine plain_list.2 ⟨rfl, fun v hv => ?_⟩
    obtain ⟨y, hy, hv'⟩ := mem_of_forall₂_right hus hv
    exact h _ _ _ (hpl y hy) hv'
  | _ => cases hu; exact hp

section

variable (hdocs : ∀ p d, library.get p = .ok d → Plain d)
include hdocs

/-- The unfolding of a plain tree is plain. -/
theorem plain_unfold :
    ∀ {n : Nat} {doc : Place} {spot : Spot} {x u : Tree}, Plain x →
      unfold false library root n doc spot x = some u → Plain u
  | 0, _, _, _, _, _, hu => by
    cases hu
    exact plain_scalar.2 rfl
  | n + 1, doc, spot, x, u, hp, hu => by
    cases hr : spot.refers x with
    | none =>
      rw [unfold_of_none hr] at hu
      exact plain_parts hp (fun _ _ _ hy hv => plain_unfold hy hv) hu
    | some r =>
      obtain ⟨res, hres, -, hu⟩ := unfold_refers_inv hr hu
      exact plain_parts (plain_target hdocs hres) (fun _ _ _ hy hv => plain_unfold hy hv) hu

/-- Trees that are the same have the same unfolding. -/
theorem unfold_same :
    ∀ (n : Nat) {spot : Spot} {x y : Tree}, Plain x → Plain y → x.same y = true →
      Agree (unfold false library root n doc spot) (unfold false library root n doc spot) x y
  | 0, _, _, _, _, _, _ => by
    intro u hu
    cases hu
    exact ⟨_, rfl, rfl⟩
  | n + 1, spot, x, y, hx, hy, hxy => by
    intro u hu
    cases hr : spot.refers x with
    | none =>
      have hr' : spot.refers y = none := by
        cases hr' : spot.refers y with
        | none => rfl
        | some r => cases hr.symm.trans (refers_same (same_symm hx hy hxy) hr')
      rw [unfold_of_none hr] at hu
      rw [unfold_of_none hr']
      exact agree_same hx hy hxy (fun _ _ _ hz hw hzw => unfold_same n hz hw hzw) u hu
    | some r =>
      have hu' := hu
      obtain ⟨res, hres, hs, hparts⟩ := unfold_refers_inv hr hu
      rw [unfold_of_refers (refers_same hxy hr) hres hs]
      exact ⟨u, hparts, same_refl (plain_unfold hdocs hx hu')⟩

end

/-! ## The description and its result -/

theorem Agree.trans {g : Tree → Option Tree} {f f' : Tree → Option Tree} {x y z : Tree}
    (h : Agree f f' x y) (h' : Agree f' g y z) : Agree f g x z := by
  intro u hu
  obtain ⟨v, hv, huv⟩ := h u hu
  obtain ⟨w, hw, hvw⟩ := h' v hv
  exact ⟨w, hw, same_trans huv hvw⟩

theorem lone_down : ∀ {keys : List String} {x y : Tree}, Lone x → x.down? keys = some y → Lone y
  | [], _, _, hx, h => by cases h; exact hx
  | key :: keys, x, y, hx, h => by
    obtain ⟨z, hz, hzy⟩ := Option.bind_eq_some_iff.1 h
    cases x with
    | map a es => exact lone_down ((lone_map.1 hx).2 _ (Entries.mem_of_at? hz)) hzy
    | _ => cases hz

/-- What a foreign target is read as. -/
theorem readAs_of_ne {res : Library.Resolved} (h : res.path ≠ root) (kind : Kind) :
    readAs root res kind = .visited kind := by
  simp [readAs, h]

/-- What the table's schemas are read as. -/
theorem readAs_schema (name : String) (target : Reference.Target) :
    readAs root ⟨root, Reference.schemaPointer name, target⟩ .schema = .visited .schema := by
  simp [readAs, Reference.keysOf_schemaPointer, Spot.down, Spot.part]

/-- What inlining makes of a tree holds a reference of its own only in place of one. -/
theorem Inlines.refers_none {c : Scene} {x x' : Tree} (h : Inlines c doc spot x x')
    (hr : spot.refers x = none) : spot.refers x' = none := by
  cases h with
  | home hr' | copied hr' | named hr' => cases hr.symm.trans hr'
  | list => exact Spot.refers_list _ _ _
  | map hr' hk hg hes hj => exact (Inlines.map hr' hk hg hes hj).refers_eq_none hr
  | leaf => exact hr

/-- The documents with the result in the place of the description are plain. -/
theorem plain_result (hr : Regular library t) (hout : Plain out) (p : Place) (d : Tree)
    (hd : (library.add root out).get p = .ok d) : Plain d :=
  plain_add hr.documents hout p d hd

section

variable (hr : Regular library t) (hout : Plain out)
  (hi : Inlines (outcome library root t out) root .document t out)
  (hparts : ∀ {doc spot x x'}, Inlines (outcome library root t out) doc spot x x' →
    spot.grows = false → Plain x →
      Agree (unfold false (library.add root t) root n doc spot)
        (unfold false (library.add root out) root n root spot) x x')
  (hself : ∀ {doc spot x}, Plain x →
    Agree (unfold false (library.add root t) root n doc spot)
      (unfold false (library.add root out) root n doc spot) x x)

include hr hi hparts hself in
/-- A target in the description unfolds as what has become of it. -/
theorem agree_target {r : String} {res : Library.Resolved} {kind : Kind}
    (hres : (library.add root t).target? doc r = some res) (hroot : res.path = root)
    (hs : (readAs root res kind).grows = false) :
    ∃ target', Reference.Leads out res.pointer target' ∧
      Agree (parts (unfold false (library.add root t) root n root) (readAs root res kind))
        (parts (unfold false (library.add root out) root n root) (readAs root res kind))
        res.target.tree target'.tree := by
  obtain ⟨_, _, d, -, -, -, hd, hleads⟩ := Library.target?_eq_some.1 hres
  rw [get_add, if_pos hroot.symm] at hd
  cases hd
  obtain ⟨target', hleads', -, hi'⟩ := hi.leads hr.lone hleads
  have hp : Plain res.target.tree := hr.plain.down hleads.1
  refine ⟨target', hleads', ?_⟩
  by_cases hspot : Spot.document.down (Reference.keysOf res.pointer) = .inert
  · rw [hspot] at hi'
    rw [hi'.eq_of_inert hp (lone_down hr.lone hleads.1)]
    exact agree_self hp fun _ _ hy _ => hself hy
  · have hread : readAs root res kind = Spot.document.down (Reference.keysOf res.pointer) := by
      simp [readAs, hroot, hspot]
    rw [hread] at hs ⊢
    exact hi'.agree (Spot.refers_eq_none hleads.2.1) hs hp fun _ _ _ hs hy hi => hparts hi hs hy

include hr hi hparts hself in
/-- A tree that both libraries hold unfolds in both to the same. -/
theorem agree_self_succ {x : Tree} (hx : Plain x) :
    Agree (unfold false (library.add root t) root (n + 1) doc spot)
      (unfold false (library.add root out) root (n + 1) doc spot) x x := by
  intro u hu
  cases href : spot.refers x with
  | none =>
    rw [unfold_of_none href] at hu ⊢
    exact agree_self hx (fun _ _ hy _ => hself hy) u hu
  | some kr =>
    obtain ⟨res, hres, hs, hu⟩ := unfold_refers_inv href hu
    obtain ⟨other, fragment, d, hsplit, hpath, hpointer, hd, hleads⟩ := Library.target?_eq_some.1 hres
    by_cases hroot : res.path = root
    · obtain ⟨target', hleads', hagree⟩ := agree_target hr hi hparts hself hres hroot hs
      have hres' : (library.add root out).target? doc kr.2 = some ⟨root, res.pointer, target'⟩ :=
        Library.target?_eq_some.2 ⟨other, fragment, out, hsplit, hroot.symm.trans hpath, hpointer,
          by rw [get_add, if_pos rfl], hleads'⟩
      have hread : readAs root ⟨root, res.pointer, target'⟩ kr.1 = readAs root res kr.1 := by
        simp [readAs, hroot]
      rw [hroot] at hu
      rw [unfold_of_refers href hres' (hread ▸ hs), hread]
      exact hagree u hu
    · have hres' : (library.add root out).target? doc kr.2 = some res := by
        rw [get_add, if_neg (Ne.symm hroot)] at hd
        exact Library.target?_eq_some.2 ⟨other, fragment, d, hsplit, hpath, hpointer,
          by rw [get_add, if_neg (Ne.symm hroot), hd], hleads⟩
      rw [unfold_of_refers href hres' hs]
      exact agree_self (plain_target hr.get_plain hres) (fun _ _ hy _ => hself hy) u hu

include hr hparts in
/-- A foreign target unfolds as the tree that it becomes. -/
theorem agree_foreign {res : Library.Resolved} {kind : Kind} {r : String} {m : Tree}
    (hres : (library.add root t).target? doc r = some res)
    (hm : Inlines (outcome library root t out) res.path (.visited kind) res.target.tree m) :
    Agree (parts (unfold false (library.add root t) root n res.path) (.visited kind))
      (parts (unfold false (library.add root out) root n root) (.visited kind)) res.target.tree m :=
  hm.agree (Spot.refers_visited_eq_none (Library.ofTree?_target hres)) rfl
    (plain_target hr.get_plain hres) fun _ _ _ hs hy hi => hparts hi hs hy

include hr hout hparts in
/-- A foreign target unfolds as the schema whose name stands for the tree that it becomes. -/
theorem agree_named {res : Library.Resolved} {r name : String} {m : Tree}
    (hres : (library.add root t).target? doc r = some res)
    (hm : Inlines (outcome library root t out) res.path (.visited .schema) res.target.tree m)
    (hk : Kept (schemaOf out) name m) :
    ∃ target', Reference.Leads out (Reference.schemaPointer name) target' ∧
      Agree (parts (unfold false (library.add root t) root n res.path) (.visited .schema))
        (parts (unfold false (library.add root out) root n root) (.visited .schema))
        res.target.tree target'.tree := by
  obtain ⟨target', hleads', -, hp, hsame⟩ := hk.leads
  refine ⟨target', hleads', (agree_foreign hr hparts hres hm).trans ?_⟩
  exact agree_same hk.plain hp (same_symm hp hk.plain hsame) fun _ _ _ hz hw hzw =>
    unfold_same (plain_result hr hout) n hz hw hzw

include hr hout hi hparts hself in
/-- What inlining makes of a tree unfolds to the same. -/
theorem agree_inlines {x x' : Tree} (h : Inlines (outcome library root t out) doc spot x x')
    (hspot : spot.grows = false) (hx : Plain x) :
    Agree (unfold false (library.add root t) root (n + 1) doc spot)
      (unfold false (library.add root out) root (n + 1) root spot) x x' := by
  have hget : (library.add root out).get root = .ok out := by rw [get_add, if_pos rfl]
  intro u hux
  cases href : spot.refers x with
  | none =>
    rw [unfold_of_none href] at hux
    rw [unfold_of_none (h.refers_none href)]
    exact h.agree href hspot hx (fun _ _ _ hs hy hi => hparts hi hs hy) u hux
  | some kr =>
    obtain ⟨res, hres, hs, hu⟩ := unfold_refers_inv href hux
    cases h with
    | home hr' hres' hroot hw =>
      cases href.symm.trans hr'
      cases hres.symm.trans hres'
      obtain ⟨target', hleads', hagree⟩ := agree_target hr hi hparts hself hres hroot hs
      have href' := Spot.refers_writes href hw (Reference.ofTree?_asTree _) (by simp)
      have hto := Library.target?_rooted (Library.hash_notMem_pointer hres) hget hleads'
      have hread : ∀ kind, readAs root ⟨root, res.pointer, target'⟩ kind = readAs root res kind :=
        fun kind => by simp [readAs, show res.path = root from hroot]
      rw [show res.path = root from hroot] at hu
      rw [unfold_of_refers href' hto (by rwa [hread]), hread]
      exact hagree u hu
    | copied hr' hres' hroot hm hk hw =>
      cases href.symm.trans hr'
      cases hres.symm.trans hres'
      rw [readAs_of_ne (show res.path ≠ root from hroot)] at hu
      have hm' := hm.ofTree?_eq_none (fun hg => by cases hg) (Library.ofTree?_target hres)
      rcases Spot.refers_eq_some href with ⟨rfl, -, -⟩ | ⟨rfl, -, -, -⟩
      · cases hw
        rw [unfold_of_none (Spot.refers_visited_eq_none hm')]
        exact agree_foreign hr hparts hres hm u hu
      · rw [Spot.writes, hm'] at hw
        cases hw
    | named hr' hres' hroot hm hk hw =>
      cases href.symm.trans hr'
      cases hres.symm.trans hres'
      rw [readAs_of_ne (show res.path ≠ root from hroot)] at hu
      obtain ⟨target', hleads', hagree⟩ := agree_named hr hout hparts hres hm hk
      have href' := Spot.refers_writes href hw (Reference.ofTree?_asTree _) (by simp [Reference.toSchema_eq])
      have hto := Library.target?_rooted (Reference.hash_notMem_schemaPointer hk.hash) hget hleads'
      rw [← Reference.toSchema_eq] at hto
      rw [unfold_of_refers href' hto (by rw [readAs_schema]; rfl), readAs_schema]
      exact hagree u hu
    | list => cases href.symm.trans (Spot.refers_list _ _ _)
    | map hr' | leaf hr' => cases href.symm.trans hr'

end

/-- What inlining makes of a tree unfolds to the same, down to every depth. -/
theorem agree_unfold (hr : Regular library t) (hout : Plain out)
    (hi : Inlines (outcome library root t out) root .document t out) :
    ∀ n : Nat,
      (∀ {doc spot x x'}, Inlines (outcome library root t out) doc spot x x' →
        spot.grows = false → Plain x →
          Agree (unfold false (library.add root t) root n doc spot)
            (unfold false (library.add root out) root n root spot) x x') ∧
      ∀ {doc spot x}, Plain x →
        Agree (unfold false (library.add root t) root n doc spot)
          (unfold false (library.add root out) root n doc spot) x x
  | 0 => by
    refine ⟨fun _ _ _ u hu => ?_, fun _ u hu => ?_⟩ <;>
    · cases hu
      exact ⟨_, rfl, rfl⟩
  | n + 1 => by
    obtain ⟨hparts, hself⟩ := agree_unfold hr hout hi n
    exact ⟨fun h hs hx => agree_inlines hr hout hi hparts hself h hs hx,
      fun hx => agree_self_succ hr hi hparts hself hx⟩

/-! ## Positions of the description -/

/-- Along steps, what inlining makes of a tree is made of its parts. -/
theorem Inlines.visit {c : Scene} :
    ∀ {steps : List Step} {spot spot' : Spot} {x x' y : Tree}, Inlines c doc spot x x' → Plain x →
      spot.visit? x steps = some (spot', y) →
        ∃ y', spot.visit? x' steps = some (spot', y') ∧ Inlines c doc spot' y y' ∧ Plain y
  | [], _, _, _, x', _, h, hp, hy => by
    cases hy
    exact ⟨x', rfl, h, hp⟩
  | .key k :: steps, _, _, _, _, _, h, hp, hy => by
    obtain ⟨hr, a, es, z, rfl, hz, hy⟩ := Spot.visit?_key.1 hy
    obtain ⟨es', rfl, hk, -, hat, -⟩ := h.map_inv hr
    obtain ⟨z', hz'⟩ := Entries.exists_at?_of_keys hk hz
    obtain ⟨y', hy', hi, hpy⟩ := (hat k z z' hz hz').visit
      ((plain_map.1 hp).2.2 _ (Entries.mem_of_at? hz)).2 hy
    exact ⟨y', Spot.visit?_key.2 ⟨h.refers_none hr, a, es', z', rfl, hz', hy'⟩, hi, hpy⟩
  | .index i :: steps, _, _, _, _, _, h, hp, hy => by
    obtain ⟨hr, a, ts, z, rfl, hz, hy⟩ := Spot.visit?_index.1 hy
    obtain ⟨ts', rfl, hl, hat⟩ := h.list_inv
    obtain ⟨hi, rfl⟩ := List.getElem?_eq_some_iff.1 hz
    have hz' := List.getElem?_eq_getElem (hl ▸ hi)
    obtain ⟨y', hy', hi', hpy⟩ := (hat i _ _ hz hz').visit ((plain_list.1 hp).2 _ (List.getElem_mem hi)) hy
    exact ⟨y', Spot.visit?_index.2 ⟨Spot.refers_list _ _ _, a, ts', _, rfl, hz', hy'⟩, hi', hpy⟩

/-- Inlining keeps what a description stands for: each position that it visits is one of the result,
with the same unfolding down to every depth. What a name of the description's own table stands for is
the case of the positions in that table. -/
theorem unfold_inlineReferences (hr : Regular library t)
    (h : inlineReferences library root t = .ok out) {steps : List Step} {x : Tree}
    (hx : Spot.document.visit? t steps = some (spot, x)) (hs : spot.grows = false) :
    ∃ x', Spot.document.visit? out steps = some (spot, x') ∧
      ∀ n u, unfold false (library.add root t) root n root spot x = some u →
        ∃ u', unfold false (library.add root out) root n root spot x' = some u' ∧ u.same u' = true := by
  obtain ⟨hi, hout⟩ := inlines_inlineReferences hr h
  obtain ⟨x', hx', hi', hp⟩ := hi.visit hr.plain hx
  exact ⟨x', hx', fun n => (agree_unfold hr hout hi n).1 hi' hs hp⟩

theorem unfold_sampleInlined :
    Regular sampleLibrary (sampleSchemas "bar.json#/A1" []) ∧
      inlineReferences sampleLibrary samplePlace (sampleSchemas "bar.json#/A1" []) =
          .ok sampleInlined ∧
        Spot.document.visit? (sampleSchemas "bar.json#/A1" [])
            [.key (.text "components"), .key (.text "schemas"), .key (.text "A")] =
          some (.visited .schema, Reference.asTree "bar.json#/A1") ∧
          (Spot.visited .schema).grows = false ∧
            ∃ x', Spot.document.visit? sampleInlined
                [.key (.text "components"), .key (.text "schemas"), .key (.text "A")] =
                  some (.visited .schema, x') ∧
              ∀ n u, unfold false (sampleLibrary.add samplePlace (sampleSchemas "bar.json#/A1" []))
                  samplePlace n samplePlace (.visited .schema) (Reference.asTree "bar.json#/A1") =
                    some u →
                ∃ u', unfold false (sampleLibrary.add samplePlace sampleInlined) samplePlace n
                  samplePlace (.visited .schema) x' = some u' ∧ u.same u' = true := by
  have hx : Spot.document.visit? (sampleSchemas "bar.json#/A1" [])
      [.key (.text "components"), .key (.text "schemas"), .key (.text "A")] =
        some (.visited .schema, Reference.asTree "bar.json#/A1") := by decide +kernel
  exact ⟨regular_sampleSchemas, inlineReferences_sampleSchemas, hx, rfl,
    unfold_inlineReferences regular_sampleSchemas inlineReferences_sampleSchemas hx rfl⟩

/-- A reference to the table of schemas as a whole unfolds to more in the result: the schemas that
have joined the table are among it. -/
theorem unfold_whole_ne :
    Regular sampleLibrary (sampleSchemas "bar.json#/A1" []) ∧
      inlineReferences sampleLibrary samplePlace (sampleSchemas "bar.json#/A1" []) =
          .ok sampleInlined ∧
        ∃ steps x u u', Spot.document.visit? (sampleSchemas "bar.json#/A1" []) steps =
            some (.visited .schema, x) ∧
          Spot.document.visit? sampleInlined steps = some (.visited .schema, x) ∧
          unfold true (sampleLibrary.add samplePlace (sampleSchemas "bar.json#/A1" [])) samplePlace 1
            samplePlace (.visited .schema) x = some u ∧
          unfold true (sampleLibrary.add samplePlace sampleInlined) samplePlace 1 samplePlace
            (.visited .schema) x = some u' ∧ u.same u' = false := by
  have h : ((unfold true (sampleLibrary.add samplePlace (sampleSchemas "bar.json#/A1" []))
      samplePlace 1 samplePlace (.visited .schema)
        (Reference.asTree "#/components/schemas")).bind fun u =>
    (unfold true (sampleLibrary.add samplePlace sampleInlined) samplePlace 1 samplePlace
      (.visited .schema) (Reference.asTree "#/components/schemas")).map u.same) = some false := by
    decide +kernel
  obtain ⟨u, hu, h⟩ := Option.bind_eq_some_iff.1 h
  obtain ⟨u', hu', h⟩ := Option.map_eq_some_iff.1 h
  exact ⟨regular_sampleSchemas, inlineReferences_sampleSchemas,
    [.key (.text "components"), .key (.text "schemas"), .key (.text "W"), .key (.text "properties"),
      .key (.text "x")], _, u, u', by decide +kernel, by decide +kernel, hu, hu', h⟩

end ApiContract.Inline
