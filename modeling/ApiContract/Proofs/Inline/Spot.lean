import ApiContract.Document.Inline
import ApiContract.Proofs.Reference.Pointer
import ApiContract.Proofs.Tree.Same

/-!
# The positions of a description

`Spot` says as what a position of a description is visited, and with that where references stand:
`Spot.refers` is the reference that inlining takes at a position, `Spot.part` and `Spot.item` go on
to the parts. `Spot.visit?` goes along a way of steps from a position and stops at references.

* `References P`: every reference that the visit of a tree meets satisfies `P`.
* `References.of_same`: so do those of a tree that stands for the same value.
-/

namespace ApiContract.Inline

open Tree Walk

/-- As what a position of a description is visited. -/
inductive Spot where
  /-- The description as a whole. -/
  | document
  /-- The components of the description. -/
  | components
  /-- The table of schemas. -/
  | table
  /-- An object of a kind. -/
  | visited (kind : Kind)
  | discriminator
  /-- The mapping of a discriminator, and what a tag is mapped to. -/
  | mapping
  | mappingTarget
  /-- A position that no visit looks into. -/
  | inert
deriving DecidableEq

namespace Spot

/-- Where a key of an object leads. -/
def along (kind : Kind) (key : Scalar) : Spot :=
  match key with
  | .text key => ((edges kind).lookup key).elim .inert .visited
  | _ => .inert

/-- As what the value under a key is visited. -/
def part : Spot → Scalar → Spot
  | .document, key =>
    if key = .text "components" then .components
    else if key = .text "paths" then .visited (.mapOf .pathItem)
    else .inert
  | .components, key => if key = .text "schemas" then .table else along .components key
  | .table, _ => .visited .schema
  | .visited (.mapOf k), _ => .visited k
  | .visited .callback, _ => .visited .pathItem
  | .visited .schema, key => if key = .text "discriminator" then .discriminator else along .schema key
  | .visited kind, key => along kind key
  | .discriminator, key => if key = .text "mapping" then .mapping else .inert
  | .mapping, _ => .mappingTarget
  | .mappingTarget, _ => .inert
  | .inert, _ => .inert

/-- As what the items of a list are visited. -/
def item : Spot → Spot
  | .visited (.listOf k) => .visited k
  | _ => .inert

/-- The reference at a position, with the kind of object that it stands for. -/
def refers : Spot → Tree → Option (Kind × String)
  | .visited kind, t => if kind.mayRefer then (Reference.ofTree? t).map (kind, ·) else none
  | .mappingTarget, .text target => if target.toList.contains '#' then some (.schema, target) else none
  | _, _ => none

/-- What is put at a position in place of a reference. -/
def writes : Spot → Tree → Option Tree
  | .mappingTarget, t => (Reference.ofTree? t).map Tree.text
  | _, t => some t

/-- Where entries may join those that are there: the table of schemas and what lies around it. -/
def grows : Spot → Bool
  | .document | .components | .table => true
  | _ => false

/-- As what the position that keys lead to is visited. -/
def down (spot : Spot) (keys : List String) : Spot :=
  keys.foldl (fun spot key => spot.part (.text key)) spot

end Spot

/-- A step from a tree to one of its parts. -/
inductive Step where
  | key (k : Scalar)
  | index (i : Nat)

/-- What steps from a position lead to, if no reference is on the way. -/
def Spot.visit? : Spot → Tree → List Step → Option (Spot × Tree)
  | spot, t, [] => some (spot, t)
  | spot, t, step :: rest =>
    if (spot.refers t).isSome then none
    else match step, t with
      | .key k, .map _ es => (Entries.at? k es).bind fun x => visit? (spot.part k) x rest
      | .index i, .list _ ts => (ts[i]?).bind fun x => visit? spot.item x rest
      | _, _ => none

/-- Every reference that is met satisfies a condition. -/
def References (P : Kind → String → Prop) (spot : Spot) (t : Tree) : Prop :=
  ∀ steps spot' x kind reference,
    spot.visit? t steps = some (spot', x) → spot'.refers x = some (kind, reference) →
      P kind reference

namespace Spot

theorem along_congr {k l : Scalar} (h : k.same l = true) (kind : Kind) :
    along kind k = along kind l := by
  cases l with
  | text s => rw [Scalar.same_text.1 h]
  | _ =>
    cases k with
    | text s => exact absurd (Scalar.same_text.1 (Scalar.same_comm.trans h)) (by simp)
    | _ => rfl

/-- A key leads nowhere or along an edge. -/
theorem along_cases (kind : Kind) (k : Scalar) : along kind k = .inert ∨
    ∃ key kind', k = .text key ∧ (key, kind') ∈ edges kind ∧ along kind k = .visited kind' := by
  cases k with
  | text key =>
    cases h : (edges kind).lookup key with
    | none => exact .inl (by rw [along, h]; rfl)
    | some kind' => exact .inr ⟨key, kind', rfl, mem_of_lookup h, by rw [along, h]; rfl⟩
  | _ => exact .inl rfl

/-- Keys that stand for one scalar lead to the same. -/
theorem part_congr {k l : Scalar} (h : k.same l = true) (spot : Spot) :
    spot.part k = spot.part l := by
  have htext : ∀ s : String, k = .text s ↔ l = .text s := fun s => by
    rw [← Scalar.same_text, ← Scalar.same_text, Scalar.same_comm, Scalar.same_congr h,
      Scalar.same_comm]
  cases spot with
  | visited kind => cases kind <;> simp only [part, htext, along_congr h]
  | _ => simp only [part, htext, along_congr h]

@[simp] theorem part_inert (k : Scalar) : inert.part k = .inert := rfl

@[simp] theorem part_mappingTarget (k : Scalar) : mappingTarget.part k = .inert := rfl

@[simp] theorem refers_inert (t : Tree) : inert.refers t = none := by
  cases t with
  | scalar s => cases s <;> rfl
  | _ => rfl

@[simp] theorem refers_list (spot : Spot) (a : Anchor) (ts : List Tree) :
    spot.refers (.list a ts) = none := by
  cases spot <;> simp [refers, Reference.ofTree?, Tree.entries?]

theorem refers_visited {kind k : Kind} {t : Tree} {r : String} :
    (visited kind).refers t = some (k, r) ↔
      k = kind ∧ kind.mayRefer = true ∧ Reference.ofTree? t = some r := by
  simp only [refers]
  split
  · simp only [Option.map_eq_some_iff, Prod.mk.injEq]
    constructor
    · rintro ⟨_, h, rfl, rfl⟩; exact ⟨rfl, ‹_›, h⟩
    · rintro ⟨rfl, -, h⟩; exact ⟨r, h, rfl, rfl⟩
  · simp [*]

theorem refers_visited_eq_none {kind : Kind} {t : Tree} (h : Reference.ofTree? t = none) :
    (visited kind).refers t = none := by
  simp [refers, h]

/-- A map that is no reference is one at no position. -/
theorem refers_eq_none {spot : Spot} {a : Anchor} {es : Entries}
    (h : Reference.ofTree? (.map a es) = none) : spot.refers (.map a es) = none := by
  cases spot with
  | visited kind => exact refers_visited_eq_none h
  | _ => rfl

/-- A position with a reference is a visited object or what a tag is mapped to. -/
theorem refers_eq_some {spot : Spot} {t : Tree} {k : Kind} {r : String}
    (h : spot.refers t = some (k, r)) :
    (spot = .visited k ∧ k.mayRefer = true ∧ Reference.ofTree? t = some r) ∨
      (spot = .mappingTarget ∧ k = .schema ∧ t = .text r ∧ '#' ∈ r.toList) := by
  unfold refers at h
  split at h
  · obtain ⟨rfl, hk, hr⟩ := refers_visited.1 h
    exact .inl ⟨rfl, hk, hr⟩
  · split at h
    · rename_i hc
      cases h
      exact .inr ⟨rfl, rfl, rfl, List.contains_iff_mem.1 hc⟩
    · cases h
  · cases h

/-- The reference that is put in place of another one is one. -/
theorem refers_writes {spot : Spot} {t u v : Tree} {k : Kind} {r r' : String}
    (h : spot.refers t = some (k, r)) (hw : spot.writes u = some v)
    (hu : Reference.ofTree? u = some r') (hr : '#' ∈ r'.toList) : spot.refers v = some (k, r') := by
  rcases refers_eq_some h with ⟨rfl, hk, -⟩ | ⟨rfl, rfl, -, -⟩
  · cases hw
    exact refers_visited.2 ⟨rfl, hk, hu⟩
  · rw [writes, hu] at hw
    cases hw
    simp [refers, hr]

/-! Steps lead on from what is no reference. -/

theorem visit?_key {spot : Spot} {t : Tree} {k : Scalar} {steps : List Step} {found : Spot × Tree} :
    spot.visit? t (.key k :: steps) = some found ↔ spot.refers t = none ∧
      ∃ a es x, t = .map a es ∧ Entries.at? k es = some x ∧
        (spot.part k).visit? x steps = some found := by
  constructor
  · intro h
    cases hr : spot.refers t with
    | some kr => simp [visit?, hr] at h
    | none =>
      refine ⟨rfl, ?_⟩
      cases t with
      | map a es =>
        simp only [visit?, hr, Option.isSome_none, Bool.false_eq_true, if_false,
          Option.bind_eq_some_iff] at h
        obtain ⟨x, hx, h⟩ := h
        exact ⟨a, es, x, rfl, hx, h⟩
      | _ => simp [visit?] at h
  · rintro ⟨hr, a, es, x, rfl, hx, h⟩
    simp [visit?, hr, hx, h]

theorem visit?_index {spot : Spot} {t : Tree} {i : Nat} {steps : List Step} {found : Spot × Tree} :
    spot.visit? t (.index i :: steps) = some found ↔ spot.refers t = none ∧
      ∃ a ts x, t = .list a ts ∧ ts[i]? = some x ∧ spot.item.visit? x steps = some found := by
  constructor
  · intro h
    cases hr : spot.refers t with
    | some kr => simp [visit?, hr] at h
    | none =>
      refine ⟨rfl, ?_⟩
      cases t with
      | list a ts =>
        simp only [visit?, hr, Option.isSome_none, Bool.false_eq_true, if_false,
          Option.bind_eq_some_iff] at h
        obtain ⟨x, hx, h⟩ := h
        exact ⟨a, ts, x, rfl, hx, h⟩
      | _ => simp [visit?] at h
  · rintro ⟨hr, a, ts, x, rfl, hx, h⟩
    simp [visit?, hr, hx, h]

/-- Below a position that no visit looks into, there are only such positions. -/
theorem eq_inert_of_visit? : ∀ {steps : List Step} {spot : Spot} {t x : Tree},
    inert.visit? t steps = some (spot, x) → spot = .inert
  | [], _, _, _, h => by
    cases h
    rfl
  | .key _ :: _, _, _, _, h => by
    obtain ⟨-, _, _, _, -, -, h⟩ := visit?_key.1 h
    exact eq_inert_of_visit? h
  | .index _ :: _, _, _, _, h => by
    obtain ⟨-, _, _, _, -, -, h⟩ := visit?_index.1 h
    exact eq_inert_of_visit? h

theorem refers_of_inert {spot : Spot} {t x : Tree} {steps : List Step}
    (h : inert.visit? t steps = some (spot, x)) : spot.refers x = none := by
  rw [eq_inert_of_visit? h, refers_inert]

end Spot

/-! ## The references of a tree -/

section

variable {P : Kind → String → Prop} {spot : Spot} {a : Anchor}

theorem References.here {t : Tree} {k : Kind} {r : String} (h : References P spot t)
    (hr : spot.refers t = some (k, r)) : P k r :=
  h [] _ _ _ _ rfl hr

theorem References.entry {es : Entries} {k : Scalar} {x : Tree} (h : References P spot (.map a es))
    (hr : spot.refers (.map a es) = none) (hx : es.at? k = some x) :
    References P (spot.part k) x :=
  fun steps _ _ _ _ hy =>
    h (.key k :: steps) _ _ _ _ (Spot.visit?_key.2 ⟨hr, a, es, x, rfl, hx, hy⟩)

theorem References.item {ts : List Tree} {i : Nat} {x : Tree} (h : References P spot (.list a ts))
    (hx : ts[i]? = some x) : References P spot.item x :=
  fun steps _ _ _ _ hy => h (.index i :: steps) _ _ _ _
    (Spot.visit?_index.2 ⟨Spot.refers_list _ _ _, a, ts, x, rfl, hx, hy⟩)

theorem references_of_refers {t : Tree} {k : Kind} {r : String} (hr : spot.refers t = some (k, r))
    (h : P k r) : References P spot t := by
  rintro (_ | ⟨step, steps⟩) spot' y kind reference hy hy'
  · cases hy
    rw [hr] at hy'
    cases hy'
    exact h
  · simp [Spot.visit?, hr] at hy

theorem references_map {es : Entries} (hr : spot.refers (.map a es) = none)
    (h : ∀ k x, es.at? k = some x → References P (spot.part k) x) :
    References P spot (.map a es) := by
  rintro (_ | ⟨step, steps⟩) spot' y kind reference hy hy'
  · cases hy
    rw [hr] at hy'
    cases hy'
  · cases step with
    | key k =>
      obtain ⟨-, _, _, x, heq, hx, hy⟩ := Spot.visit?_key.1 hy
      cases heq
      exact h k x hx steps _ _ _ _ hy hy'
    | index i =>
      obtain ⟨-, _, _, _, heq, -⟩ := Spot.visit?_index.1 hy
      cases heq

theorem references_list {ts : List Tree}
    (h : ∀ (i : Nat) (x : Tree), ts[i]? = some x → References P spot.item x) :
    References P spot (.list a ts) := by
  rintro (_ | ⟨step, steps⟩) spot' y kind reference hy hy'
  · cases hy
    rw [Spot.refers_list] at hy'
    cases hy'
  · cases step with
    | key k =>
      obtain ⟨-, _, _, _, heq, -⟩ := Spot.visit?_key.1 hy
      cases heq
    | index i =>
      obtain ⟨-, _, _, x, heq, hx, hy⟩ := Spot.visit?_index.1 hy
      cases heq
      exact h i x hx steps _ _ _ _ hy hy'

/-- A tree without parts has at most its own reference. -/
theorem references_leaf {t : Tree} (hr : spot.refers t = none) (hm : t.entries? = none)
    (hl : t.items? = none) : References P spot t := by
  rintro (_ | ⟨step, steps⟩) spot' y kind reference hy hy'
  · cases hy
    rw [hr] at hy'
    cases hy'
  · cases t with
    | list a ts => cases hl
    | map a es => cases hm
    | _ => cases step <;> simp [Spot.visit?] at hy

theorem References.imp {Q : Kind → String → Prop} {t : Tree} (h : References P spot t)
    (hPQ : ∀ k r, P k r → Q k r) : References Q spot t :=
  fun steps spot' x k r hx hr => hPQ k r (h steps spot' x k r hx hr)

end

/-! ## References of trees that are the same -/

theorem text?_same {t u : Tree} (h : t.same u = true) : t.text? = u.text? := by
  cases t with
  | scalar s =>
    obtain ⟨s', rfl, hs⟩ := same_scalar.1 h
    cases s with
    | text x => rw [Scalar.same_comm, Scalar.same_text] at hs; subst hs; rfl
    | _ =>
      cases s' with
      | text x => exact absurd (Scalar.same_text.1 hs) (by simp)
      | _ => rfl
  | list a ts => obtain ⟨b, us, rfl, -⟩ := same_list.1 h; rfl
  | map a es => obtain ⟨b, fs, rfl, -⟩ := same_map.1 h; rfl
  | set a ms => obtain ⟨b, ns, rfl, -⟩ := same_set.1 h; rfl
  | pair x y => obtain ⟨z, w, rfl, -⟩ := same_pair.1 h; rfl
  | back a m => rw [same_back.1 h]

/-- A reference stays one in a tree that is the same. -/
theorem ofTree?_same {t u : Tree} {r : String} (h : t.same u = true)
    (hr : Reference.ofTree? t = some r) : Reference.ofTree? u = some r := by
  cases t with
  | map a es =>
    obtain ⟨b, fs, rfl, -⟩ := same_map.1 h
    rw [Reference.ofTree?_map, Option.bind_eq_some_iff] at hr ⊢
    obtain ⟨x, hx, hr⟩ := hr
    obtain ⟨y, hy, hxy⟩ := findSame?_of_same h ((findSame?_text "$ref" es).trans hx)
    exact ⟨y, (findSame?_text "$ref" fs).symm.trans hy, (text?_same hxy).symm.trans hr⟩
  | _ => cases hr

theorem refers_same {spot : Spot} {t u : Tree} {k : Kind} {r : String} (h : t.same u = true)
    (hr : spot.refers t = some (k, r)) : spot.refers u = some (k, r) := by
  rcases Spot.refers_eq_some hr with ⟨rfl, hk, hr⟩ | ⟨rfl, rfl, rfl, hc⟩
  · exact Spot.refers_visited.2 ⟨rfl, hk, ofTree?_same h hr⟩
  · obtain ⟨s, rfl, hs⟩ := same_scalar.1 h
    rw [Scalar.same_comm, Scalar.same_text] at hs
    rwa [hs]

/-- The value under a key, in maps that are the same. -/
theorem at?_of_same {a b : Anchor} {es fs : Entries} (ht : Plain (.map b fs))
    (h : same (.map a es) (.map b fs) = true) {k : Scalar} {x : Tree} (hx : (k, x) ∈ es) :
    ∃ l y, Entries.at? l fs = some y ∧ l.same k = true ∧ same x y = true := by
  obtain ⟨_, _, he, -, hes⟩ := same_map.1 h
  cases he
  obtain ⟨y, hy, hxy⟩ := hes _ hx
  obtain ⟨f, hf, hk, rfl⟩ := findSame?_eq_some hy
  exact ⟨f.1, f.2, Entries.at?_of_mem (plain_map.1 ht).2.1.nodup hf, hk, hxy⟩

/-- The references of a tree are those of every tree that is the same. -/
theorem References.of_same {P : Kind → String → Prop} :
    ∀ {t u : Tree} {spot : Spot}, Plain t → Plain u → t.same u = true → References P spot u →
      References P spot t := by
  intro t
  induction t using Tree.induct with
  | map a es ih =>
    intro u spot ht hu h hP
    cases hr : spot.refers (.map a es) with
    | some x => exact references_of_refers hr (hP.here (refers_same h hr))
    | none =>
      obtain ⟨b, fs, rfl, -⟩ := same_map.1 h
      have hr' : spot.refers (.map b fs) = none := by
        cases hr' : spot.refers (.map b fs) with
        | none => rfl
        | some x => rw [refers_same (same_symm ht hu h) hr'] at hr; cases hr
      refine references_map hr fun k x hx => ?_
      have hmem := Entries.mem_of_at? hx
      obtain ⟨l, y, hy, hk, hxy⟩ := at?_of_same hu h hmem
      rw [← Spot.part_congr hk]
      exact ih _ hmem ((plain_map.1 ht).2.2 _ hmem).2
        ((plain_map.1 hu).2.2 _ (Entries.mem_of_at? hy)).2 hxy (hP.entry hr' hy)
  | list a ts ih =>
    intro u spot ht hu h hP
    obtain ⟨b, us, rfl, hus⟩ := same_list.1 h
    refine references_list fun i x hx => ?_
    obtain ⟨hi, rfl⟩ := List.getElem?_eq_some_iff.1 hx
    have hi' : i < us.length := hus.length_eq ▸ hi
    exact ih _ (List.getElem_mem hi) ((plain_list.1 ht).2 _ (List.getElem_mem hi))
      ((plain_list.1 hu).2 _ (List.getElem_mem hi')) (List.forall₂_iff_get.1 hus |>.2 i hi hi')
      (hP.item (List.getElem?_eq_getElem hi'))
  | _ =>
    intro u spot ht hu h hP
    cases hr : spot.refers _ with
    | some x => exact references_of_refers hr (hP.here (refers_same h hr))
    | none => exact references_leaf hr rfl rfl

end ApiContract.Inline
