import ApiContract.Proofs.Gateway.Integrated
import ApiContract.Proofs.Inline.Spot

/-!
# Discriminators in the gateway's description

The gateway's description has no discriminators, as far as its walk goes. Inlining goes further: to the
callbacks of operations and to the encodings of media types (`Spared`). `Cleared` says that a schema has
no discriminator at any position that inlining visits on another way.

* `walk_prepared`: a walk clears what it goes through.
* `document_prepared`: so does the preparation of a description without shared nodes.
* `cleared_describe`: the gateway's description is cleared.
-/

namespace ApiContract.Gateway

open Walk
open Inline (Spot)

/-! ## Positions without discriminators -/

variable {spot : Spot} {kind : Kind} {a : Anchor} {es es' : Entries} {t t' x x' : Tree}
  {s s' : State} {bound : Nat} {targets : List (String × Target)}

/-- Inlining goes on behind the key, and the preparation for the gateway does not. -/
def Spared (spot : Spot) (key : Scalar) : Prop :=
  (spot = .visited .operation ∧ key = .text "callbacks") ∨
    (spot = .visited .encoding ∧ key = .text "headers")

instance {key : Scalar} : Decidable (Spared spot key) :=
  inferInstanceAs (Decidable (_ ∨ _))

/-- Steps that lead through such a key. -/
def Spares : Spot → List Inline.Step → Prop
  | _, [] => False
  | spot, .key k :: rest => Spared spot k ∨ Spares (spot.part k) rest
  | spot, .index _ :: rest => Spares spot.item rest

/-- No schema that inlining visits has a discriminator, unless the way to it is spared. -/
def Cleared (spot : Spot) (t : Tree) : Prop :=
  ∀ steps x, spot.visit? t steps = some (.visited .schema, x) → Reference.isReference x = false →
    ¬ Spares spot steps → x.get? "discriminator" = none

/-- The values under the keys of an object that are not spared are cleared. -/
def ClearedParts (spot : Spot) (es : Entries) : Prop :=
  ∀ k x, es.at? k = some x → ¬ Spared spot k → Cleared (spot.part k) x

theorem cleared_map (hd : spot = .visited .schema → es.get? "discriminator" = none)
    (h : ClearedParts spot es) : Cleared spot (.map a es) := by
  rintro (_ | ⟨k | i, steps⟩) x hx href hs
  · cases hx
    exact hd rfl
  · obtain ⟨-, _, _, y, heq, hy, hx⟩ := Spot.visit?_key.1 hx
    cases heq
    obtain ⟨hk, hs⟩ := not_or.1 hs
    exact h k y hy hk steps x hx href hs
  · obtain ⟨-, _, _, _, heq, -⟩ := Spot.visit?_index.1 hx
    cases heq

theorem cleared_list {ts : List Tree} (h : ∀ x ∈ ts, Cleared spot.item x) :
    Cleared spot (.list a ts) := by
  rintro (_ | ⟨k | i, steps⟩) x hx href hs
  · cases hx
    rfl
  · obtain ⟨-, _, _, _, heq, -⟩ := Spot.visit?_key.1 hx
    cases heq
  · obtain ⟨-, _, _, y, heq, hy, hx⟩ := Spot.visit?_index.1 hx
    cases heq
    exact h y (List.mem_of_getElem? hy) steps x hx href hs

theorem cleared_leaf (hm : t.entries? = none) (hl : t.items? = none) : Cleared spot t := by
  rintro (_ | ⟨step, steps⟩) x hx href hs
  · cases hx
    rw [Tree.get?, hm]
    rfl
  · cases t with
    | list a ts => cases hl
    | map a es => cases hm
    | _ => cases step <;> simp [Spot.visit?] at hx

theorem cleared_inert (t : Tree) : Cleared .inert t := by
  intro steps x hx
  cases Spot.eq_inert_of_visit? hx

theorem cleared_of_not_map (h : t.isMap = false) (hitem : spot.item = .inert) : Cleared spot t := by
  cases t with
  | map => cases h
  | list a ts => exact cleared_list fun x _ => hitem ▸ cleared_inert x
  | _ => exact cleared_leaf rfl rfl

theorem cleared_reference (h : Reference.isReference t = true) (hk : kind.mayRefer = true) :
    Cleared (.visited kind) t := by
  obtain ⟨r, hr⟩ := Option.isSome_iff_exists.1 h
  have hrefers : (Spot.visited kind).refers t = some (kind, r) :=
    Spot.refers_visited.2 ⟨rfl, hk, hr⟩
  rintro (_ | ⟨step, steps⟩) x hx href hs
  · cases hx
    cases h.symm.trans href
  · simp [Spot.visit?, hrefers] at hx

/-- A position below which no schema is visited, unless the way to it is spared. -/
inductive Barren : Spot → Prop
  | inert : Barren .inert
  | opaqueObject : Barren (.visited .opaqueObject)
  | opaqueObjects : Barren (.visited (.mapOf .opaqueObject))
  | encoding : Barren (.visited .encoding)
  | encodings : Barren (.visited (.mapOf .encoding))

theorem Barren.part (h : Barren spot) {k : Scalar} (hk : ¬ Spared spot k) : Barren (spot.part k) := by
  cases h with
  | opaqueObject => cases k <;> exact .inert
  | encoding =>
    obtain hinert | ⟨key, kind', rfl, hedge, -⟩ := Spot.along_cases .encoding k
    · show Barren (Spot.along .encoding k)
      exact hinert ▸ .inert
    · cases List.mem_singleton.1 hedge
      exact absurd (.inr ⟨rfl, rfl⟩) hk
  | _ => constructor

theorem Barren.item (h : Barren spot) : Barren spot.item := by
  cases h <;> exact .inert

theorem Barren.of_visit? : ∀ {steps : List Inline.Step} {spot spot' : Spot} {t x : Tree},
    Barren spot → ¬ Spares spot steps → spot.visit? t steps = some (spot', x) → Barren spot'
  | [], _, _, _, _, hb, _, h => by
    cases h
    exact hb
  | .key k :: _, _, _, _, _, hb, hs, h => by
    obtain ⟨-, _, _, _, -, -, h⟩ := Spot.visit?_key.1 h
    obtain ⟨hk, hs⟩ := not_or.1 hs
    exact (hb.part hk).of_visit? hs h
  | .index _ :: _, _, _, _, _, hb, hs, h => by
    obtain ⟨-, _, _, _, -, -, h⟩ := Spot.visit?_index.1 h
    exact hb.item.of_visit? hs h

theorem Barren.cleared (h : Barren spot) (t : Tree) : Cleared spot t := by
  intro steps x hx href hs
  cases h.of_visit? hs hx

/-! ## A walk -/

/-- The walk visits what stands at a position as an object of a kind. -/
inductive Visits : Spot → Kind → Prop
  | visited (kind : Kind) : Visits (.visited kind) kind
  | components : Visits .components .components
  | table : Visits .table (.mapOf .schema)

/-- The walk goes along the edges of inlining, apart from those that are spared or lead to no schema. -/
theorem mem_edges_or (hkind : HasEdges kind) : ∀ e ∈ Inline.edges kind, e ∈ edges kind ∨
    Spared (.visited kind) (.text e.1) ∨ e.2 = .mapOf .opaqueObject ∨ e.2 = .mapOf .encoding := by
  cases kind <;> first | exact hkind.elim | decide

/-- Where the keys of an object lead. -/
theorem Visits.part_cases (h : Visits spot kind) (hkind : HasEdges kind) (k : Scalar) :
    Barren (spot.part k) ∨ Spared spot k ∨ (kind = .schema ∧ k = .text "discriminator") ∨
      ∃ key kind', k = .text key ∧ (key, kind') ∈ edges kind ∧ Visits (spot.part k) kind' := by
  have halong : spot.part k = Spot.along kind k → (Spared (.visited kind) k → Spared spot k) →
      Barren (spot.part k) ∨ Spared spot k ∨ (kind = .schema ∧ k = .text "discriminator") ∨
      ∃ key kind', k = .text key ∧ (key, kind') ∈ edges kind ∧ Visits (spot.part k) kind' := by
    intro hpart hspared
    rw [hpart]
    obtain hinert | ⟨key, kind', rfl, hedge, hto⟩ := Spot.along_cases kind k
    · exact .inl (hinert ▸ .inert)
    · rw [hto]
      obtain hmem | hs | rfl | rfl := mem_edges_or hkind _ hedge
      · exact .inr (.inr (.inr ⟨key, kind', rfl, hmem, .visited kind'⟩))
      · exact .inr (.inl (hspared hs))
      · exact .inl .opaqueObjects
      · exact .inl .encodings
  cases h with
  | table => exact hkind.elim
  | components =>
    by_cases hk : k = .text "schemas"
    · subst hk
      exact .inr (.inr (.inr ⟨"schemas", .mapOf .schema, rfl, by decide, .table⟩))
    · exact halong (if_neg hk) fun hs => by simp [Spared] at hs
  | visited =>
    by_cases hk : kind = .schema ∧ k = .text "discriminator"
    · exact .inr (.inr (.inl hk))
    · refine halong ?_ id
      cases kind with
      | mapOf | callback | listOf => exact hkind.elim
      | schema => exact if_neg fun h => hk ⟨rfl, h⟩
      | _ => rfl

theorem Visits.item_cases (h : Visits spot kind) :
    Barren spot.item ∨ ∃ k, kind = .listOf k ∧ spot.item = .visited k := by
  cases h with
  | visited kind =>
    cases kind with
    | listOf k => exact .inr ⟨k, rfl, rfl⟩
    | _ => exact .inl .inert
  | _ => exact .inl .inert

/-- What a slot holds after a visit is as it should be if what the visit makes of it is. -/
theorem slot_prepared {visit : Visit Run} (ht : Tree.Plain t) (hv : Visits spot kind)
    (h : slot visitor kind t visit s = ((t', .ok ()), s'))
    (hvisit : visit kind s = ((t', .ok ()), s') → Tree.Plain t' ∧ Cleared spot t') :
    Tree.Plain t' ∧ Cleared spot t' := by
  rw [slot] at h
  cases hk : kind.mayRefer with
  | false =>
    rw [hk] at h
    exact hvisit h
  | true =>
    rw [hk] at h
    cases hr : Reference.ofTree? t with
    | none =>
      rw [hr] at h
      exact hvisit h
    | some r =>
      rw [hr] at h
      obtain ⟨he, -⟩ := pure_run.1 h
      cases he
      cases hv with
      | visited => exact ⟨ht, cleared_reference (Option.isSome_iff_exists.2 ⟨_, hr⟩) hk⟩
      | _ => cases hk

theorem eachEntry_run : ∀ {children : List (Scalar × Tree × Visit Run)} {es' : Entries}
    {s s' : State}, eachEntry visitor kind children s = ((es', .ok ()), s') →
    es'.keys = children.map (·.1) ∧ ∀ e ∈ es', ∃ c ∈ children, ∃ s₁ s₂,
      slot visitor kind c.2.1 c.2.2 s₁ = ((e.2, .ok ()), s₂)
  | [], _, _, _, h => by
    cases (pure_run.1 h).1
    exact ⟨rfl, fun e he => absurd he List.not_mem_nil⟩
  | (k, t, visit) :: children, es', s, s', h => by
    obtain ⟨⟨t', r⟩, s₁, h₁, h⟩ := bind_run.1 h
    cases r with
    | error f => cases (pure_run.1 h).1
    | ok =>
      obtain ⟨⟨es₁, r⟩, s₂, h₂, h⟩ := bind_run.1 h
      cases (pure_run.1 h).1
      obtain ⟨hkeys, hruns⟩ := eachEntry_run h₂
      refine ⟨congrArg (k :: ·) hkeys, fun e he => ?_⟩
      rcases List.mem_cons.1 he with rfl | he
      · exact ⟨_, List.mem_cons_self, s, s₁, h₁⟩
      · obtain ⟨c, hc, hrun⟩ := hruns e he
        exact ⟨c, List.mem_cons_of_mem _ hc, hrun⟩

theorem eachItem_run : ∀ {children : List (Tree × Visit Run)} {ts : List Tree} {s s' : State},
    eachItem visitor kind children s = ((ts, .ok ()), s') →
    ∀ u ∈ ts, ∃ c ∈ children, ∃ s₁ s₂, slot visitor kind c.1 c.2 s₁ = ((u, .ok ()), s₂)
  | [], _, _, _, h, u, hu => by
    cases (pure_run.1 h).1
    exact absurd hu List.not_mem_nil
  | (t, visit) :: children, ts, s, s', h, u, hu => by
    obtain ⟨⟨t', r⟩, s₁, h₁, h⟩ := bind_run.1 h
    cases r with
    | error f => cases (pure_run.1 h).1
    | ok =>
      obtain ⟨⟨ts₁, r⟩, s₂, h₂, h⟩ := bind_run.1 h
      cases (pure_run.1 h).1
      rcases List.mem_cons.1 hu with rfl | hu
      · exact ⟨_, List.mem_cons_self, s, s₁, h₁⟩
      · obtain ⟨c, hc, hrun⟩ := eachItem_run h₂ u hu
        exact ⟨c, List.mem_cons_of_mem _ hc, hrun⟩

theorem plain_orNull {key : String} (h : Tree.Plain (.map a es)) : Tree.Plain (es.orNull key) := by
  rw [Entries.orNull]
  cases hx : es.get? key with
  | none => rfl
  | some x => exact ((Tree.plain_map.1 h).2.2 _ (Entries.mem_of_at? hx)).2

theorem plain_erase (h : Tree.Plain (.map none es)) (key : String) :
    Tree.Plain (.map none (es.erase key)) := by
  obtain ⟨-, hd, hpl⟩ := Tree.plain_map.1 h
  refine Tree.plain_map.2 ⟨rfl, ?_, fun e he => hpl e (List.mem_of_mem_filter he)⟩
  exact hd.sublist (List.filter_sublist.map _)

theorem require_plain {name : Tree} (hname : Tree.Plain name) (ht : Tree.Plain t)
    (h : require name t s = ((t', .ok ()), s')) : Tree.Plain t' := by
  unfold require at h
  cases hpart : isPart name t with
  | error f =>
    rw [hpart] at h
    cases (pure_run.1 h).1
  | ok found =>
    rw [hpart] at h
    cases found with
    | true =>
      cases (pure_run.1 h).1
      exact ht
    | false =>
      cases t with
      | list a ts =>
        cases (pure_run.1 h).1
        obtain ⟨rfl, hts⟩ := Tree.plain_list.1 ht
        refine Tree.plain_list.2 ⟨rfl, fun u hu => ?_⟩
        rcases List.mem_append.1 hu with hu | hu
        · exact hts u hu
        · exact List.mem_singleton.1 hu ▸ hname
      | _ => cases (pure_run.1 h).1

/-- A schema without its discriminator: of its other parts only the required properties may have changed. -/
structure Dropped (es es' : Entries) : Prop where
  plain : Tree.Plain (.map none es')
  gone : es'.get? "discriminator" = none
  others : ∀ k, k ≠ .text "discriminator" → k ≠ .text "required" → es'.at? k = es.at? k

theorem dropped_erase (hes : Tree.Plain (.map none es)) : Dropped es (es.erase "discriminator") where
  plain := plain_erase hes "discriminator"
  gone := by rw [Entries.get?, Entries.at?_erase, if_pos rfl]
  others k hk _ := by rw [Entries.at?_erase, if_neg hk]

theorem Dropped.set (h : Dropped es es') : Dropped es (es'.set "required" (.array [])) where
  plain := Entries.plain_set h.plain (Tree.plain_list.2 ⟨rfl, by simp⟩)
  gone := (Entries.at?_put_ne (by decide) _ _).trans h.gone
  others k hk hr := (Entries.at?_put_ne hr _ _).trans (h.others k hk hr)

/-- A schema without its discriminator is one still when a property has been required. -/
theorem Dropped.require {name : Tree} (h : Dropped es es') (hname : Tree.Plain name)
    (hrun : Edit.value "required" (require name) (.map none es') s = ((x', .ok ()), s')) :
    ∃ es'' : Entries, x' = .map none es'' ∧ Dropped es es'' := by
  obtain ⟨_, _, es'', heq, rfl, hrun⟩ | ⟨hnone, -⟩ := Edit.value_run hrun
  · obtain ⟨rfl, rfl⟩ := Tree.map.inj heq
    obtain ⟨hkeys, hne, hat⟩ := Edit.valueIn_run hrun
    refine ⟨es'', rfl, Entries.plain_of_changed h.plain hkeys hne fun t ht => ?_,
      (hne _ (by decide)).trans h.gone, fun k hk hr => (hne k hr).trans (h.others k hk hr)⟩
    cases hx : Entries.at? (.text "required") es' with
    | none => cases ((Entries.at?_eq_none_congr hkeys).2 hx).symm.trans ht
    | some x =>
      rw [hx] at hat
      obtain ⟨x', hx', hrun⟩ := hat
      cases hx'.symm.trans ht
      have hx := ((Tree.plain_map.1 h.plain).2.2 _ (Entries.mem_of_at? hx)).2
      rw [Edit.shared_of_anchor hx.anchor_eq] at hrun
      exact require_plain hname hx hrun
  · cases hnone

/-- A schema keeps no discriminator, and of its other parts only the required properties change. -/
theorem dropDiscriminator_run (hes : Tree.Plain (.map none es))
    (h : dropDiscriminator (.map none es) s = ((x', .ok ()), s')) :
    ∃ es' : Entries, x' = .map none es' ∧ Dropped es es' := by
  have hrest := dropped_erase hes
  rw [dropDiscriminator] at h
  dsimp only at h
  generalize Entries.erase es "discriminator" = rest at h hrest
  have hplain : (pure (.map none rest, .ok ()) : Run (Edited Unit)) s = ((x', .ok ()), s') →
      ∃ es' : Entries, x' = .map none es' ∧ Dropped es es' := by
    intro h
    obtain ⟨he, -⟩ := pure_run.1 h
    cases he
    exact ⟨rest, rfl, hrest⟩
  cases hd : Entries.get? es "discriminator" with
  | none => exact hplain (by rwa [hd] at h)
  | some discriminator =>
  cases ht : Entries.get? rest "type" with
  | none => exact hplain (by rw [hd, ht] at h; cases discriminator <;> exact h)
  | some type =>
  rw [hd, ht] at h
  cases discriminator with
  | map b discriminator =>
    dsimp only at h
    have hname : Tree.Plain (Entries.orNull discriminator "propertyName") :=
      plain_orNull ((Tree.plain_map.1 hes).2.2 _ (Entries.mem_of_at? hd)).2
    generalize Entries.orNull discriminator "propertyName" = name at h hname
    cases hcheck : checkDiscriminator rest name type with
    | error f =>
      rw [hcheck] at h
      cases (pure_run.1 h).1
    | ok =>
      rw [hcheck] at h
      by_cases hrequired : Entries.has rest "required" = true
      · exact hrest.require hname (by simpa only [if_pos hrequired] using h)
      · exact hrest.set.require hname (by simpa only [if_neg hrequired] using h)
  | _ => exact hplain h

/-- What is left under the keys of an object after a walk is cleared, if every visit of a part clears
it. -/
theorem object_prepared (hkind : HasEdges kind) (hv : Visits spot kind)
    (hes : Tree.Plain (.map none es))
    (hvisit : ∀ k x, es.at? k = some x → ∀ {spot kind s s' x'}, Visits spot kind →
      walk visitor bound x kind s = ((x', .ok ()), s') → Tree.Plain x' ∧ Cleared spot x')
    (h : walk visitor bound (.map none es) kind s = ((x', .ok ()), s')) :
    ∃ es' : Entries, x' = .map none es' ∧ Tree.Plain (.map none es') ∧ ClearedParts spot es' ∧
      (kind = .schema → es'.get? "discriminator" = none) := by
  obtain ⟨es₁, s₁, hoff, hends, hafter⟩ := object_run hkind h
  have hplain : ∀ {k x}, es.at? k = some x → Tree.Plain x := fun hx =>
    ((Tree.plain_map.1 hes).2.2 _ (Entries.mem_of_at? hx)).2
  have hat : ∀ {key x kind'}, (key, kind') ∈ edges kind → es₁.get? key = some x →
      ∃ t, es.get? key = some t ∧ ∀ {spot}, Visits spot kind' → Tree.Plain x ∧ Cleared spot x := by
    intro key x kind' hedge hx
    cases ht : es.get? key with
    | none => cases ((Entries.at?_eq_none_congr hoff.keys).2 ht).symm.trans hx
    | some t =>
      obtain ⟨t', s₂, s₃, ht', hslot⟩ := hends _ hedge t ht
      cases ht'.symm.trans hx
      exact ⟨t, rfl, fun hto => slot_prepared (hplain ht) hto hslot (hvisit _ t ht hto)⟩
  have hplain₁ : Tree.Plain (.map none es₁) := by
    refine Entries.plain_of_keys hes hoff.keys fun k x hx => ?_
    by_cases hk : ∃ edge ∈ edges kind, k = .text edge.1
    · obtain ⟨edge, hedge, rfl⟩ := hk
      obtain ⟨t, -, hprepared⟩ := hat hedge hx
      exact (hprepared (.visited edge.2)).1
    · refine hplain ((hoff.others k fun key hkey he => hk ?_).symm.trans hx)
      obtain ⟨edge, hedge, rfl⟩ := List.mem_map.1 hkey
      exact ⟨edge, hedge, he⟩
  have hparts : ∀ k x, es₁.at? k = some x → ¬ Spared spot k →
      ¬ (kind = .schema ∧ k = .text "discriminator") → Cleared (spot.part k) x := by
    intro k x hx hs hd
    obtain hb | hs' | hd' | ⟨key, kind', rfl, hedge, hto⟩ := hv.part_cases hkind k
    · exact hb.cleared x
    · exact absurd hs' hs
    · exact absurd hd' hd
    · obtain ⟨t, -, hprepared⟩ := hat hedge hx
      exact (hprepared hto).2
  by_cases hschema : kind = .schema
  · subst hschema
    obtain ⟨es', rfl, hplain', hnone, hothers⟩ := dropDiscriminator_run hplain₁ hafter
    refine ⟨es', rfl, hplain', fun k x hx hs => ?_, fun _ => hnone⟩
    by_cases hd : k = .text "discriminator"
    · subst hd
      cases hnone.symm.trans hx
    · by_cases hr : k = .text "required"
      · subst hr
        obtain ⟨⟩ := hv
        exact cleared_inert x
      · exact hparts k x ((hothers k hd hr).symm.trans hx) hs fun h => hd h.2
  · have heq : visitor.after kind (.map none es₁) = pure (.map none es₁, .ok ()) := if_neg hschema
    rw [heq] at hafter
    obtain ⟨he, -⟩ := pure_run.1 hafter
    cases he
    exact ⟨es₁, rfl, hplain₁, fun k x hx hs => hparts k x hx hs fun h => hschema h.1,
      fun h => absurd h hschema⟩

/-- The values under all keys of an object are cleared if the visit of each one clears it. -/
theorem eachEntry_prepared {k : Kind} (ht : Tree.Plain (.map none es))
    (hpart : ∀ key, spot.part key = .visited k) (hnot : spot ≠ .visited .schema)
    (hvisit : ∀ e ∈ es, ∀ {s s' x'}, walk visitor bound e.2 k s = ((x', .ok ()), s') →
      Tree.Plain x' ∧ Cleared (.visited k) x')
    (h : eachEntry visitor k (es.map fun e => (e.1, e.2, walk visitor bound e.2)) s = ((es', .ok ()), s')) :
    Tree.Plain (.map none es') ∧ Cleared spot (.map none es') := by
  obtain ⟨hkeys, hruns⟩ := eachEntry_run h
  have heach : ∀ key x, es'.at? key = some x → Tree.Plain x ∧ Cleared (.visited k) x := by
    intro key x hx
    obtain ⟨c, hc, s₁, s₂, hslot⟩ := hruns _ (Entries.mem_of_at? hx)
    obtain ⟨e, he, rfl⟩ := List.mem_map.1 hc
    exact slot_prepared ((Tree.plain_map.1 ht).2.2 e he).2 (.visited k) hslot (hvisit e he)
  refine ⟨Entries.plain_of_keys ht ?_ fun key x hx => (heach key x hx).1,
    cleared_map (fun h => absurd h hnot) fun key x hx _ => hpart key ▸ (heach key x hx).2⟩
  rw [hkeys, List.map_map]
  rfl

/-- The items of a list are cleared if the visit of each one clears it. -/
theorem eachItem_prepared {k : Kind} {ts ts' : List Tree} (hts : ∀ t ∈ ts, Tree.Plain t)
    (hvisit : ∀ t ∈ ts, ∀ {s s' x'}, walk visitor bound t k s = ((x', .ok ()), s') →
      Tree.Plain x' ∧ Cleared (.visited k) x')
    (h : eachItem visitor k (ts.map fun t => (t, walk visitor bound t)) s = ((ts', .ok ()), s')) :
    Tree.Plain (.list none ts') ∧ Cleared (.visited (.listOf k)) (.list none ts') := by
  have heach : ∀ x ∈ ts', Tree.Plain x ∧ Cleared (.visited k) x := by
    intro x hx
    obtain ⟨c, hc, s₁, s₂, hslot⟩ := eachItem_run h x hx
    obtain ⟨t, ht, rfl⟩ := List.mem_map.1 hc
    exact slot_prepared (hts t ht) (.visited k) hslot (hvisit t ht)
  exact ⟨Tree.plain_list.2 ⟨rfl, fun x hx => (heach x hx).1⟩, cleared_list fun x hx => (heach x hx).2⟩

/-- A walk clears what it goes through, and shares nothing. -/
theorem walk_prepared : ∀ {t : Tree}, Tree.Plain t → ∀ {spot : Spot} {kind : Kind} {s s' : State}
    {t' : Tree}, Visits spot kind → walk visitor bound t kind s = ((t', .ok ()), s') →
      Tree.Plain t' ∧ Cleared spot t' := by
  intro t
  induction t using Tree.induct with
  | map a es ih =>
    intro ht spot kind s s' t' hv h
    obtain ⟨rfl, -, hes⟩ := Tree.plain_map.1 ht
    have hvisit : ∀ e ∈ es, ∀ {spot kind s s' x'}, Visits spot kind →
        walk visitor bound e.2 kind s = ((x', .ok ()), s') → Tree.Plain x' ∧ Cleared spot x' :=
      fun e he _ _ _ _ _ => ih e he (hes e he).2
    by_cases hkind : HasEdges kind
    · obtain ⟨es', rfl, hplain, hparts, hd⟩ := object_prepared hkind hv ht
        (fun k x hx => hvisit _ (Entries.mem_of_at? hx)) h
      refine ⟨hplain, cleared_map (fun heq => hd ?_) hparts⟩
      subst heq
      cases hv
      rfl
    · rw [walk_map] at h
      -- The other kinds of objects have no edges: all their parts are visited as one kind, or none is.
      cases kind with
      | mapOf k =>
        obtain ⟨⟨es', r⟩, s₁, h₁, h⟩ := bind_run.1 h
        cases (pure_run.1 h).1
        cases hv <;>
          exact eachEntry_prepared ht (fun _ => rfl) (by simp) (fun e he => hvisit e he (.visited _)) h₁
      | callback =>
        obtain ⟨⟨es', r⟩, s₁, h₁, h⟩ := bind_run.1 h
        cases (pure_run.1 h).1
        cases hv
        exact eachEntry_prepared ht (fun _ => rfl) (by simp) (fun e he => hvisit e he (.visited _)) h₁
      | listOf k =>
        cases hv
        obtain ⟨he, -⟩ := pure_run.1 h
        obtain ⟨rfl, -⟩ := Prod.mk.inj he
        rw [List.map_map]
        refine ⟨(List.map_id' es).symm ▸ ht, cleared_map (by simp) fun key x _ _ => ?_⟩
        cases key <;> exact cleared_inert x
      | _ => exact absurd trivial hkind
  | list a ts ih =>
    intro ht spot kind s s' t' hv h
    obtain ⟨rfl, hts⟩ := Tree.plain_list.1 ht
    rw [walk_list] at h
    by_cases hlist : ∃ k, kind = .listOf k
    · obtain ⟨k, rfl⟩ := hlist
      obtain ⟨⟨us, r⟩, s₁, h₁, h⟩ := bind_run.1 h
      cases (pure_run.1 h).1
      cases hv
      exact eachItem_prepared hts (fun t ht => ih t ht (hts t ht) (.visited k)) h₁
    · have hsame : t' = .list none ts := by
        cases kind with
        | listOf k => exact absurd ⟨k, rfl⟩ hlist
        | _ => exact (Prod.mk.inj (pure_run.1 h).1).1.symm
      subst hsame
      refine ⟨ht, cleared_list fun x _ => ?_⟩
      obtain hb | ⟨k, rfl, -⟩ := hv.item_cases
      · exact hb.cleared x
      · exact absurd ⟨k, rfl⟩ hlist
  | back a m => exact fun ht => absurd ht Tree.plain_back
  | _ =>
    intro ht spot kind s s' t' hv h
    obtain ⟨he, -⟩ := pure_run.1 h
    obtain ⟨rfl, -⟩ := Prod.mk.inj he
    exact ⟨ht, cleared_leaf rfl rfl⟩

/-! ## Path items -/

theorem cleared_integrate (target : Target) (h : Cleared (.visited .operation) (.map a es)) :
    Cleared (.visited .operation) (.map a (es.set integrationKey target.integration)) := by
  refine cleared_map (by simp) fun k x hx hs => ?_
  by_cases hk : k = .text integrationKey
  · subst hk
    exact cleared_inert x
  · rw [Entries.set, Entries.at?_put_ne hk] at hx
    intro steps y hy href hs'
    refine h (.key k :: steps) y (Spot.visit?_key.2 ⟨rfl, a, es, x, rfl, hx, hy⟩) href ?_
    exact not_or.2 ⟨hs, hs'⟩

theorem ClearedParts.erase (h : ClearedParts spot es) (key : String) :
    ClearedParts spot (es.erase key) := by
  intro k x hx
  rw [Entries.at?_erase] at hx
  split at hx
  · cases hx
  · exact h k x hx

/-- Naming its function or leaving it out leaves a path item with an operation cleared. -/
theorem placeMethod_prepared {path : Scalar} {m : Method} (hes : Tree.Plain (.map none es))
    (h : ClearedParts (.visited .pathItem) es)
    (hrun : placeMethod targets path es m s = ((es', .ok ()), s')) :
    Tree.Plain (.map none es') ∧ ClearedParts (.visited .pathItem) es' := by
  obtain ⟨-, rfl⟩ | ⟨a, op, hx, ⟨-, rfl⟩ | ⟨id, target, s₁, -, -, hrun⟩⟩ := placeMethod_cases hrun
  · exact ⟨hes, h⟩
  · exact ⟨plain_erase hes m.key, h.erase m.key⟩
  · have hop := ((Tree.plain_map.1 hes).2.2 _ (Entries.mem_of_at? hx)).2
    obtain rfl : a = none := (Tree.plain_map.1 hop).1
    obtain ⟨hkeys, hothers, hat⟩ := Edit.valueIn_run hrun
    rw [← Entries.get?_eq_at?, hx] at hat
    obtain ⟨x', hx', hrun⟩ := hat
    cases (pure_run.1 hrun).1
    have hspot : Spot.part (.visited .pathItem) (.text m.key) = .visited .operation := by
      cases m <;> rfl
    have hnot : ¬ Spared (.visited .pathItem) (.text m.key) := by simp [Spared]
    refine ⟨Entries.plain_of_changed hes hkeys hothers fun t ht => ?_, fun k t ht hs => ?_⟩
    · cases hx'.symm.trans ht
      exact Entries.plain_set hop (integration_plain target)
    · by_cases hk : k = .text m.key
      · subst hk
        cases hx'.symm.trans ht
        rw [hspot]
        exact cleared_integrate target (hspot ▸ h _ _ hx hnot)
      · exact h k t ((hothers k hk).symm.trans ht) hs

theorem placeMethods_prepared {path : Scalar} : ∀ {ms : List Method} {es es' : Entries} {s s' : State},
    Tree.Plain (.map none es) → ClearedParts (.visited .pathItem) es →
    placeMethods targets path ms es s = ((es', .ok ()), s') →
    Tree.Plain (.map none es') ∧ ClearedParts (.visited .pathItem) es'
  | [], _, _, _, _, hes, h, hrun => by
    cases (pure_run.1 hrun).1
    exact ⟨hes, h⟩
  | m :: ms, es, es', s, s', hes, h, hrun => by
    obtain ⟨⟨es₁, r⟩, s₁, h₁, hrun⟩ := bind_run.1 hrun
    cases r with
    | error f => cases (pure_run.1 hrun).1
    | ok =>
      obtain ⟨hes₁, h₂⟩ := placeMethod_prepared hes h h₁
      exact placeMethods_prepared hes₁ h₂ hrun

theorem pathItem_prepared {depth : Nat} {path : Scalar} (hes : Tree.Plain (.map none es))
    (h : pathItem depth targets path (.map none es) s = ((x', .ok ()), s')) :
    Tree.Plain x' ∧ Cleared (.visited .pathItem) x' := by
  obtain ⟨t, s₁, hwalk, h⟩ := Edit.andThen_run h
  obtain ⟨es₁, rfl, hes₁, hparts, -⟩ := object_prepared
    (show HasEdges .pathItem from trivial) (.visited _) hes
    (fun k x hx => walk_prepared ((Tree.plain_map.1 hes).2.2 _ (Entries.mem_of_at? hx)).2) hwalk
  obtain ⟨⟨es', r⟩, s₂, hplace, h⟩ := bind_run.1 h
  cases (pure_run.1 h).1
  obtain ⟨hes', hparts'⟩ := placeMethods_prepared hes₁ hparts hplace
  exact ⟨hes', cleared_map (by simp) hparts'⟩

/-! ## The description -/

/-- What is left of the paths. -/
theorem pathsOf_prepared {depth : Nat} : ∀ {ps ps' : Entries} {s s' : State},
    (∀ e ∈ ps, Tree.Plain e.2) → pathsOf depth targets ps s = ((ps', .ok ()), s') →
    ps'.keys.Sublist ps.keys ∧
      ∀ e ∈ ps', Tree.Plain e.2 ∧ Cleared (.visited .pathItem) e.2
  | [], _, _, _, _, h => by
    cases (pure_run.1 h).1
    exact ⟨.slnil, fun e he => absurd he List.not_mem_nil⟩
  | (path, x) :: ps, ps', s, s', hps, h => by
    have hx : Tree.Plain x := hps _ List.mem_cons_self
    have htail : ∀ e ∈ ps, Tree.Plain e.2 := fun e he => hps e (List.mem_cons_of_mem _ he)
    rw [pathsOf] at h
    by_cases hskip : (!x.isMap || Reference.isReference x) = true
    · rw [if_pos hskip] at h
      obtain ⟨⟨ps₁, r⟩, s₁, h₁, h⟩ := bind_run.1 h
      cases (pure_run.1 h).1
      obtain ⟨hkeys, hall⟩ := pathsOf_prepared htail h₁
      refine ⟨hkeys.cons_cons path, List.forall_mem_cons.2 ⟨⟨hx, ?_⟩, hall⟩⟩
      obtain hmap | href := Bool.or_eq_true_iff.1 hskip
      · exact cleared_of_not_map (by simpa using hmap) rfl
      · exact cleared_reference href rfl
    · rw [if_neg hskip] at h
      obtain ⟨hmap, -⟩ := not_or.1 (mt Bool.or_eq_true_iff.2 hskip)
      obtain ⟨es, rfl⟩ := hx.eq_map (by simpa using hmap)
      obtain ⟨⟨x', r⟩, s₁, h₁, h⟩ := bind_run.1 h
      cases r with
      | error f => cases (pure_run.1 h).1
      | ok =>
        have hprepared := pathItem_prepared hx h₁
        obtain ⟨⟨ps₁, r⟩, s₂, h₂, h⟩ := bind_run.1 h
        obtain ⟨he, -⟩ := pure_run.1 h
        split at he
        · cases he
          obtain ⟨hkeys, hall⟩ := pathsOf_prepared htail h₂
          exact ⟨hkeys.cons_cons path, List.forall_mem_cons.2 ⟨hprepared, hall⟩⟩
        · cases he
          obtain ⟨hkeys, hall⟩ := pathsOf_prepared htail h₂
          exact ⟨hkeys.cons path, hall⟩

theorem paths_prepared {depth : Nat} (hx : Tree.Plain (.map none es))
    (h : (do
      let (paths, r) ← pathsOf depth targets es
      pure (.map none paths, r) : Run (Edited Unit)) s = ((x', .ok ()), s')) :
    Tree.Plain x' ∧ Cleared (.visited (.mapOf .pathItem)) x' := by
  obtain ⟨⟨ps, r⟩, s₁, h₁, h⟩ := bind_run.1 h
  cases (pure_run.1 h).1
  obtain ⟨-, hd, hes⟩ := Tree.plain_map.1 hx
  obtain ⟨hkeys, hall⟩ := pathsOf_prepared (fun e he => (hes e he).2) h₁
  refine ⟨Tree.plain_map.2 ⟨rfl, hd.sublist hkeys, fun e he => ⟨?_, (hall e he).1⟩⟩,
    cleared_map (by simp) fun k x hx _ => (hall _ (Entries.mem_of_at? hx)).2⟩
  obtain ⟨e', he', hk⟩ := List.mem_map.1 (hkeys.subset (List.mem_map_of_mem he))
  exact hk ▸ (hes e' he').1

/-- An edit of the map under a key of a description, if what the edit makes of a map is prepared. -/
theorem value_prepared (key : String) {e : Edit Run} (hes : Tree.Plain (.map none es))
    (hitem : (Spot.part .document (.text key)).item = .inert)
    (he : ∀ {x x' s s'}, Tree.Plain x → x.isMap = true → e x s = ((x', .ok ()), s') →
      Tree.Plain x' ∧ Cleared (Spot.part .document (.text key)) x')
    (h : Edit.value key (Edit.whenMap e) (.map none es) s = ((x', .ok ()), s')) :
    ∃ es' : Entries, x' = .map none es' ∧ Tree.Plain (.map none es') ∧
      (∀ k, k ≠ .text key → es'.at? k = es.at? k) ∧
      ∀ t, es'.at? (.text key) = some t → Cleared (Spot.part .document (.text key)) t := by
  obtain ⟨_, _, es', ⟨⟩, rfl, hrun⟩ | ⟨hnone, -⟩ := Edit.value_run h
  · obtain ⟨hkeys, hothers, hat⟩ := Edit.valueIn_run hrun
    have hvalue : ∀ t, Entries.at? (.text key) es' = some t →
        Tree.Plain t ∧ Cleared (Spot.part .document (.text key)) t := by
      intro t ht
      cases hx : es.at? (.text key) with
      | none => cases ((Entries.at?_eq_none_congr hkeys).2 hx).symm.trans ht
      | some x =>
        rw [hx] at hat
        obtain ⟨x', hx', hrun⟩ := hat
        cases hx'.symm.trans ht
        have hplain := ((Tree.plain_map.1 hes).2.2 _ (Entries.mem_of_at? hx)).2
        rw [Edit.shared_of_anchor hplain.anchor_eq] at hrun
        obtain ⟨hmap, hrun⟩ | ⟨hmap, rfl, -⟩ := Edit.whenMap_run hrun
        · exact he hplain hmap hrun
        · exact ⟨hplain, cleared_of_not_map hmap hitem⟩
    exact ⟨es', rfl, Entries.plain_of_changed hes hkeys hothers fun t ht => (hvalue t ht).1, hothers,
      fun t ht => (hvalue t ht).2⟩
  · cases hnone

theorem document_prepared {depth : Nat} (ht : Tree.Plain t)
    (h : document depth targets t s = ((t', .ok ()), s')) : Tree.Plain t' ∧ Cleared .document t' := by
  obtain ⟨u, s₁, h₁, h₂⟩ := Edit.andThen_run h
  by_cases hmap : t.isMap = true
  · obtain ⟨es, rfl⟩ := ht.eq_map hmap
    obtain ⟨es₁, rfl, hes₁, hothers₁, hcomponents⟩ := value_prepared "components" ht rfl
      (fun hx _ hrun => walk_prepared hx .components hrun) h₁
    obtain ⟨es₂, rfl, hes₂, hothers₂, hpaths⟩ := value_prepared "paths" hes₁ rfl
      (fun hx hmap hrun => by
        obtain ⟨ps, rfl⟩ := hx.eq_map hmap
        exact paths_prepared hx hrun) h₂
    refine ⟨hes₂, cleared_map (by simp) fun k x hx _ => ?_⟩
    by_cases hk : k = .text "paths"
    · subst hk
      exact hpaths x hx
    · rw [hothers₂ k hk] at hx
      by_cases hk' : k = .text "components"
      · subst hk'
        exact hcomponents x hx
      · have hinert : Spot.part .document k = .inert := by simp [Spot.part, hk, hk']
        exact hinert ▸ cleared_inert x
  · have hnone : t.entries? = none := by simpa [Tree.isMap] using hmap
    obtain ⟨_, es, _, rfl, -⟩ | ⟨-, rfl, -⟩ := Edit.value_run h₁
    · cases hnone
    obtain ⟨_, es, _, rfl, -⟩ | ⟨-, rfl, -⟩ := Edit.value_run h₂
    · cases hnone
    exact ⟨ht, cleared_of_not_map (by simpa using hmap) rfl⟩

/-- The gateway's description of a description without shared nodes has no discriminators, except behind
the callbacks of operations and the headers of encodings. -/
theorem cleared_describe {g : Tree} (ht : Tree.Plain t) (h : (describe t targets).1 = .ok g) :
    Cleared .document g := by
  unfold describe at h
  generalize hrun : (document (t.anchorBound + 1) targets t).run ⟨[], [], []⟩ = outcome at h
  obtain ⟨⟨t', r⟩, s⟩ := outcome
  cases r with
  | error f => cases h
  | ok =>
    cases h
    obtain ⟨hplain, hcleared⟩ := document_prepared ht hrun
    rwa [Tree.settle_plain _ hplain]

/-! ## A discriminator behind a callback -/

/-- A schema with a discriminator. -/
def sampleSchema : Tree :=
  .object [("type", .text "object"),
    ("properties", .object [("kind", .object [("type", .text "string")])]),
    ("discriminator", .object [("propertyName", .text "kind")])]

/-- The schema as a component and as the body of a callback. -/
def sampleCallback : Tree :=
  .object [("openapi", .text "3.0.0"),
    ("paths", .object [("/a", .object [("post", .object [("operationId", .text "watchFoo"),
      ("callbacks", .object [("done", .object [("/done", .object [("post", .object
        [("requestBody", .object [("content", .object [("application/json",
          .object [("schema", sampleSchema)])])])])])])])])])]),
    ("components", .object [("schemas", .object [("Foo", sampleSchema)])])]

/-- The function that the operation names. -/
def sampleTargets : List (String × Target) := [("watchFoo", .template "Handler")]

/-- The way to the schema behind the callback. -/
def sampleWay : List Inline.Step :=
  ["paths", "/a", "post", "callbacks", "done", "/done", "post", "requestBody", "content",
    "application/json", "schema"].map fun key => .key (.text key)

theorem cleared_sampleCallback : ∃ g, (describe sampleCallback sampleTargets).1 = .ok g ∧
    Cleared .document g := by
  have hplain : Tree.Plain sampleCallback := by simp [sampleCallback, sampleSchema, Scalar.anchor]
  have hok : (describe sampleCallback sampleTargets).1.toOption.isSome = true := by decide +kernel
  obtain ⟨g, hg⟩ := Option.isSome_iff_exists.1 hok
  have hg := eq_ok_of_toOption hg
  exact ⟨g, hg, cleared_describe hplain hg⟩

/-- The discriminator behind the callback is left where it is. -/
theorem discriminator_sampleCallback : ∃ g x, (describe sampleCallback sampleTargets).1 = .ok g ∧
    Spot.document.visit? g sampleWay = some (.visited .schema, x) ∧
      Reference.isReference x = false ∧ (x.get? "discriminator").isSome = true := by
  have hrun : (describe sampleCallback sampleTargets).1.toOption.bind (fun g =>
      (Spot.document.visit? g sampleWay).map fun found =>
        (found.1, Reference.isReference found.2, (found.2.get? "discriminator").isSome)) =
          some (.visited .schema, false, true) := by decide +kernel
  obtain ⟨g, hg, hfound⟩ := Option.bind_eq_some_iff.1 hrun
  obtain ⟨⟨spot, x⟩, hx, hfacts⟩ := Option.map_eq_some_iff.1 hfound
  obtain ⟨rfl, href, hd⟩ := by simpa using hfacts
  exact ⟨g, x, eq_ok_of_toOption hg, hx, href, hd⟩

end ApiContract.Gateway
