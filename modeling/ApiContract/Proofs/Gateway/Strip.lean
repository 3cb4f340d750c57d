import ApiContract.Proofs.Gateway.Discriminator

/-!
# Schemas without discriminators

`stripped t kind` is an object of a kind in which no schema has a discriminator, as far as a walk reaches:
references stay as they are, and the property that the discriminator of an object schema names is a required
one (`undiscriminated`). `walk_stripped`: that is what a walk makes of a plain tree. What is known does not
change on the way.
-/

namespace ApiContract.Gateway

open Walk

/-- A list with a name in it. -/
def listed (name : Tree) : Tree → Tree
  | .list a names => if names.any name.same then .list a names else .list a (names ++ [name])
  | t => t

/-- A schema with the name of a property among the required ones. -/
def requiring (name : Tree) (schema : Entries) : Entries :=
  schema.set "required" (listed name ((schema.get? "required").getD (.array [])))

/-- A schema without its discriminator. The property that the discriminator of an object names is a required
one. -/
def undiscriminated (schema : Entries) : Entries :=
  let rest := schema.erase "discriminator"
  match schema.get? "discriminator" with
  | some (.map _ discriminator) =>
    if rest.get? "type" = some (.text "object") then
      requiring (Entries.orNull discriminator "propertyName") rest
    else rest
  | _ => rest

/-- The kind of object under a key, if there is one. -/
def partKind : Kind → Scalar → Option Kind
  | .mapOf k, _ => some k
  | .callback, _ => some .pathItem
  | kind, .text key => (edges kind).lookup key
  | _, _ => none

/-- The kind of the items of a list, if they are objects. -/
def itemKind : Kind → Option Kind
  | .listOf k => some k
  | _ => none

/-- What becomes of a part: what is no object and what is a reference stays as it is. -/
def part (t : Tree) (visit : Kind → Tree) : Option Kind → Tree
  | none => t
  | some kind => if kind.mayRefer = true ∧ Reference.isReference t = true then t else visit kind

/-- An object of a kind in which no schema has a discriminator. -/
def stripped : Tree → Kind → Tree :=
  Tree.para {
    scalar s _ := .scalar s
    list a items kind := .list a (items.map fun i => part i.1 i.2 (itemKind kind))
    map a entries kind :=
      let parts : Entries := entries.map fun e => (e.1, part e.2.1 e.2.2 (partKind kind e.1))
      .map a (if kind = .schema then undiscriminated parts else parts)
    set a members _ := .set a members
    pair x y _ := .pair x.1 y.1
    back a isMap _ := .back a isMap }

/-- The parts of an object of a kind, without discriminators. -/
def strippedParts (kind : Kind) (es : Entries) : Entries :=
  es.map fun e => (e.1, part e.2 (stripped e.2) (partKind kind e.1))

variable {kind : Kind} {a : Anchor} {es es' : Entries} {t t' x x' : Tree} {s s' : State} {bound : Nat}

theorem stripped_map : stripped (.map a es) kind =
    .map a (if kind = .schema then undiscriminated (strippedParts kind es) else strippedParts kind es) := by
  simp only [stripped, Tree.para, Tree.paraEntries_eq, List.map_map]
  rfl

theorem stripped_list {ts : List Tree} : stripped (.list a ts) kind =
    .list a (ts.map fun t => part t (stripped t) (itemKind kind)) := by
  simp only [stripped, Tree.para, Tree.paraItems_eq, List.map_map]
  rfl

theorem get?_strippedParts (key : String) :
    (strippedParts kind es).get? key =
      (es.get? key).map fun x => part x (stripped x) (partKind kind (.text key)) :=
  Entries.at?_map (fun k t => part t (stripped t) (partKind kind k)) _ es

/-- What is no part of an object stays as it is. -/
theorem get?_strippedParts_of_none {key : String} (h : partKind kind (.text key) = none) :
    (strippedParts kind es).get? key = es.get? key := by
  rw [get?_strippedParts, h]
  exact Option.map_id'

/-! ## A schema -/

theorem require_listed {name : Tree} (h : require name t s = ((t', .ok ()), s')) :
    t' = listed name t ∧ s' = s := by
  unfold require at h
  cases hpart : isPart name t with
  | error f =>
    rw [hpart] at h
    cases (pure_run.1 h).1
  | ok found =>
    rw [hpart] at h
    cases t with
    | list a ts =>
      obtain rfl : ts.any name.same = found := Except.ok.inj (by cases name <;> exact hpart)
      cases hany : ts.any name.same with
      | true =>
        rw [hany] at h
        obtain ⟨he, rfl⟩ := pure_run.1 h
        cases he
        exact ⟨(if_pos hany).symm, rfl⟩
      | false =>
        rw [hany] at h
        obtain ⟨he, rfl⟩ := pure_run.1 h
        cases he
        exact ⟨(if_neg (by rw [hany]; exact Bool.false_ne_true)).symm, rfl⟩
    | _ =>
      cases found with
      | true =>
        obtain ⟨he, rfl⟩ := pure_run.1 h
        cases he
        exact ⟨rfl, rfl⟩
      | false => cases (pure_run.1 h).1

/-- The required properties of a schema, of which there are perhaps none so far. -/
theorem require_requiring {name : Tree} (hanchor : ∀ x, es.get? "required" = some x → x.anchor = none)
    (h : Edit.value "required" (require name) (.map none
      (if es.has "required" then es else es.set "required" (.array []))) s = ((x', .ok ()), s')) :
    x' = .map none (requiring name es) ∧ s' = s := by
  obtain ⟨_, _, es', ⟨⟩, rfl, hrun⟩ | ⟨hnone, -⟩ := Edit.value_run h
  · cases hx : es.get? "required" with
    | none =>
      rw [Entries.has, hx, Option.isSome_none, if_neg Bool.false_ne_true] at hrun
      obtain ⟨y, rfl, hy⟩ := Edit.valueIn_put hrun (Entries.at?_put_self _ _ _)
      rw [Edit.shared_of_anchor rfl] at hy
      obtain ⟨rfl, rfl⟩ := require_listed hy
      refine ⟨?_, rfl⟩
      rw [requiring, hx, Entries.set, Entries.put_put]
      rfl
    | some x =>
      rw [Entries.has, hx, Option.isSome_some, if_pos rfl] at hrun
      obtain ⟨y, rfl, hy⟩ := Edit.valueIn_put hrun hx
      rw [Edit.shared_of_anchor (hanchor x hx)] at hy
      obtain ⟨rfl, rfl⟩ := require_listed hy
      refine ⟨?_, rfl⟩
      rw [requiring, hx]
      rfl
  · cases hnone

theorem dropDiscriminator_undiscriminated (hanchor : ∀ x, es.get? "required" = some x → x.anchor = none)
    (h : dropDiscriminator (.map none es) s = ((x', .ok ()), s')) :
    x' = .map none (undiscriminated es) ∧ s' = s := by
  have hanchor' : ∀ x, (es.erase "discriminator").get? "required" = some x → x.anchor = none := by
    intro x hx
    rw [Entries.get?, Entries.at?_erase, if_neg (by decide)] at hx
    exact hanchor x hx
  rw [dropDiscriminator] at h
  dsimp only at h
  unfold undiscriminated
  generalize Entries.erase es "discriminator" = rest at h hanchor' ⊢
  cases hd : Entries.get? es "discriminator" with
  | none =>
    rw [hd] at h
    obtain ⟨he, rfl⟩ := pure_run.1 h
    cases he
    exact ⟨rfl, rfl⟩
  | some discriminator =>
    cases discriminator with
    | map b discriminator =>
      cases ht : Entries.get? rest "type" with
      | none =>
        rw [hd, ht] at h
        obtain ⟨he, rfl⟩ := pure_run.1 h
        cases he
        exact ⟨congrArg (Tree.map none) (if_neg (by rw [ht]; simp)).symm, rfl⟩
      | some type =>
        rw [hd, ht] at h
        dsimp only at h
        cases hcheck : checkDiscriminator rest (Entries.orNull discriminator "propertyName") type with
        | error f =>
          rw [hcheck] at h
          cases (pure_run.1 h).1
        | ok =>
          rw [hcheck] at h
          have htype : type = .text "object" := by
            by_contra hne
            unfold checkDiscriminator at hcheck
            rw [if_pos hne] at hcheck
            cases hcheck
          subst htype
          obtain ⟨rfl, rfl⟩ := require_requiring hanchor' h
          exact ⟨congrArg (Tree.map none) (if_pos ht).symm, rfl⟩
    | _ =>
      rw [hd] at h
      obtain ⟨he, rfl⟩ := pure_run.1 h
      cases he
      exact ⟨rfl, rfl⟩

/-! ## A walk -/

/-- A walk through a tree strips it and does not change what is known. -/
def Strips (bound : Nat) (t : Tree) : Prop :=
  ∀ kind s t' s', walk visitor bound t kind s = ((t', .ok ()), s') → t' = stripped t kind ∧ s' = s

theorem Strips.slot (ht : Strips bound t)
    (h : slot visitor kind t (walk visitor bound t) s = ((t', .ok ()), s')) :
    t' = part t (stripped t) (some kind) ∧ s' = s := by
  have hvisit : ¬(kind.mayRefer = true ∧ Reference.isReference t = true) →
      walk visitor bound t kind s = ((t', .ok ()), s') → t' = part t (stripped t) (some kind) ∧ s' = s := by
    intro hnot hrun
    rw [part, if_neg hnot]
    exact ht kind s t' s' hrun
  unfold Walk.slot at h
  cases hk : kind.mayRefer with
  | false =>
    rw [hk] at h
    exact hvisit (by simp [hk]) h
  | true =>
    rw [hk] at h
    cases hr : Reference.ofTree? t with
    | none =>
      rw [hr] at h
      exact hvisit (by simp [Reference.isReference, hr]) h
    | some r =>
      rw [hr] at h
      obtain ⟨he, rfl⟩ := pure_run.1 h
      cases he
      exact ⟨(if_pos ⟨hk, by rw [Reference.isReference, hr]; rfl⟩).symm, rfl⟩

theorem eachEntry_stripped : ∀ {es es' : Entries} {s s' : State}, (∀ e ∈ es, Strips bound e.2) →
    eachEntry visitor kind (es.map fun e => (e.1, e.2, walk visitor bound e.2)) s = ((es', .ok ()), s') →
    es' = es.map (fun e => (e.1, part e.2 (stripped e.2) (some kind))) ∧ s' = s
  | [], es', s, s', _, h => by
    obtain ⟨he, rfl⟩ := pure_run.1 h
    cases he
    exact ⟨rfl, rfl⟩
  | (k, t) :: es, es', s, s', hes, h => by
    obtain ⟨ht, hes⟩ := List.forall_mem_cons.1 hes
    obtain ⟨⟨t', r⟩, s₁, h₁, hrest⟩ := bind_run.1 h
    cases r with
    | error f => cases (pure_run.1 hrest).1
    | ok =>
      obtain ⟨⟨es₁, r⟩, s₂, h₂, hpure⟩ := bind_run.1 hrest
      obtain ⟨he, rfl⟩ := pure_run.1 hpure
      cases he
      obtain ⟨rfl, rfl⟩ := ht.slot h₁
      obtain ⟨rfl, rfl⟩ := eachEntry_stripped hes h₂
      exact ⟨rfl, rfl⟩

theorem eachItem_stripped : ∀ {ts ts' : List Tree} {s s' : State}, (∀ t ∈ ts, Strips bound t) →
    eachItem visitor kind (ts.map fun t => (t, walk visitor bound t)) s = ((ts', .ok ()), s') →
    ts' = ts.map (fun t => part t (stripped t) (some kind)) ∧ s' = s
  | [], ts', s, s', _, h => by
    obtain ⟨he, rfl⟩ := pure_run.1 h
    cases he
    exact ⟨rfl, rfl⟩
  | t :: ts, ts', s, s', hts, h => by
    obtain ⟨ht, hts⟩ := List.forall_mem_cons.1 hts
    obtain ⟨⟨t', r⟩, s₁, h₁, hrest⟩ := bind_run.1 h
    cases r with
    | error f => cases (pure_run.1 hrest).1
    | ok =>
      obtain ⟨⟨ts₁, r⟩, s₂, h₂, hpure⟩ := bind_run.1 hrest
      obtain ⟨he, rfl⟩ := pure_run.1 hpure
      cases he
      obtain ⟨rfl, rfl⟩ := ht.slot h₁
      obtain ⟨rfl, rfl⟩ := eachItem_stripped hts h₂
      exact ⟨rfl, rfl⟩

theorem alongEdges_state {children : List (Scalar × Tree × Visit Run)}
    (hchildren : ∀ c ∈ children, ∀ {kind s t' s'},
      slot visitor kind c.2.1 c.2.2 s = ((t', .ok ()), s') → s' = s) :
    ∀ {edges : List (String × Kind)} {es es' : Entries} {s s' : State},
      alongEdges visitor children edges es s = ((es', .ok ()), s') → s' = s
  | [], _, _, _, _, h => (pure_run.1 h).2.symm
  | (key, kind) :: edges, es, es', s, s', h => by
    rw [alongEdges] at h
    cases hlookup : children.lookup (.text key) with
    | none =>
      rw [hlookup] at h
      exact alongEdges_state hchildren h
    | some child =>
      rw [hlookup] at h
      obtain ⟨⟨t', r⟩, s₁, h₁, hrest⟩ := bind_run.1 h
      cases r with
      | error f => cases (pure_run.1 hrest).1
      | ok => exact (alongEdges_state hchildren hrest).trans (hchildren _ (mem_of_lookup hlookup) h₁)

theorem partKind_text (hkind : HasEdges kind) (key : String) :
    partKind kind (.text key) = (edges kind).lookup key := by
  cases kind <;> first | exact hkind.elim | rfl

theorem partKind_eq_none {k : Scalar} (hkind : HasEdges kind) (hk : ∀ key, k ≠ .text key) :
    partKind kind k = none := by
  cases k with
  | text key => exact absurd rfl (hk key)
  | _ => cases kind <;> first | exact hkind.elim | rfl

/-- Along the edges of an object its parts are stripped. -/
theorem alongEdges_stripped (hkind : HasEdges kind) (hkeys : es.keys.Nodup) (hes : ∀ e ∈ es, Strips bound e.2)
    (h : alongEdges visitor (es.map fun e => (e.1, e.2, walk visitor bound e.2)) (edges kind) es s =
      ((es', .ok ()), s')) : es' = strippedParts kind es ∧ s' = s := by
  obtain ⟨hoff, hends⟩ := edges_run hkind h
  constructor
  · have hkeys' : (strippedParts kind es).keys = es.keys := by
      rw [strippedParts, Entries.keys, List.map_map]
      rfl
    refine Entries.ext_at? (hoff.keys.trans hkeys'.symm) (hkeys'.symm ▸ hkeys) fun k => ?_
    rw [strippedParts, Entries.at?_map fun k t => part t (stripped t) (partKind kind k)]
    have hother : partKind kind k = none → es'.at? k = es.at? k := by
      intro hnone
      refine hoff.others k fun key hkey => ?_
      rintro rfl
      rw [partKind_text hkind] at hnone
      exact lookup_eq_none.1 hnone hkey
    cases hx : es.at? k with
    | none => exact (Entries.at?_eq_none_congr hoff.keys).2 hx
    | some x =>
      cases hpart : partKind kind k with
      | none => exact (hother hpart).trans hx
      | some kind' =>
        obtain ⟨key, rfl⟩ : ∃ key, k = .text key := by
          by_contra hno
          cases hpart.symm.trans (partKind_eq_none hkind fun key he => hno ⟨key, he⟩)
        have hedge : (key, kind') ∈ edges kind := mem_of_lookup ((partKind_text hkind key).symm.trans hpart)
        obtain ⟨x', _, _, hx', hslot⟩ := hends _ hedge x hx
        exact hx'.trans (congrArg some ((hes _ (Entries.mem_of_at? hx)).slot hslot).1)
  · refine alongEdges_state (fun c hc kind s t' s' hslot => ?_) h
    obtain ⟨e, he, rfl⟩ := List.mem_map.1 hc
    exact ((hes e he).slot hslot).2

/-- A walk through an object with fixed parts. -/
theorem object_stripped (hkind : HasEdges kind) (hes : Tree.Plain (.map none es))
    (hstrips : ∀ e ∈ es, Strips bound e.2) (h : walk visitor bound (.map none es) kind s = ((t', .ok ()), s')) :
    t' = stripped (.map none es) kind ∧ s' = s := by
  obtain ⟨-, hkeys, hall⟩ := Tree.plain_map.1 hes
  obtain ⟨es', s₁, h₁, hafter⟩ := object_edges hkind h
  obtain ⟨rfl, rfl⟩ := alongEdges_stripped hkind hkeys.nodup hstrips h₁
  rw [stripped_map]
  by_cases hschema : kind = .schema
  · subst hschema
    rw [if_pos rfl]
    refine dropDiscriminator_undiscriminated (fun x hx => ?_) hafter
    rw [get?_strippedParts] at hx
    obtain ⟨y, hy, rfl⟩ := Option.map_eq_some_iff.1 hx
    exact (hall _ (Entries.mem_of_at? hy)).2.anchor_eq
  · have hskip : visitor.after kind (.map none (strippedParts kind es)) =
        pure (.map none (strippedParts kind es), .ok ()) := if_neg hschema
    rw [hskip] at hafter
    obtain ⟨he, rfl⟩ := pure_run.1 hafter
    cases he
    exact ⟨by rw [if_neg hschema], rfl⟩

/-- A walk through a map of a kind without fixed parts. -/
theorem entries_stripped (hkind : ¬HasEdges kind) (hstrips : ∀ e ∈ es, Strips bound e.2)
    (h : walk visitor bound (.map none es) kind s = ((t', .ok ()), s')) :
    t' = stripped (.map none es) kind ∧ s' = s := by
  rw [walk_map] at h
  rw [stripped_map]
  cases kind with
  | mapOf k =>
    obtain ⟨⟨es', r⟩, s₁, h₁, hpure⟩ := bind_run.1 h
    obtain ⟨he, rfl⟩ := pure_run.1 hpure
    cases he
    obtain ⟨rfl, rfl⟩ := eachEntry_stripped hstrips h₁
    exact ⟨rfl, rfl⟩
  | callback =>
    obtain ⟨⟨es', r⟩, s₁, h₁, hpure⟩ := bind_run.1 h
    obtain ⟨he, rfl⟩ := pure_run.1 hpure
    cases he
    obtain ⟨rfl, rfl⟩ := eachEntry_stripped hstrips h₁
    exact ⟨rfl, rfl⟩
  | listOf k =>
    obtain ⟨he, rfl⟩ := pure_run.1 h
    obtain ⟨rfl, -⟩ := Prod.mk.inj he
    have hparts : strippedParts (.listOf k) es = es := by
      refine (List.map_congr_left fun e _ => ?_).trans (List.map_id _)
      have hnone : partKind (.listOf k) e.1 = none := by cases e.1 <;> rfl
      rw [hnone]
      rfl
    rw [if_neg (by simp), hparts, List.map_map]
    exact ⟨congrArg (Tree.map none) (List.map_id _), rfl⟩
  | _ => exact absurd trivial hkind

/-- A walk through a list. -/
theorem list_stripped {ts : List Tree} (hstrips : ∀ t ∈ ts, Strips bound t)
    (h : walk visitor bound (.list none ts) kind s = ((t', .ok ()), s')) :
    t' = stripped (.list none ts) kind ∧ s' = s := by
  rw [walk_list] at h
  rw [stripped_list]
  by_cases hlist : ∃ k, kind = .listOf k
  · obtain ⟨k, rfl⟩ := hlist
    obtain ⟨⟨us, r⟩, s₁, h₁, hpure⟩ := bind_run.1 h
    obtain ⟨he, rfl⟩ := pure_run.1 hpure
    cases he
    obtain ⟨rfl, rfl⟩ := eachItem_stripped hstrips h₁
    exact ⟨rfl, rfl⟩
  · have hsame : itemKind kind = none ∧ t' = .list none ts ∧ s' = s := by
      cases kind with
      | listOf k => exact absurd ⟨k, rfl⟩ hlist
      | _ => exact ⟨rfl, (Prod.mk.inj (pure_run.1 h).1).1.symm, (pure_run.1 h).2.symm⟩
    obtain ⟨hitem, rfl, rfl⟩ := hsame
    rw [hitem]
    exact ⟨congrArg (Tree.list none) (List.map_id' ts).symm, rfl⟩

theorem walk_stripped {t : Tree} (ht : Tree.Plain t) : Strips bound t := by
  induction t using Tree.induct with
  | map a es ih =>
    obtain ⟨rfl, -, hes⟩ := Tree.plain_map.1 ht
    have hstrips : ∀ e ∈ es, Strips bound e.2 := fun e he => ih e he (hes e he).2
    intro kind s t' s' h
    by_cases hkind : HasEdges kind
    · exact object_stripped hkind ht hstrips h
    · exact entries_stripped hkind hstrips h
  | list a ts ih =>
    obtain ⟨rfl, hts⟩ := Tree.plain_list.1 ht
    exact fun kind s t' s' h => list_stripped (fun t ht => ih t ht (hts t ht)) h
  | back a m => exact absurd ht Tree.plain_back
  | _ =>
    intro kind s t' s' h
    obtain ⟨he, rfl⟩ := pure_run.1 h
    exact ⟨(Prod.mk.inj he).1.symm, rfl⟩

end ApiContract.Gateway
