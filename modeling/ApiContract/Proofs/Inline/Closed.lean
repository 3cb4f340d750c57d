import ApiContract.Proofs.Inline.Document
import ApiContract.Proofs.Reference.Name

/-!
# The inlined description is closed

`closed_inlineReferences`: every reference at a position that inlining visits leads into the result
itself, to a map that is no reference.

* `Inlines.down`: along keys, what inlining makes of a tree is made of its parts.
* `Inlines.leads`: where a pointer leads in the description, it still leads in the result.
* `Kept.leads`: the name that stands for a schema leads to it.
-/

namespace ApiContract.Inline

open Tree Walk

variable {c : Scene} {doc root : Place} {spot : Spot} {library : Library} {t t' out : Tree}

/-- Along keys, what inlining makes of a tree is made of its parts. A lone reference has no map below
it, so no key leads through one. -/
theorem Inlines.down (hl : Lone t) {keys : List String} {x : Tree} (hx : t.down? keys = some x)
    (hm : x.isMap = true) (hi : Inlines c doc spot t t') :
    ∃ x', t'.down? keys = some x' ∧ Inlines c doc (spot.down keys) x x' := by
  induction keys generalizing spot t t' with
  | nil =>
    cases hx
    exact ⟨t', rfl, hi⟩
  | cons key keys ih =>
    obtain ⟨y, hy, hyx⟩ := Option.bind_eq_some_iff.1 hx
    cases t with
    | map a es =>
      cases hr : spot.refers (.map a es) with
      | none =>
        obtain ⟨es', rfl, hk, -, hat, -⟩ := hi.map_inv hr
        obtain ⟨y', hy'⟩ := Entries.exists_at?_of_keys hk hy
        obtain ⟨x', hx', hi'⟩ := ih ((lone_map.1 hl).2 _ (Entries.mem_of_at? hy)) hyx
          (hat _ y y' hy hy')
        exact ⟨x', Option.bind_eq_some_iff.2 ⟨y', hy', hx'⟩, hi'⟩
      | some r =>
        rcases Spot.refers_eq_some hr with ⟨-, -, href⟩ | ⟨-, -, he, -⟩
        · obtain rfl := eq_text_of_lone hl href hy
          cases keys with
          | nil => cases hyx; cases hm
          | cons => cases hyx
        · cases he
    | _ => cases hy

/-- What joins a description is no text. -/
theorem Joined.text? {k : Scalar} {x : Tree} (h : Joined c spot k x) : x.text? = none := by
  cases spot with
  | document | components =>
    obtain ⟨-, _, rfl, -⟩ := h
    rfl
  | table =>
    obtain ⟨_, _, _, -, hr, hi⟩ := h
    obtain ⟨_, rfl, -⟩ := hi.map_inv (Spot.refers_eq_none hr)
    rfl
  | _ => exact h.elim

variable {p : String} {target : Reference.Target}

/-- Where a pointer leads in the description, it still leads in the result. -/
theorem Inlines.leads (hl : Lone t) (hi : Inlines (joined c) doc .document t out)
    (h : Reference.Leads t p target) :
    ∃ target', Reference.Leads out p target' ∧ target'.name = target.name ∧
      Inlines (joined c) doc (Spot.document.down (Reference.keysOf p)) target.tree target'.tree := by
  obtain ⟨hdown, hr, hname⟩ := h
  obtain ⟨x', hx', hi'⟩ := hi.down hl hdown rfl
  obtain ⟨es', rfl, -⟩ := hi'.map_inv (Spot.refers_eq_none hr)
  refine ⟨⟨es', target.anchor, target.name⟩, ⟨hx', ?_, hname⟩, rfl, hi'⟩
  exact hi'.ofTree?_eq_none (fun _ x hx => Joined.text? hx) hr

theorem isMap_same {e n : Tree} (h : e.same n = true) (hn : n.isMap = true) : e.isMap = true := by
  cases e with
  | scalar s => obtain ⟨_, rfl, -⟩ := same_scalar.1 h; exact hn
  | list a ts => obtain ⟨_, _, rfl, -⟩ := same_list.1 h; exact hn
  | map a es => rfl
  | set a ms => obtain ⟨_, _, rfl, -⟩ := same_set.1 h; exact hn
  | pair x y => obtain ⟨_, _, rfl, -⟩ := same_pair.1 h; exact hn
  | back a m => rw [same_back.1 h] at hn; exact hn

/-- The name that stands for a schema leads to one that is the same. -/
theorem Kept.leads {name : String} {n : Tree} (h : Kept (schemaOf out) name n) :
    ∃ target, Reference.Leads out (Reference.schemaPointer name) target ∧
      schemaOf out name = some target.tree ∧ Plain target.tree ∧ target.tree.same n = true := by
  obtain ⟨e, he, hpe, hsame⟩ := h.held
  have hr : Reference.ofTree? e = none := by
    cases hr : Reference.ofTree? e with
    | none => rfl
    | some r => exact (ofTree?_same hsame hr).symm.trans h.ofTree?
  have hm := isMap_same hsame h.isMap
  cases e with
  | map a es =>
    refine ⟨⟨es, a, name⟩, ⟨?_, hr, ?_⟩, he, hpe, hsame⟩
    · rw [Reference.keysOf_schemaPointer]
      simp only [schemaOf, Option.bind_eq_some_iff] at he
      obtain ⟨y, ⟨x, hx, hy⟩, he⟩ := he
      simp [Tree.down?, hx, hy, he, Reference.Target.tree]
    · rw [Reference.keysOf_schemaPointer]
      rfl
  | _ => cases hm

/-! ## Closed references -/

/-- A reference leads into a description, to a map that is no reference. -/
def Closed (out : Tree) (reference : String) : Prop :=
  ∃ pointer target, reference = "#/" ++ pointer ∧
    Reference.resolveLocal reference out = .ok (pointer, target) ∧
      Reference.ofTree? target.tree = none

theorem closed_of_leads (hp : '#' ∉ p.toList) (h : Reference.Leads out p target) :
    Closed out ("#/" ++ p) := by
  exact ⟨p, target, rfl, (Reference.resolveLocal_rooted hp).2 ⟨rfl, h⟩, h.ofTree?_eq_none⟩

section

variable {P : Kind → String → Prop} (hforeign : ∀ n, Foreign c n → References P (.visited .schema) n)
include hforeign

theorem references_added {added : List (String × Tree)}
    (h : ∀ name n, (name, n) ∈ added → Foreign c n) :
    References P .table (Tree.object added) := by
  refine references_map rfl fun k x hx => hforeign x ?_
  rw [at?_object] at hx
  cases k with
  | text name => exact h name x (mem_of_lookup hx)
  | _ => cases hx

/-- The references of what joins a description are those of foreign schemas. -/
theorem Joined.references {k : Scalar} {x : Tree} (h : Joined c spot k x) :
    References P (spot.part k) x := by
  cases spot with
  | table => exact hforeign x h
  | components =>
    obtain ⟨rfl, added, rfl, hadded⟩ := h
    exact references_added hforeign hadded
  | document =>
    obtain ⟨rfl, added, rfl, hadded⟩ := h
    refine references_map rfl fun k x hx => ?_
    rw [at?_object] at hx
    cases k with
    | text name =>
      have hmem : (name, x) ∈ [("schemas", Tree.object added)] := mem_of_lookup hx
      obtain ⟨rfl, rfl⟩ := Prod.mk.inj (List.mem_singleton.1 hmem)
      exact references_added hforeign hadded
    | _ => cases hx
  | _ => exact h.elim

end

/-- Every reference that inlining puts in a description is closed in the result. -/
theorem Inlines.closed (hl : Lone t)
    (hi : Inlines (outcome library root t out) root .document t out) :
    References (fun _ r => Closed out r) .document out := by
  have hhome : ∀ doc (kind : Kind) r res, (library.add root t).target? doc r = some res →
      res.path = root → Closed out ("#/" ++ res.pointer) := by
    intro doc kind r res hres hroot
    obtain ⟨_, _, d, -, -, -, hd, hleads⟩ := Library.target?_eq_some.1 hres
    rw [get_add, if_pos hroot.symm] at hd
    cases hd
    obtain ⟨target', hleads', -⟩ := hi.leads hl hleads
    exact closed_of_leads (Library.hash_notMem_pointer hres) hleads'
  have hnamed : ∀ name n, Kept (schemaOf out) name n → Closed out (Reference.toSchema name) := by
    intro name n hk
    obtain ⟨target, hleads, -⟩ := hk.leads
    rw [Reference.toSchema_eq]
    exact closed_of_leads (Reference.hash_notMem_schemaPointer hk.hash) hleads
  refine hi.references hhome hnamed fun spot k x hj => Joined.references ?_ hj
  rintro n ⟨doc, a, es, -, -, hn⟩
  exact hn.references hhome hnamed fun _ _ _ (hj : False) => hj.elim

/-- The inlined description is closed: every reference at a position that inlining visits starts with
`#/` and leads to a map of the description that is no reference. -/
theorem closed_inlineReferences (hr : Regular library t)
    (h : inlineReferences library root t = .ok out) :
    References (fun _ r => Closed out r) .document out :=
  (inlines_inlineReferences hr h).1.closed hr.lone

/-! ## A description with a sibling -/

/-- The place of a description. -/
def samplePlace : Place := ⟨true, ["openapi.json"]⟩

/-- A schema and an operation in a document next to it. -/
def sampleLibrary : Library :=
  [(⟨true, ["bar.json"]⟩, .ok (Tree.object [
    ("A1", Tree.object [("type", .text "string")]),
    ("op", Tree.object [
      ("operationId", .text "getA"),
      ("responses", Tree.object [("200", Tree.object [("description", .text "ok")])])])]))]

/-- A description with a schema that refers to the table of schemas, a schema that is a reference, and
more. -/
def sampleSchemas (reference : String) (more : List (String × Tree)) : Tree :=
  Tree.object [("components", Tree.object [("schemas", Tree.object ([
    ("W", Tree.object [
      ("type", .text "object"),
      ("properties", Tree.object [("x", Reference.asTree "#/components/schemas")])]),
    ("A", Reference.asTree reference)] ++ more))])]

/-- What inlining makes of it. -/
def sampleInlined : Tree :=
  sampleSchemas "#/components/schemas/A1" [("A1", Tree.object [("type", .text "string")])]

theorem inlineReferences_sampleSchemas :
    inlineReferences sampleLibrary samplePlace (sampleSchemas "bar.json#/A1" []) =
      .ok sampleInlined :=
  eq_ok_of_toOption (by decide +kernel)

theorem regular_sampleSchemas : Regular sampleLibrary (sampleSchemas "bar.json#/A1" []) where
  documents := plain_get (by simp [sampleLibrary, Scalar.anchor])
  plain := by simp [sampleSchemas, Scalar.anchor]
  lone := by simp [sampleSchemas, List.lookup_cons]
  components x hx := by
    rw [sampleSchemas, get?_object] at hx
    cases hx
    rfl
  schemas name x hx := by
    have hmem := mem_of_lookup (β := Tree) (by simpa [schemaOf, sampleSchemas] using hx)
    simp only [List.mem_cons, Prod.mk.injEq, List.not_mem_nil, or_false] at hmem
    rcases hmem with ⟨-, rfl⟩ | ⟨-, rfl⟩ <;> rfl

theorem closed_sampleInlined :
    inlineReferences sampleLibrary samplePlace (sampleSchemas "bar.json#/A1" []) =
        .ok sampleInlined ∧
      Regular sampleLibrary (sampleSchemas "bar.json#/A1" []) ∧
        References (fun _ r => Closed sampleInlined r) .document sampleInlined :=
  ⟨inlineReferences_sampleSchemas, regular_sampleSchemas,
    closed_inlineReferences regular_sampleSchemas inlineReferences_sampleSchemas⟩

/-- A description whose operation is a reference. -/
def sampleOperation : Tree :=
  Tree.object [
    ("openapi", .text "3.0.0"),
    ("paths", Tree.object [("/a", Tree.object [("get", Reference.asTree "bar.json#/op")])])]

/-- A reference in the place of an operation, where inlining takes none, stays as it is. -/
theorem not_closed_sampleOperation :
    Regular sampleLibrary sampleOperation ∧
      inlineReferences sampleLibrary samplePlace sampleOperation = .ok sampleOperation ∧
        Spot.document.visit? sampleOperation
            [.key (.text "paths"), .key (.text "/a"), .key (.text "get")] =
          some (.visited .operation, Reference.asTree "bar.json#/op") ∧
          ¬ Closed sampleOperation "bar.json#/op" := by
  refine ⟨⟨?_, ?_, ?_, fun x hx => ?_, fun name x hx => ?_⟩, eq_ok_of_toOption (by decide +kernel),
    by decide +kernel, ?_⟩
  · exact plain_get (by simp [sampleLibrary, Scalar.anchor])
  · simp [sampleOperation, Scalar.anchor]
  · simp [sampleOperation, List.lookup_cons]
  · rw [sampleOperation, get?_object] at hx
    cases hx
  · rw [schemaOf, sampleOperation, get?_object] at hx
    cases hx
  · rintro ⟨pointer, -, h, -⟩
    have h := congrArg String.toList h
    simp at h

end ApiContract.Inline
