import ApiContract.Naming
import ApiContract.Document.Walk
import ApiContract.Proofs.Reference.Pointer

/-!
# What naming makes of a tree

`Stand` says as what a position of a description is gone through when its schemas are named.
`Names held st t t'`: naming may put `t'` where `t` stood. A schema that needs a name is moved into
the table of schemas and a reference takes its place (`moved`); everywhere else the parts are gone
through and the rest stays. What the table has under the names that were given is what `held` says.

`Prepared st t`: nothing that needs a name stands inline in `t`. It holds of all that naming makes
(`Names.prepared`).

* `Names.trans`: what naming makes of a tree, it may make of it in two runs as well.
* `Names.eq_of_prepared`: naming makes nothing of a schema that is prepared.
-/

namespace ApiContract.Naming

open Tree Walk

/-- As what a position is gone through. -/
inductive Stand where
  /-- The description. -/
  | document
  /-- An object of a kind. -/
  | object (kind : Kind)
  /-- A schema under a name of its own, or a part of a composition. -/
  | own
  /-- A schema in a place where only a type expression may stand. -/
  | inline
  | properties
  | alternatives
  | parts
  /-- What is not gone through. -/
  | rest
deriving DecidableEq

/-- Whether a schema needs a name. -/
def needsName (es : Entries) : Bool :=
  match Schema.kind es with
  | .ok .object => (es.orNull "properties").truthy || isClosed (es.orNull "additionalProperties")
  | .ok .oneOf | .ok .anyOf | .ok .allOf => true
  | .ok .array | .ok .any | .ok .not | .error _ => false
  | .ok _ => !(Schema.literals es).isEmpty

/-- A schema that naming goes through without a failure. -/
structure Fair (es : Entries) (k : SchemaKind) : Prop where
  noReference : Reference.ofEntries? es = none
  kind : Schema.kind es = .ok k
  ne_not : k ≠ .not
  trivial : k = .any → Schema.isTrivial es = .ok true

namespace Stand

/-- What the object at the end of an edge is gone through as. -/
def ofKind : Kind → Stand
  | .schema => .inline
  | kind => .object kind

/-- The keys that lead on from an object. -/
def edges : Kind → List (String × Kind)
  | .parameter => [("schema", .schema), ("content", .mapOf .mediaType)]
  | .requestBody => [("content", .mapOf .mediaType)]
  | .response => [("headers", .mapOf .parameter), ("content", .mapOf .mediaType)]
  | .mediaType => [("schema", .schema)]
  | .pathItem => ("parameters", .listOf .parameter) :: operationEdges
  | .operation =>
    [("parameters", .listOf .parameter), ("requestBody", .requestBody),
      ("responses", .mapOf .response)]
  | .components =>
    [("responses", .mapOf .response), ("parameters", .mapOf .parameter),
      ("requestBodies", .mapOf .requestBody), ("headers", .mapOf .parameter)]
  | _ => []

/-- Where a key leads from an object. -/
def along (kind : Kind) (key : Scalar) : Stand :=
  match key with
  | .text key => ((edges kind).lookup key).elim .rest ofKind
  | _ => .rest

/-- Where a key leads from a schema of a kind. -/
def within (kind : SchemaKind) (key : Scalar) : Stand :=
  match kind with
  | .object =>
    if key = .text "properties" then .properties
    else if key = .text "additionalProperties" then .inline
    else .rest
  | .array => if key = .text "items" then .inline else .rest
  | .oneOf => if key = .text "oneOf" then .alternatives else .rest
  | .anyOf => if key = .text "anyOf" then .alternatives else .rest
  | .allOf => if key = .text "allOf" then .parts else .rest
  | _ => .rest

/-- As what the value under a key is gone through. -/
def part (st : Stand) (es : Entries) (key : Scalar) : Stand :=
  match st with
  | .document =>
    if key = .text "components" then .object .components
    else if key = .text "paths" then .object (.mapOf .pathItem)
    else .rest
  | .object (.mapOf kind) => ofKind kind
  | .object kind => along kind key
  | .own | .inline =>
    match Schema.kind es with
    | .ok kind => within kind key
    | .error _ => .rest
  | .properties | .alternatives => .inline
  | _ => .rest

/-- As what the items of a list are gone through. -/
def item : Stand → Stand
  | .object (.listOf kind) => ofKind kind
  | .alternatives => .inline
  | .parts => .own
  | _ => .rest

/-- Whether a map may be gone through. -/
def Enters : Stand → Entries → Prop
  | .own, es => ∃ kind, Fair es kind
  | .inline, es => (∃ kind, Fair es kind) ∧ needsName es = false
  | .document, _ | .object _, _ | .properties, _ | .alternatives, _ => True
  | _, _ => False

/-- Whether a list may be gone through. -/
def EntersList : Stand → Prop
  | .object (.listOf _) | .alternatives | .parts => True
  | _ => False

/-- Whether an operation is left alone. -/
def lacksId (t : Tree) : Bool :=
  !(t.getD "operationId").truthy

/-- Whether a tree stays as it is. -/
def skips : Stand → Tree → Bool
  | .own, t | .inline, t => !t.isMap || Reference.isReference t
  | .document, t | .properties, t | .object (.mapOf _), t | .object .mediaType, t => !t.isMap
  | .object (.listOf _), t | .parts, t => !t.isList
  | .object .operation, t => !t.isMap || lacksId t
  | .object _, t => !t.isMap || Reference.isReference t
  | .alternatives, t => !t.isMap && !t.isList
  | .rest, _ => true

end Stand

/-- What naming may make of a tree, with a table that holds schemas under the given names. -/
inductive Names (held : String → Tree → Prop) : Stand → Tree → Tree → Prop
  | same {st t} (h : st.skips t = true) : Names held st t t
  | moved {a es t' name} (hn : Names held .own (.map a es) t')
      (hr : Reference.ofEntries? es = none) (hneeds : needsName es = true) (hheld : held name t') :
      Names held .inline (.map a es) (Reference.asTree (Reference.toSchema name))
  | map {st a es es'} (hst : st.Enters es) (hk : Entries.keys es' = Entries.keys es)
      (hes : ∀ k x x', Entries.at? k es = some x → Entries.at? k es' = some x' →
        Names held (st.part es k) x x') : Names held st (.map a es) (.map a es')
  | list {st a ts ts'} (hst : st.EntersList) (hl : ts'.length = ts.length)
      (hts : ∀ (i : Nat) (x x' : Tree), ts[i]? = some x → ts'[i]? = some x' →
        Names held st.item x x') : Names held st (.list a ts) (.list a ts')

/-- Nothing that needs a name stands inline. -/
inductive Prepared : Stand → Tree → Prop
  | skip {st t} (h : st.skips t = true) : Prepared st t
  | map {st a es} (hst : st.Enters es)
      (hes : ∀ e ∈ es, Prepared (st.part es e.1) e.2) : Prepared st (.map a es)
  | list {st a ts} (hst : st.EntersList) (hts : ∀ x ∈ ts, Prepared st.item x) :
      Prepared st (.list a ts)

theorem names_list {held : String → Tree → Prop} {st : Stand} {a : Anchor} {ts ts' : List Tree}
    (hst : st.EntersList) (h : List.Forall₂ (Names held st.item) ts ts') :
    Names held st (.list a ts) (.list a ts') := by
  refine .list hst h.length_eq.symm fun i x x' hx hx' => ?_
  obtain ⟨hi, rfl⟩ := List.getElem?_eq_some_iff.1 hx
  obtain ⟨hi', rfl⟩ := List.getElem?_eq_some_iff.1 hx'
  exact (List.forall₂_iff_get.1 h).2 i hi hi'

/-! ## What a schema keeps -/

variable {held held' : String → Tree → Prop} {st : Stand} {es es' : Entries} {t t' : Tree}

theorem Names.eq_of_rest (h : Names held .rest t t') : t' = t := by
  cases h with
  | same => rfl
  | map hst | list hst => exact hst.elim

theorem Stand.within_rest {kind : SchemaKind} {key : String}
    (h : key ∉ ["properties", "additionalProperties", "items", "oneOf", "anyOf", "allOf"]) :
    Stand.within kind (.text key) = .rest := by
  simp only [List.mem_cons, List.not_mem_nil, or_false, not_or] at h
  obtain ⟨h₁, h₂, h₃, h₄, h₅, h₆⟩ := h
  cases kind <;> simp [Stand.within, *]

/-- Entries whose keys stay and whose values stay under every key that leads nowhere. -/
structure Alike (es es' : Entries) : Prop where
  keys : es'.keys = es.keys
  rest : ∀ key, key ∉ ["properties", "additionalProperties", "items", "oneOf", "anyOf", "allOf"] →
    es'.get? key = es.get? key

theorem has_congr (hk : es'.keys = es.keys) (key : String) : es'.has key = es.has key := by
  rw [Bool.eq_iff_iff, Entries.has, Entries.has, Option.isSome_iff_ne_none,
    Option.isSome_iff_ne_none, Entries.get?_eq_at?, Entries.get?_eq_at?]
  exact not_congr (Entries.at?_eq_none_congr hk)

theorem isTrivial_congr :
    ∀ {es es' : Entries}, es'.keys = es.keys → Schema.isTrivial es' = Schema.isTrivial es
  | [], [], _ => rfl
  | [], _ :: _, h | _ :: _, [], h => by cases h
  | (k, t) :: es, (l, u) :: es', h => by
    obtain ⟨rfl, htail⟩ := List.cons.inj h
    cases l <;> simp only [Schema.isTrivial, isTrivial_congr htail]

theorem Alike.kind (h : Alike es es') : Schema.kind es' = Schema.kind es := by
  have htype : Schema.declaredKind es' = Schema.declaredKind es := by
    simp only [Schema.declaredKind, h.rest "type" (by decide)]
  simp only [Schema.kind, htype, has_congr h.keys]

theorem Alike.ofEntries? (h : Alike es es') :
    Reference.ofEntries? es' = Reference.ofEntries? es := by
  rw [Reference.ofEntries?, Reference.ofEntries?, h.rest "$ref" (by decide)]

theorem Alike.fair {k : SchemaKind} (h : Alike es es') (hf : Fair es k) : Fair es' k :=
  ⟨h.ofEntries?.trans hf.noReference, h.kind.trans hf.kind, hf.ne_not,
    fun hk => (isTrivial_congr h.keys).trans (hf.trivial hk)⟩

theorem Alike.part (h : Alike es es') (st : Stand) (k : Scalar) : st.part es' k = st.part es k := by
  cases st with
  | own | inline => simp only [Stand.part, h.kind]
  | object kind => cases kind <;> rfl
  | _ => rfl

/-- A schema whose parts are gone through keeps all else. -/
theorem alike_of_names {kind : SchemaKind} (hkind : Schema.kind es = .ok kind)
    (hst : st = .own ∨ st = .inline) (hk : es'.keys = es.keys)
    (hes : ∀ k x x', es.at? k = some x → es'.at? k = some x' → Names held (st.part es k) x x') :
    Alike es es' := by
  refine ⟨hk, fun key hkey => ?_⟩
  rw [Entries.get?_eq_at?, Entries.get?_eq_at?]
  cases hx : es.at? (.text key) with
  | none => exact (Entries.at?_eq_none_congr hk).2 hx
  | some x =>
    obtain ⟨x', hx'⟩ := Entries.exists_at?_of_keys_eq hk hx
    have hpart : st.part es (.text key) = .rest := by
      rcases hst with rfl | rfl <;> simp only [Stand.part, hkind, Stand.within_rest hkey]
    have hn := hes _ x x' hx hx'
    rw [hpart] at hn
    rw [hx', hn.eq_of_rest]

theorem isClosed_map (a : Anchor) (es : Entries) : isClosed (.map a es) = false := by
  simp [isClosed, Tree.same, para]

theorem Names.isClosed (h : Names held .inline t t') : isClosed t' = isClosed t := by
  cases h with
  | same => rfl
  | moved => rw [Reference.asTree, Tree.object, isClosed_map, isClosed_map]
  | map => rw [isClosed_map, isClosed_map]
  | list hst => exact hst.elim

theorem Names.isMap (h : Names held st t t') : t'.isMap = t.isMap := by
  cases h <;> rfl

theorem Names.isList (h : Names held st t t') : t'.isList = t.isList := by
  cases h <;> rfl

theorem Names.truthy (h : Names held st t t') : t'.truthy = t.truthy := by
  cases h with
  | same => rfl
  | @moved _ es _ _ _ _ hneeds =>
    cases es with
    | nil => cases hneeds
    | cons => rfl
  | @map _ _ es es' _ hk =>
    have hlen := congrArg List.length hk
    simp only [Entries.keys, List.length_map] at hlen
    cases es <;> cases es' <;> first | rfl | cases hlen
  | @list _ _ ts ts' _ hl => cases ts <;> cases ts' <;> first | rfl | cases hl

/-- A part that naming goes through, or `null` where there is none. -/
theorem orNull_congr (key : String) {P : Tree → Tree → Prop} (hk : es'.keys = es.keys)
    (hP : ∀ x x', es.at? (.text key) = some x → es'.at? (.text key) = some x' → P x x')
    (hnull : P .null .null) : P (es.orNull key) (es'.orNull key) := by
  rw [Entries.orNull, Entries.orNull, Entries.get?_eq_at?, Entries.get?_eq_at?]
  cases hx : es.at? (.text key) with
  | none =>
    rw [(Entries.at?_eq_none_congr hk).2 hx]
    exact hnull
  | some x =>
    obtain ⟨x', hx'⟩ := Entries.exists_at?_of_keys_eq hk hx
    rw [hx']
    exact hP x x' hx hx'

theorem needsName_congr {kind : SchemaKind} (hkind : Schema.kind es = .ok kind)
    (hst : st = .own ∨ st = .inline) (hk : es'.keys = es.keys)
    (hes : ∀ k x x', es.at? k = some x → es'.at? k = some x' → Names held (st.part es k) x x') :
    needsName es' = needsName es := by
  have halike := alike_of_names hkind hst hk hes
  have hliterals : Schema.literals es' = Schema.literals es := by
    simp only [Schema.literals, halike.rest "enum" (by decide), halike.rest "const" (by decide)]
  have hpart : ∀ k, st.part es k = Stand.within kind k := by
    intro k
    rcases hst with rfl | rfl <;> simp only [Stand.part, hkind]
  simp only [needsName, halike.kind, hkind]
  cases kind with
  | object =>
    have hprops := orNull_congr "properties" (P := fun x x' => x'.truthy = x.truthy) hk
      (fun x x' hx hx' => (hpart _ ▸ hes _ x x' hx hx' : Names _ .properties x x').truthy) rfl
    have hadd := orNull_congr "additionalProperties"
      (P := fun x x' => isClosed x' = isClosed x) hk
      (fun x x' hx hx' => (hpart _ ▸ hes _ x x' hx hx' : Names _ .inline x x').isClosed) rfl
    simp only [hprops, hadd]
  | _ => simp only [hliterals]

/-! ## Two runs -/

/-- A table that holds more. -/
theorem Names.mono (hheld : ∀ name x, held name x → held' name x) (h : Names held st t t') :
    Names held' st t t' := by
  induction h with
  | same h => exact .same h
  | moved _ hr hneeds hh ih => exact .moved ih hr hneeds (hheld _ _ hh)
  | map hst hk _ ih => exact .map hst hk ih
  | list hst hl _ ih => exact .list hst hl ih

/-- A reference in the place of a schema stays. -/
theorem Names.eq_of_reference {r : String} (h : Names held .inline (Reference.asTree r) t') :
    t' = Reference.asTree r := by
  have hr := Reference.ofTree?_asTree r
  cases h with
  | same => rfl
  | moved _ hn => cases hn.symm.trans hr
  | map hst =>
    obtain ⟨⟨_, hf⟩, -⟩ := hst
    cases hf.noReference.symm.trans hr

theorem Stand.Enters.fair {kind : SchemaKind} (hst : st = .own ∨ st = .inline) (h : st.Enters es)
    (hkind : Schema.kind es = .ok kind) : Fair es kind := by
  obtain ⟨k, hf⟩ : ∃ k, Fair es k := by
    rcases hst with rfl | rfl
    · exact h
    · exact h.1
  cases hf.kind.symm.trans hkind
  exact hf

/-- What is gone through as what stays so when naming goes through it. -/
theorem part_congr (hst : st.Enters es) (hk : es'.keys = es.keys)
    (hes : ∀ k x x', es.at? k = some x → es'.at? k = some x' → Names held (st.part es k) x x')
    (k : Scalar) : st.part es' k = st.part es k := by
  have hschema : (st = .own ∨ st = .inline) → (∃ kind, Fair es kind) →
      st.part es' k = st.part es k := by
    rintro hst ⟨kind, hf⟩
    exact (alike_of_names hf.kind hst hk hes).part st k
  cases st with
  | own => exact hschema (.inl rfl) hst
  | inline => exact hschema (.inr rfl) hst.1
  | object kind => cases kind <;> rfl
  | _ => rfl

/-- What naming makes of a tree, it may make of it in two runs as well. -/
theorem Names.trans {u : Tree} (h : Names held st t t') (h' : Names held st t' u) :
    Names held st t u := by
  induction h generalizing u with
  | same => exact h'
  | moved hn hr hneeds hf =>
    cases h'.eq_of_reference
    exact .moved hn hr hneeds hf
  | @map st a es es' hst hk hes ih =>
    cases h' with
    | same => exact .map hst hk hes
    | moved _ _ hneeds =>
      obtain ⟨⟨kind, hf⟩, hn⟩ := hst
      rw [needsName_congr hf.kind (.inr rfl) hk hes, hn] at hneeds
      cases hneeds
    | @map _ _ _ es'' _ hk' hes' =>
      refine .map hst (hk'.trans hk) fun k x x'' hx hx'' => ?_
      obtain ⟨x', hx'⟩ := Entries.exists_at?_of_keys_eq hk hx
      exact ih k x x' hx hx' (part_congr hst hk hes k ▸ hes' k x' x'' hx' hx'')
  | @list st a ts ts' hst hl hts ih =>
    cases h' with
    | same => exact .list hst hl hts
    | @list _ _ _ ts'' _ hl' hts' =>
      refine .list hst (hl'.trans hl) fun i x x'' hx hx'' => ?_
      obtain ⟨hi, -⟩ := List.getElem?_eq_some_iff.1 hx''
      have hx' := List.getElem?_eq_getElem (hl' ▸ hi : i < ts'.length)
      exact ih i x _ hx hx' (hts' i _ x'' hx' hx'')

/-! ## What comes out -/

/-- Plain trees become plain ones. -/
theorem Names.plain (h : Names held st t t') : Plain t → Plain t' := by
  induction h with
  | same => exact id
  | moved => exact fun _ => Reference.plain_asTree _
  | @map st a es es' _ hk _ ih =>
    intro hp
    obtain ⟨rfl, -, hpl⟩ := plain_map.1 hp
    refine Entries.plain_of_keys hp hk fun k x' hx' => ?_
    obtain ⟨x, hx⟩ := Entries.exists_at?_of_keys_eq hk.symm hx'
    exact ih k x x' hx hx' (hpl _ (Entries.mem_of_at? hx)).2
  | list _ hl _ ih =>
    intro hp
    obtain ⟨rfl, hpl⟩ := plain_list.1 hp
    refine plain_list.2 ⟨rfl, fun x' hx' => ?_⟩
    obtain ⟨i, hi, rfl⟩ := List.getElem_of_mem hx'
    exact ih i _ _ (List.getElem?_eq_getElem (hl ▸ hi)) (List.getElem?_eq_getElem hi)
      (hpl _ (List.getElem_mem (hl ▸ hi)))

/-- After naming, nothing that needs a name stands inline. -/
theorem Names.prepared (h : Names held st t t') : Plain t → Prepared st t' := by
  induction h with
  | same h => exact fun _ => .skip h
  | moved => exact fun _ => .skip (by simp [Stand.skips, Reference.isReference, Reference.ofTree?_asTree])
  | @map st a es es' hst hk hes ih =>
    intro hp
    obtain ⟨-, hd, hpl⟩ := plain_map.1 hp
    refine .map ?_ fun e he => ?_
    · cases st with
      | own =>
        obtain ⟨kind, hf⟩ := hst
        exact ⟨kind, (alike_of_names hf.kind (.inl rfl) hk hes).fair hf⟩
      | inline =>
        obtain ⟨⟨kind, hf⟩, hn⟩ := hst
        exact ⟨⟨kind, (alike_of_names hf.kind (.inr rfl) hk hes).fair hf⟩,
          (needsName_congr hf.kind (.inr rfl) hk hes).trans hn⟩
      | document | object | properties | alternatives => trivial
      | parts | rest => exact hst.elim
    · have hx' := Entries.at?_of_mem (hk ▸ hd.nodup : es'.keys.Nodup) he
      obtain ⟨x, hx⟩ := Entries.exists_at?_of_keys_eq hk.symm hx'
      exact part_congr hst hk hes e.1 ▸ ih e.1 x e.2 hx hx' (hpl _ (Entries.mem_of_at? hx)).2
  | list hst hl _ ih =>
    intro hp
    obtain ⟨-, hpl⟩ := plain_list.1 hp
    refine .list hst fun x' hx' => ?_
    obtain ⟨i, hi, rfl⟩ := List.getElem_of_mem hx'
    exact ih i _ _ (List.getElem?_eq_getElem (hl ▸ hi)) (List.getElem?_eq_getElem hi)
      (hpl _ (List.getElem_mem (hl ▸ hi)))

/-! ## Prepared schemas -/

/-- Whether a position is one in a schema. -/
def Stand.InSchema : Stand → Prop
  | .document | .object _ => False
  | _ => True

theorem Stand.InSchema.part (es : Entries) (k : Scalar) (h : st.InSchema) : (st.part es k).InSchema := by
  cases st with
  | document | object => exact h.elim
  | own | inline =>
    simp only [Stand.part]
    split
    · rename_i kind _
      cases kind <;> simp only [Stand.within] <;> (try split) <;> (try split) <;> trivial
    · trivial
  | _ => trivial

theorem Stand.InSchema.item (h : st.InSchema) : st.item.InSchema := by
  cases st with
  | document | object => exact h.elim
  | _ => trivial

/-- A map in a schema that is gone through is not skipped. -/
theorem Stand.Enters.not_skips {a : Anchor} (h : st.Enters es) (hst : st.InSchema) :
    st.skips (.map a es) = false := by
  cases st with
  | document | object => exact hst.elim
  | own =>
    obtain ⟨kind, hf⟩ := h
    simp [Stand.skips, Tree.isMap, Tree.entries?, Reference.isReference, Reference.ofTree?,
      hf.noReference]
  | inline =>
    obtain ⟨⟨kind, hf⟩, -⟩ := h
    simp [Stand.skips, Tree.isMap, Tree.entries?, Reference.isReference, Reference.ofTree?,
      hf.noReference]
  | properties | alternatives => rfl
  | parts | rest => exact h.elim

theorem Stand.EntersList.not_skips {a : Anchor} {ts : List Tree} (h : st.EntersList)
    (hst : st.InSchema) : st.skips (.list a ts) = false := by
  cases st with
  | document | object => exact hst.elim
  | alternatives | parts => rfl
  | _ => exact h.elim

theorem Prepared.item {a : Anchor} {ts : List Tree} {x : Tree} (h : Prepared st (.list a ts))
    (hs : st.skips (.list a ts) = false) (hx : x ∈ ts) : Prepared st.item x := by
  cases h with
  | skip h => cases h.symm.trans hs
  | list _ hts => exact hts x hx

theorem Prepared.entry {a : Anchor} (h : Prepared st (.map a es)) (hs : st.skips (.map a es) = false)
    {e : Scalar × Tree} (he : e ∈ es) : Prepared (st.part es e.1) e.2 := by
  cases h with
  | skip h => cases h.symm.trans hs
  | map _ hes => exact hes e he

/-- Naming makes nothing of a schema in which nothing that needs a name stands inline. -/
theorem Names.eq_of_prepared (h : Names held st t t') : st.InSchema → Plain t → Prepared st t → t' = t := by
  induction h with
  | same => exact fun _ _ _ => rfl
  | @moved a es _ _ _ hr hneeds =>
    intro _ _ hprep
    cases hprep with
    | skip hs =>
      have hs' : Stand.skips .inline (.map a es) = (Reference.ofEntries? es).isSome := rfl
      rw [hs', hr] at hs
      cases hs
    | map hst => cases hneeds.symm.trans hst.2
  | @map st a es es' hst hk _ ih =>
    intro hin hp hprep
    obtain ⟨-, hd, hpl⟩ := plain_map.1 hp
    refine congrArg _ (Entries.ext_at? hk hd.nodup fun k => ?_)
    cases hx : es.at? k with
    | none => exact (Entries.at?_eq_none_congr hk).2 hx
    | some x =>
      obtain ⟨x', hx'⟩ := Entries.exists_at?_of_keys_eq hk hx
      have hm := Entries.mem_of_at? hx
      rw [hx', ih k x x' hx hx' (hin.part es k) (hpl _ hm).2 (hprep.entry (hst.not_skips hin) hm)]
  | @list st a ts ts' hst hl _ ih =>
    intro hin hp hprep
    obtain ⟨-, hpl⟩ := plain_list.1 hp
    refine congrArg _ (List.ext_getElem hl fun i h' h => ?_)
    have hm := List.getElem_mem h
    exact ih i _ _ (List.getElem?_eq_getElem h) (List.getElem?_eq_getElem h') hin.item (hpl _ hm)
      (hprep.item (hst.not_skips hin) hm)

end ApiContract.Naming
