import ApiContract.Proofs.Naming.Position
import ApiContract.Proofs.Record

/-!
# Operations of a named description

Operations are collected from wherever references lead, while naming goes through fixed parts of a
description. `Covered u`: naming goes through all that is put in place of a reference.

* `tidy_of_collect`: in the operations of a covered description nothing that needs a name stands inline
  (`Tidy`).
-/

namespace ApiContract.Operation

open Tree Naming Walk

/-- The kinds of object whose references are followed. -/
def followed : List Kind := [.pathItem, .parameter, .requestBody, .response]

/-- Naming goes through all that the operations of a description are made of. -/
structure Covered (u : Tree) : Prop where
  /-- What is put in place of a reference is gone through as an object of that kind. -/
  placed : ∀ p ∈ positions u .document, ∀ kind ∈ followed, p.1 = .object kind →
    ∀ x ∈ (Reference.dereference u p.2).toOption, (p.1, x) ∈ positions u .document
  /-- No key that is not a text is read as one. -/
  keys : ∀ p ∈ positions u .document, p.1 = .object .parameter ∨ p.1 = .object .requestBody →
    ∀ es ∈ p.2.entries?, ∀ e ∈ es, ∀ s ∈ (Record.key e.1).toOption, e.1 = .text s
  /-- Parameters are given in a list. -/
  lists : ∀ p ∈ positions u .document, p.1 = .object (.listOf .parameter) →
    ∀ ts ∈ (Compile.iterate p.2).toOption, p.2.isList = true ∨ ∀ x ∈ ts, x.isMap = false

/-- Nothing that needs a name stands inline in an operation. -/
structure Tidy (o : Operation) : Prop where
  parameters : ∀ es ∈ o.parameters, ∀ x, es.get? "schema" = some x → Prepared .inline x
  requestBody : ∀ es, o.requestBody = some es → ∀ x, es.get? "content" = some x →
    Prepared (.object (.mapOf .mediaType)) x
  responses : ∀ e ∈ o.responses, ∀ x, e.2.get? "content" = some x →
    Prepared (.object (.mapOf .mediaType)) x

/-- What is put in place of a position: no reference, and an object only where naming goes through one. -/
structure Placed (u : Tree) (kind : Kind) (x : Tree) : Prop where
  position : x.isMap = true → (.object kind, x) ∈ positions u .document
  noReference : Reference.ofTree? x = none

variable {u t x : Tree} {kind : Kind} {a : Anchor} {es : Entries}

theorem ofTree?_dereference (h : Reference.dereference u t = .ok x) : Reference.ofTree? x = none := by
  unfold Reference.dereference at h
  split at h
  · obtain ⟨⟨_, target⟩, hr, h⟩ := bind_eq_ok.1 h
    cases h
    obtain ⟨⟨other, fragment⟩, -, hr⟩ := bind_eq_ok.1 hr
    dsimp only at hr
    split at hr
    · cases hr
    · obtain ⟨_, hw, hr⟩ := bind_eq_ok.1 hr
      cases hr
      exact (Reference.walk_eq_ok.1 hw).ofTree?_eq_none
  · cases h
    assumption

theorem Covered.dereference (hc : Covered u) (hk : kind ∈ followed)
    (hx : t.isMap = true → (.object kind, t) ∈ positions u .document)
    (h : Reference.dereference u t = .ok x) : Placed u kind x := by
  refine ⟨fun hm => ?_, ofTree?_dereference h⟩
  cases hr : Reference.ofTree? t with
  | none =>
    rw [Reference.dereference, hr] at h
    cases h
    exact hx hm
  | some r =>
    have ht : t.isMap = true := by
      cases t with
      | map => rfl
      | _ => cases hr
    exact hc.placed _ (hx ht) kind hk rfl x (by rw [h]; rfl)

/-- The parts of what is put in place are gone through. -/
theorem Placed.entry (h : Placed u kind (.map a es)) (hk : kind ∈ followed) {e : Scalar × Tree}
    (he : e ∈ es) : (Stand.along kind e.1, e.2) ∈ positions u .document := by
  have hr : Reference.isReference (.map a es) = false := by
    rw [Reference.isReference, h.noReference, Option.isSome_none]
  have hpos := h.position rfl
  simp only [followed, List.mem_cons, List.not_mem_nil, or_false] at hk
  rcases hk with rfl | rfl | rfl | rfl <;> exact position_entry hpos hr he

/-! ## Parameters -/

theorem Covered.parametersAt (hc : Covered u) {owner : Entries} {ps : List Tree}
    (howner : ∀ t, owner.get? "parameters" = some t →
      (.object (.listOf .parameter), t) ∈ positions u .document)
    (h : Operation.parametersAt u owner = .ok ps) : ∀ p ∈ ps, Placed u .parameter p := by
  unfold Operation.parametersAt at h
  split at h
  · cases h
    exact fun p hp => absurd hp List.not_mem_nil
  · rename_i t ht
    intro p hp
    obtain ⟨ts, hts, h⟩ := bind_eq_ok.1 h
    obtain ⟨x, hx, hd⟩ := mem_of_mapM h hp
    refine hc.dereference (by decide) (fun hm => ?_) hd
    have hpos := howner t ht
    rcases hc.lists _ hpos rfl ts (by rw [hts]; rfl) with hlist | hmaps
    · cases t with
      | list a items =>
        cases hts
        exact position_item hpos rfl hx
      | _ => cases hlist
    · cases (hmaps x hx).symm.trans hm

theorem mem_requirePath {fs : Entries} {e : Scalar × Tree} (h : e ∈ requirePath fs) :
    e = (.text "required", .bool true) ∨ e ∈ fs := by
  unfold requirePath at h
  split at h
  · exact Entries.mem_put h
  · exact .inr h

/-- The parameters of an operation are its own and those of its path item. -/
theorem mem_mergeParameters {shared own ps : List Tree} (h : mergeParameters shared own = .ok ps)
    (hp : .map a es ∈ ps) : ∃ b fs, (.map b fs ∈ shared ∨ .map b fs ∈ own) ∧ es = requirePath fs := by
  obtain ⟨_, -, h⟩ := bind_eq_ok.1 h
  obtain ⟨kept, hkept, h⟩ := bind_eq_ok.1 h
  cases h
  obtain ⟨q, hq, heq⟩ := List.mem_map.1 hp
  have hmem := (List.mem_append.1 hq).imp_left (mem_of_filterM hkept)
  cases q with
  | map b fs =>
    cases heq
    exact ⟨b, fs, hmem, rfl⟩
  | _ => cases heq

/-! ## Responses -/

theorem mem_responsesOf : ∀ {rs done out : Entries}, responsesOf u done rs = .ok out →
    ∀ e ∈ out, e ∈ done ∨ ∃ r ∈ rs, Reference.dereference u r.2 = .ok e.2
  | [], _, _, h, e, he => by
    cases h
    exact .inl he
  | (status, response) :: rs, done, out, h, e, he => by
    obtain ⟨x, hx, h⟩ := bind_eq_ok.1 h
    rcases mem_responsesOf h e he with he | ⟨r, hr, hd⟩
    · rcases Entries.mem_put he with rfl | he
      · exact .inr ⟨_, List.mem_cons_self, hx⟩
      · exact .inl he
    · exact .inr ⟨r, List.mem_cons_of_mem _ hr, hd⟩

theorem mem_of_entriesOf {key : String} {fs : Entries} (h : Compile.entriesOf es key = .ok fs)
    {e : Scalar × Tree} (he : e ∈ fs) : ∃ a, es.get? key = some (.map a fs) := by
  unfold Compile.entriesOf Entries.orNull at h
  dsimp only at h
  split at h
  · cases h
    exact absurd he List.not_mem_nil
  · cases hx : es.get? key with
    | none => rw [hx] at h; cases h
    | some x =>
      rw [hx] at h
      cases x with
      | map a fs' => cases h; exact ⟨a, rfl⟩
      | _ => cases h

/-! ## Operations -/

/-- What an operation holds is what has been found for it. -/
theorem Draft.check_eq_ok {d : Draft} {o : Operation} (h : d.check = .ok o) :
    Record.textOrNone d.id = .ok o.id ∧
      Record.listOf Record.map (.array d.parameters) = .ok o.parameters ∧
        Record.optional Record.map d.requestBody = .ok o.requestBody ∧
          Record.map d.responses = .ok o.responses := by
  obtain ⟨p, hp, h⟩ := bind_eq_ok.1 (Record.toFailure_eq_ok.1 h)
  cases h
  simp only [Record.both_eq_ok, Record.field_eq_ok] at hp
  exact ⟨hp.1.1.1, hp.2.1.2, hp.2.2.1, hp.2.2.2.1⟩

theorem Covered.key_eq (hc : Covered u) (hk : kind = .parameter ∨ kind = .requestBody)
    (hpos : (.object kind, .map a es) ∈ positions u .document) {e : Scalar × Tree} (he : e ∈ es)
    {s : String} (hs : Record.key e.1 = .ok s) : e.1 = .text s :=
  hc.keys _ hpos (hk.imp (congrArg _) (congrArg _)) es rfl e he s (by rw [hs]; rfl)

section

variable (hprep : Prepared .document u) (hc : Covered u)
include hprep

/-- The parts of what is put in place are prepared. -/
theorem Placed.prepared (h : Placed u kind (.map a es)) (hk : kind ∈ followed) {e : Scalar × Tree}
    (he : e ∈ es) : Prepared (Stand.along kind e.1) e.2 :=
  prepared_positions u hprep (h.entry hk he)

include hc

theorem Covered.parameter (hp : Placed u .parameter (.map a es)) {b : Anchor} {fs : Entries}
    (h : Record.map (.map b (requirePath es)) = .ok fs) (hx : fs.get? "schema" = some x) :
    Prepared .inline x := by
  obtain ⟨_, _, ⟨⟩, hfs⟩ := Record.mem_of_map h
  obtain ⟨⟨k, y⟩, hf, s, hs, heq⟩ := hfs _ (Entries.mem_of_at? hx)
  cases heq
  rcases mem_requirePath hf with heq | hf
  · obtain ⟨rfl, -⟩ := Prod.mk.inj heq
    exact absurd (Except.ok.inj hs) (by decide)
  · obtain rfl : k = .text "schema" := hc.key_eq (.inl rfl) (hp.position rfl) hf hs
    exact hp.prepared hprep (by decide) hf

theorem Covered.requestBody (hp : Placed u .requestBody t) {fs : Entries}
    (h : Record.map t = .ok fs) (hx : fs.get? "content" = some x) :
    Prepared (.object (.mapOf .mediaType)) x := by
  obtain ⟨a, es, rfl, hfs⟩ := Record.mem_of_map h
  obtain ⟨⟨k, y⟩, hf, s, hs, heq⟩ := hfs _ (Entries.mem_of_at? hx)
  cases heq
  obtain rfl : k = .text "content" := hc.key_eq (.inr rfl) (hp.position rfl) hf hs
  exact hp.prepared hprep (by decide) hf

/-- In an operation with an identifier that naming goes through, nothing that needs a name stands
inline. -/
theorem Covered.operation {path : Scalar} {method : Method} {shared : List Tree} {o : Operation}
    (hpos : (.object .operation, .map a es) ∈ positions u .document)
    (hshared : ∀ p ∈ shared, Placed u .parameter p)
    (h : ofEntries u path method shared es = .ok o) (hid : (o.id.getD "").isEmpty = false) :
    Tidy o := by
  obtain ⟨own, hown, h⟩ := bind_eq_ok.1 h
  obtain ⟨ps, hps, h⟩ := bind_eq_ok.1 h
  obtain ⟨body, hbody, h⟩ := bind_eq_ok.1 h
  obtain ⟨rs, hrs, h⟩ := bind_eq_ok.1 h
  obtain ⟨responses, hresponses, h⟩ := bind_eq_ok.1 h
  obtain ⟨tags, -, h⟩ := bind_eq_ok.1 h
  obtain ⟨hname, hparams, hreq, hresp⟩ := Draft.check_eq_ok h
  have hskip : Stand.skips (.object .operation) (.map a es) = false := by
    cases ht : (es.orNull "operationId").truthy with
    | true =>
      have hid : (Tree.map a es).getD "operationId" = es.orNull "operationId" := rfl
      simp [Stand.skips, Stand.lacksId, Tree.isMap, Tree.entries?, hid, ht]
    | false => cases (Record.isEmpty_of_textOrNone hname ht).symm.trans hid
  have hpart : ∀ e ∈ es, (Stand.along .operation e.1, e.2) ∈ positions u .document :=
    fun e he => position_entry hpos hskip he
  have hat : ∀ {key : String} {y : Tree}, es.get? key = some y →
      (Stand.along .operation (.text key), y) ∈ positions u .document :=
    fun hy => position_entry hpos hskip (Entries.mem_of_at? hy)
  refine ⟨fun fs hfs x hx => ?_, fun fs hfs x hx => ?_, fun e he x hx => ?_⟩
  · obtain ⟨p, hp, hmap⟩ := Record.mem_of_listOf hparams hfs
    obtain ⟨b, _, rfl, -⟩ := Record.mem_of_map hmap
    obtain ⟨c, qs, hq, rfl⟩ := mem_mergeParameters hps hp
    have hplaced := hq.elim (hshared _) (hc.parametersAt (fun _ => hat) hown _)
    exact hc.parameter hprep hplaced hmap hx
  · refine hc.requestBody hprep (hc.dereference (by decide) (fun hm => ?_) hbody)
      (Record.optional_eq_some (hfs ▸ hreq)) hx
    rw [Entries.orNull] at hm ⊢
    cases hy : es.get? "requestBody" with
    | none => rw [hy] at hm; cases hm
    | some y => exact hat hy
  · obtain ⟨_, _, ⟨⟩, hes⟩ := Record.mem_of_map hresp
    obtain ⟨f, hf, s, -, rfl⟩ := hes e he
    rcases mem_responsesOf hresponses f hf with hf | ⟨r, hr, hd⟩
    · exact absurd hf List.not_mem_nil
    obtain ⟨b, hrs⟩ := mem_of_entriesOf hrs hr
    have hplaced := hc.dereference (by decide) (fun _ => position_entry (hat hrs) rfl hr) hd
    cases hy : f.2 with
    | map c fs =>
      rw [hy] at hplaced hx
      exact hplaced.prepared hprep (by decide) (Entries.mem_of_at? hx)
    | _ => rw [hy] at hx; cases hx

/-- The operations of a path item. -/
theorem Covered.pathItem {path : Scalar} {os : List Operation}
    (hpos : t.isMap = true → (.object .pathItem, t) ∈ positions u .document)
    (h : ofPathItem u path t = .ok os) : ∀ o ∈ os, (o.id.getD "").isEmpty = false → Tidy o := by
  obtain ⟨item, hitem, h⟩ := bind_eq_ok.1 h
  have hplaced := hc.dereference (by decide) hpos hitem
  cases item with
  | map a es =>
    obtain ⟨shared, hshared, h⟩ := bind_eq_ok.1 h
    intro o ho hid
    obtain ⟨method, -, h⟩ := mem_of_filterMapM h ho
    have hat : ∀ {key : String} {y : Tree}, Entries.get? es key = some y →
        (Stand.along .pathItem (.text key), y) ∈ positions u .document :=
      fun hy => hplaced.entry (by decide) (Entries.mem_of_at? hy)
    cases hop : Entries.get? es method.key with
    | none => rw [hop] at h; cases h
    | some x =>
      have hx := hat hop
      rw [hop] at h
      cases x with
      | map b fs =>
        obtain ⟨o', ho', heq⟩ := bind_eq_ok.1 h
        cases heq
        have hoperation : (.object .operation, .map b fs) ∈ positions u .document := by
          cases method <;> exact hx
        exact hc.operation hprep hoperation (hc.parametersAt (fun _ => hat) hshared) ho' hid
      | _ => cases h
  | _ => cases h; exact fun o ho => absurd ho List.not_mem_nil

/-- In the operations of a covered description nothing that needs a name stands inline. -/
theorem tidy_of_collect {os : List Operation} (h : collect u = .ok os) :
    ∀ o ∈ os, (o.id.getD "").isEmpty = false → Tidy o := by
  intro o ho
  cases u with
  | map a es =>
    obtain ⟨paths, hpaths, h⟩ := bind_eq_ok.1 h
    obtain ⟨found, hfound, h⟩ := bind_eq_ok.1 h
    cases h
    obtain ⟨os, hos, ho⟩ := List.mem_flatten.1 (List.mem_mergeSort.1 ho)
    obtain ⟨e, he, hitem⟩ := mem_of_mapM hfound hos
    obtain ⟨b, hb⟩ := mem_of_entriesOf hpaths he
    refine hc.pathItem hprep (fun _ => ?_) hitem o ho
    have hroot := mem_positions_self (.map a es) .document
    exact position_entry (position_entry hroot rfl (Entries.mem_of_at? hb)) rfl he
  | _ => cases h

end

end ApiContract.Operation
