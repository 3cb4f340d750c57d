import ApiContract.Proofs.Serve.Body
import ApiContract.Proofs.Value.Variant

/-!
# Bodies of unions without tags

A record of a case of a union without tags is written, and is read again as what it was
(`readTyped_writeTyped_untagged`), if compiling the table has given no notice that cases of the union overlap:
each earlier case then requires fields that the record's own case does not have. The notice says nothing about
further entries, nor about the names under which fields may stand as well as under their wire names, so that
for one of these fields the record must not be written with a key that is one or the other.
-/

namespace ApiContract.Serve

open Compile Models

variable {m : Models}

/-- A case without a tag is read again from what it has been written as, unless what it is written with has keys
for all that an earlier case requires. -/
theorem readTyped_writeTyped_untagged {table : Entries} {types : List NamedType} {s : State}
    (hall : all table .start = (.ok types, s)) (hm : Models.ofTypes types = .ok m) {name : String}
    {t : NamedType} (ht : m.find? name = some t) {before rest : List Variant} {c : Variant}
    (hshape : t.shape = .untagged (before ++ c :: rest))
    (hquiet : ∀ u u', .overlap name u u' ∉ s.notices) {fields extra : List (String × Value)}
    (hv : HoldsRecord m c.body fields extra)
    (hclear : (Value.record (.ofVariant name none none c) fields extra).Clear)
    (hfits : (Value.record (.ofVariant name none none c) fields extra).Fits Json.Octets.Reader.depthLimit)
    (hapart : ∀ u ∈ before, ∀ f, c.Lacks u f → ∃ g, c.Lacks u g ∧ g.wireName ∉ extra.map (·.1) ∧
      g.name ∉ (Value.sent (.ofVariant name none none c) fields extra).map (·.1))
    (nullable : Bool) :
    ∃ text,
      writeTyped m (.named (some name) nullable) (.record (.ofVariant name none none c) fields extra) =
        .ok text ∧
      readTyped m (.named (some name) nullable) (Text.Utf8.encode text) =
        .ok (.record (.ofVariant name none none c) fields extra) := by
  obtain ⟨hmem, rfl⟩ := of_find?_eq_some ht
  have hc : c ∈ before ++ c :: rest := List.mem_append_right _ List.mem_cons_self
  have htypes : m.types = types := types_of_ofTypes hm
  obtain ⟨hgood, rfl, -⟩ := all_run hall
  have hordered : NamedType.Ordered m.types := htypes ▸ hgood.ordered
  have hb : c.body.Sound m.types := sound_of_untagged hordered ht hshape hc
  have hknown : (TypeExpr.named (some t.name) nullable).Known m.types := by
    rintro _ ⟨⟩
    exact List.mem_map_of_mem hmem
  have hwritable : (Value.record (.ofVariant t.name none none c) fields extra).Writable := hv.writable
  obtain ⟨tree, hwire, text, htext⟩ := Value.writable_iff.1 hwritable
  have hpass : m.conform (.record (.ofVariant t.name none none c) fields extra) .program
      (.named (some t.name) nullable) = .ok (.record (.ofVariant t.name none none c) fields extra) := by
    rw [conform_record, conformLeaf_named ht, conformNamed_untagged_eq_ok hshape]
    exact conformFirst_record hc
  refine ⟨text, writeTyped_eq_ok.2 ⟨hknown, _, hpass, ?_⟩, readTyped_eq_ok.2 ⟨hknown, tree, ?_, ?_⟩⟩
  · rw [Value.jsonText?, hwire]
    exact htext
  · exact Json.Octets.read_encode (hv.readable hordered hb rfl hfits hwire) htext
  · obtain ⟨ws, hws, hkeys, hmerged, hparts⟩ := hv.exists_parts hordered hb rfl hclear ⟨tree, hwire, rfl⟩
    rw [← hws, conform_map_named ht, hmerged, conformNamed_untagged_eq_ok hshape]
    refine conformFirst_of_refused (fun u hu w => ?_) hparts
    -- There is no notice of the earlier case, so that it requires a field that this one does not have.
    obtain ⟨f, hf⟩ := exists_lacks_of_all hall (htypes ▸ hmem) hquiet hshape hu
    obtain ⟨g, hg, hentry, hname⟩ := hapart u hu f hf
    have hwireName : g.wireName ∉ ws.map (·.1) := hkeys ▸ Value.notMem_sent hg.missing hentry
    have hfield : g ∈ (RecordType.ofVariant t.name none none u).body.fields := hg.mem
    exact conformParts_ne_of_missing rfl hfield hg.required hwireName (hkeys ▸ hname) w

/-! ## Shapes -/

/-- The schema of an object with one text, and of what else it may have. -/
def textSchema (property : String) (required : List String) (more : List (String × Tree)) : Tree :=
  Tree.object ([("type", .text "object"), ("required", Tree.array (required.map Tree.text)),
    ("properties", Tree.object [(property, Tree.object [("type", .text "string")])])] ++ more)

/-- The schema of a union of references. -/
def choiceSchema (branches : List String) : Tree :=
  Tree.object [("oneOf", Tree.array (branches.map fun n => Reference.asTree ("#/components/schemas/" ++ n)))]

/-- Two unions whose cases have different properties. A later case has further entries, or a property that is
the name of the earlier one's. -/
def sampleShapes : Entries := [
  (.text "Named", textSchema "a" ["a"] []),
  (.text "Open", textSchema "b" [] [("additionalProperties", Tree.object [("type", .text "string")])]),
  (.text "Dashed", textSchema "a-b" ["a-b"] []),
  (.text "Scored", textSchema "a_b" [] []),
  (.text "Shape", choiceSchema ["Named", "Open"]),
  (.text "Line", choiceSchema ["Dashed", "Scored"])]

/-- A case with one text. -/
def textCase (name field property : String) (required : Bool) (extra : Option TypeExpr) : Variant :=
  ⟨name, none, name, ⟨[⟨field, property, .string, required, none⟩], extra⟩, none⟩

/-- An earlier case. -/
def namedCase : Variant := textCase "Named" "a" "a" true none

/-- A later case with further entries. -/
def openCase : Variant := textCase "Open" "b" "b" false (some .string)

/-- An earlier case whose field has another name than its property. -/
def dashedCase : Variant := textCase "Dashed" "a_b" "a-b" true none

/-- A later case whose property is that name. -/
def scoredCase : Variant := textCase "Scored" "a_b" "a_b" false none

/-- The types of the objects by themselves, and of the unions. -/
def sampleShapeTypes : List NamedType := [
  ⟨"Named", "Named", none, .record namedCase.body⟩, ⟨"Open", "Open", none, .record openCase.body⟩,
  ⟨"Dashed", "Dashed", none, .record dashedCase.body⟩, ⟨"Scored", "Scored", none, .record scoredCase.body⟩,
  ⟨"Shape", "Shape", none, .untagged [namedCase, openCase]⟩,
  ⟨"Line", "Line", none, .untagged [dashedCase, scoredCase]⟩]

theorem all_sampleShapes : (all sampleShapes .start).1.toOption = some sampleShapeTypes ∧
    (all sampleShapes .start).2.notices = [] := by
  constructor <;> decide +kernel

theorem ofTypes_sampleShapes : Models.ofTypes sampleShapeTypes = .ok ⟨sampleShapeTypes⟩ := by
  have hmodels : (Models.ofTypes sampleShapeTypes).toOption = some ⟨sampleShapeTypes⟩ := by decide +kernel
  exact eq_ok_of_toOption hmodels

/-- A shape of the later case. -/
def openShape (b : Value) (extra : List (String × Value)) : Value :=
  .record (.ofVariant "Shape" none none openCase) [("b", b)] extra

theorem holdsRecord_openShape {b : Value} {key s : String} (hb : Holds ⟨sampleShapeTypes⟩ (orAbsent .string) b)
    (hkey : key ≠ "b") : HoldsRecord ⟨sampleShapeTypes⟩ openCase.body [("b", b)] [(key, .text s)] where
  names := rfl
  fields f hf v hv := by
    obtain rfl := List.mem_singleton.1 hf
    cases hv
    exact hb
  keys := List.nodup_singleton key
  free := List.forall_mem_singleton.2 fun h => hkey (List.mem_singleton.1 h)
  closed := nofun
  entries type ht := by
    cases ht
    exact List.forall_mem_singleton.2 (.string s)

/-- A shape with a further entry is read again. -/
theorem readTyped_writeTyped_sampleShape : ∃ text,
    writeTyped ⟨sampleShapeTypes⟩ (.named (some "Shape") false)
      (openShape (.text "x") [("c", .text "y")]) = .ok text ∧
    readTyped ⟨sampleShapeTypes⟩ (.named (some "Shape") false) (Text.Utf8.encode text) =
      .ok (openShape (.text "x") [("c", .text "y")]) := by
  have hrun := eq_ok_of_toOption_fst all_sampleShapes.1
  have hfind : (⟨sampleShapeTypes⟩ : Models).find? "Shape" =
      some ⟨"Shape", "Shape", none, .untagged ([namedCase] ++ openCase :: [])⟩ := rfl
  have hquiet : ∀ u u', .overlap "Shape" u u' ∉ (all sampleShapes .start).2.notices := by
    rw [all_sampleShapes.2]
    exact fun _ _ => List.not_mem_nil
  have hclear : Value.Clear (openShape (.text "x") [("c", .text "y")]) := by
    refine .record ⟨fun f hf habsent => ?_, fun f hf habsent => ?_⟩
      (List.forall_mem_singleton.2 (.scalar _)) (List.forall_mem_singleton.2 (.scalar _)) <;>
      obtain rfl := List.mem_singleton.1 hf <;> cases habsent.2
  have hfits : Value.Fits Json.Octets.Reader.depthLimit (openShape (.text "x") [("c", .text "y")]) :=
    .record (fun _ => by decide) (List.forall_mem_singleton.2 (.scalar nofun))
      (List.forall_mem_singleton.2 (.scalar nofun))
  refine readTyped_writeTyped_untagged hrun ofTypes_sampleShapes hfind rfl hquiet
    (holdsRecord_openShape (.string "x") (by decide)) hclear hfits (fun u hu f hf => ⟨f, hf, ?_⟩) false
  obtain rfl := List.mem_singleton.1 hu
  obtain rfl := List.mem_singleton.1 hf.mem
  exact ⟨by decide, by decide +kernel⟩

/-- Nothing is noted of the unions, but a shape whose further entry has the key of the earlier case is read as
that case, and so is a line whose key is the name of the earlier case's field. -/
theorem readTyped_sampleShapes_ne :
    (all sampleShapes .start).1.toOption = some sampleShapeTypes ∧
    (all sampleShapes .start).2.notices = [] ∧
    HoldsRecord ⟨sampleShapeTypes⟩ openCase.body [("b", .null)] [("a", .text "x")] ∧
    writeTyped ⟨sampleShapeTypes⟩ (.named (some "Shape") false) (openShape .null [("a", .text "x")]) =
      .ok "\x7b\"a\":\"x\"\x7d" ∧
    readTyped ⟨sampleShapeTypes⟩ (.named (some "Shape") false)
        (Text.Utf8.encode "\x7b\"a\":\"x\"\x7d") =
      .ok (.record (.ofVariant "Shape" none none namedCase) [("a", .text "x")] []) ∧
    writeTyped ⟨sampleShapeTypes⟩ (.named (some "Line") false)
        (.record (.ofVariant "Line" none none scoredCase) [("a_b", .text "x")] []) =
      .ok "\x7b\"a_b\":\"x\"\x7d" ∧
    readTyped ⟨sampleShapeTypes⟩ (.named (some "Line") false)
        (Text.Utf8.encode "\x7b\"a_b\":\"x\"\x7d") =
      .ok (.record (.ofVariant "Line" none none dashedCase) [("a_b", .text "x")] []) := by
  have hshape : Json.Octets.read (Text.Utf8.encode "\x7b\"a\":\"x\"\x7d") =
      .ok (.map none [(.text "a", .text "x")]) := by decide +kernel
  have hline : Json.Octets.read (Text.Utf8.encode "\x7b\"a_b\":\"x\"\x7d") =
      .ok (.map none [(.text "a_b", .text "x")]) := by decide +kernel
  refine ⟨all_sampleShapes.1, all_sampleShapes.2, holdsRecord_openShape (.null rfl) (by decide), rfl, ?_, rfl, ?_⟩
  · rw [readTyped, hshape]
    rfl
  · rw [readTyped, hline]
    rfl

end ApiContract.Serve
