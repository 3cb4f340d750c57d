import ApiContract.Proofs.Models
import ApiContract.Proofs.Value.Fields
import ApiContract.Proofs.Value.RoundTrip
import ApiContract.Serve.Body

/-!
# Bodies of a type

A value is read as a property of a record exactly if it is read as a body of its own and nothing in it is
only the spelling of what its type asks for (`readTyped_property_iff`).

A body of a type that has been written as JSON is read as the value that it was written from
(`readBody_writeBody`), where the reader takes what has been written and no record in it leaves out a field
whose own name is a key that it is written with.
-/

namespace ApiContract.Serve

open Models

variable {m : Models} {types : List NamedType}

theorem readTyped_eq_ok {e : TypeExpr} {octets : List UInt8} {w : Value} :
    readTyped m e octets = .ok w ↔ e.Known m.types ∧
      ∃ t, Json.Octets.read octets = .ok t ∧ m.conform (.ofTree t) .text e = .ok w := by
  simp only [readTyped, bind_eq_ok, Record.mapError_eq_ok, ← ensureKnown_eq_ok]
  exact ⟨fun ⟨_, hk, h⟩ => ⟨hk, h⟩, fun ⟨hk, h⟩ => ⟨(), hk, h⟩⟩

/-- A pet with one property of a type. -/
def samplePet (e : TypeExpr) : NamedType :=
  ⟨"Pet", "Pet", none, .record ⟨[⟨"born", "born", e, true, none⟩], none⟩⟩

/-- A day as a body. -/
def sampleDay : List UInt8 := Text.Utf8.encode "\"2020-01-02\""

/-- A pet as a body. -/
def sampleObject : List UInt8 := Text.Utf8.encode "\x7b\"born\":\"2020-01-02\"\x7d"

theorem read_sampleDay : Json.Octets.read sampleDay = .ok (.text "2020-01-02") := by
  decide +kernel

theorem read_sampleObject :
    Json.Octets.read sampleObject = .ok (.map none [(.text "born", .text "2020-01-02")]) := by
  decide +kernel

/-- The day is all that there is to the pet. -/
theorem encloses_samplePet (e : TypeExpr) :
    Encloses ⟨[samplePet e]⟩ (.ofNamed "Pet" ⟨[⟨"born", "born", e, true, none⟩], none⟩)
      (Value.mergeKeys [("born", .text "2020-01-02")]) ⟨"born", "born", e, true, none⟩
      (.text "2020-01-02") where
  field := List.mem_cons_self
  required := rfl
  untagged := nofun
  value := rfl
  others := fun _ hg hne => absurd (List.mem_singleton.1 hg) hne
  extra := ⟨[], rfl⟩

theorem writeTyped_eq_ok {e : TypeExpr} {v : Value} {text : String} : writeTyped m e v = .ok text ↔
    e.Known m.types ∧ ∃ w, m.conform v .program e = .ok w ∧ w.jsonText? = some text := by
  simp only [writeTyped, bind_eq_ok, Record.mapError_eq_ok, ← ensureKnown_eq_ok]
  constructor
  · rintro ⟨_, hk, w, hw, htext⟩
    refine ⟨hk, w, hw, ?_⟩
    split at htext
    · rename_i h
      cases htext
      exact h
    · cases htext
  · rintro ⟨hk, w, hw, htext⟩
    exact ⟨(), hk, w, hw, by rw [htext]⟩

section
variable {plan : BodyPlan} {e : TypeExpr} (hformat : plan.format = .jsonTyped) (htype : plan.type = some e)
include hformat htype

theorem readBody_typed (octets : List UInt8) : readBody m plan octets = readTyped m e octets := by
  obtain ⟨mediaType, format, type⟩ := plan
  cases hformat
  cases htype
  rfl

theorem writeBody_typed (v : Value) : writeBody m plan v = .text <$> writeTyped m e v := by
  obtain ⟨mediaType, format, type⟩ := plan
  cases hformat
  cases htype
  rfl

end

/-- What a body of a type has been written from is read from it again. -/
theorem readBody_writeBody (hm : NamedType.Ordered m.types) {plan : BodyPlan} {e : TypeExpr} {v : Value}
    {text : String} (hformat : plan.format = .jsonTyped) (htype : plan.type = some e) (hv : Holds m e v)
    (hclear : v.Clear) (hfits : v.Fits Json.Octets.Reader.depthLimit)
    (hw : writeBody m plan v = .ok (.text text)) : readBody m plan (Text.Utf8.encode text) = .ok v := by
  have hwritten : writeTyped m e v = .ok text := by
    rw [writeBody_typed hformat htype] at hw
    obtain ⟨_, hwritten, h⟩ := map_eq_ok.1 hw
    cases h
    exact hwritten
  obtain ⟨hknown, w, hpass, htext⟩ := writeTyped_eq_ok.1 hwritten
  cases (hv.conform .program).symm.trans hpass
  obtain ⟨t, ht, htext⟩ := Option.bind_eq_some_iff.1 htext
  have hread : Json.Octets.read (Text.Utf8.encode text) = .ok t :=
    Json.Octets.read_encode (hv.readable hm hfits ht) htext
  have hagain : m.conform (.ofTree t) .text e = .ok v := hv.conform_flat hm hclear ⟨t, ht, rfl⟩ .text
  rw [readBody_typed hformat htype]
  exact readTyped_eq_ok.2 ⟨hknown, t, hread, hagain⟩

/-- A record of two texts, where the name of the first is the wire name of the second. -/
def pairBody : Body :=
  ⟨[⟨"a_b", "a-b", .string, false, none⟩, ⟨"a_b2", "a_b", .string, false, none⟩], none⟩

/-- The type of pairs. -/
def samplePairs : Models :=
  ⟨[⟨"Pair", "Pair", none, .record pairBody⟩]⟩

/-- A pair. -/
def samplePair (v w : Value) : Value :=
  .record (.ofNamed "Pair" pairBody) [("a_b", v), ("a_b2", w)] []

/-- Bodies that are pairs. -/
def pairPlan : BodyPlan :=
  ⟨"application/json", .jsonTyped, some (.named (some "Pair") false)⟩

theorem isName_a_b : Text.IsName "a_b" := by
  have hchars : "a_b".toList.all Text.isNameChar = true := by decide
  exact ⟨⟨'a', ['_', 'b'], rfl, rfl⟩, List.all_eq_true.1 hchars, rfl⟩

theorem ordered_samplePairs : NamedType.Ordered samplePairs.types := by
  refine .snoc .nil ⟨fun b hb => ?_, List.nodup_nil⟩ List.not_mem_nil
  obtain rfl := List.mem_singleton.1 hb
  refine ⟨?_, ?_, by decide, by decide⟩
  · rintro e he
    obtain rfl : e = .string := by simpa [Body.types, pairBody] using he
    exact TypeExpr.known_primitive .string none false
  · intro f hf
    rcases List.mem_pair.1 hf with rfl | rfl
    · exact isName_a_b
    · exact isName_a_b.number 2

theorem holds_samplePair {v w : Value} (hv : Holds samplePairs (orAbsent .string) v)
    (hw : Holds samplePairs (orAbsent .string) w) :
    Holds samplePairs (.named (some "Pair") false) (samplePair v w) := by
  have hfind : samplePairs.find? "Pair" = some ⟨"Pair", "Pair", none, .record pairBody⟩ := rfl
  refine .record hfind rfl rfl (fun f hf v' hv' => ?_) List.nodup_nil nofun (fun _ => rfl) nofun
  rcases List.mem_pair.1 hf with rfl | rfl <;> cases hv'
  · exact hv
  · exact hw

theorem readBody_samplePair :
    readBody samplePairs pairPlan (Text.Utf8.encode "\x7b\"a-b\":\"x\"\x7d") =
      .ok (samplePair (.text "x") .null) := by
  have hparts {P : Value → Prop} (hx : P (.text "x")) (hnull : P .null) :
      ∀ e ∈ [("a_b", Value.text "x"), ("a_b2", .null)], P e.2 := by
    simpa using ⟨hx, hnull⟩
  have hclear : Value.Clear (samplePair (.text "x") .null) := by
    refine .record ⟨fun f hf habsent g hg hpresent => ?_, fun _ _ _ => List.not_mem_nil⟩
      (hparts (.scalar _) (.scalar _)) nofun
    rcases List.mem_pair.1 hf with rfl | rfl
    · cases habsent.2
    · rcases List.mem_pair.1 hg with rfl | rfl <;> decide
  have hfits : Value.Fits Json.Octets.Reader.depthLimit (samplePair (.text "x") .null) :=
    .record (fun _ => by decide) (hparts (.scalar nofun) (.scalar nofun)) nofun
  exact readBody_writeBody ordered_samplePairs rfl rfl (holds_samplePair (.string "x") (.null rfl))
    hclear hfits rfl

/-- A pair without its first text is read from what it is written as with both. -/
theorem readBody_samplePair_ne :
    Holds samplePairs (.named (some "Pair") false) (samplePair .null (.text "x")) ∧
    writeBody samplePairs pairPlan (samplePair .null (.text "x")) =
      .ok (.text "\x7b\"a_b\":\"x\"\x7d") ∧
    readBody samplePairs pairPlan (Text.Utf8.encode "\x7b\"a_b\":\"x\"\x7d") =
      .ok (samplePair (.text "x") (.text "x")) ∧
    samplePair (.text "x") (.text "x") ≠ samplePair .null (.text "x") := by
  refine ⟨holds_samplePair (.null rfl) (.string "x"), rfl, ?_, nofun⟩
  have hread : Json.Octets.read (Text.Utf8.encode "\x7b\"a_b\":\"x\"\x7d") =
      .ok (.map none [(.text "a_b", .text "x")]) := by decide +kernel
  rw [readBody_typed rfl rfl, readTyped, hread]
  rfl

end ApiContract.Serve
