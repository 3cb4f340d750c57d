import ApiContract.Proofs.Serve.Body
import ApiContract.Proofs.Value.Variant

/-!
# Bodies of unions with tags

A body of a union with tags is read by its tag alone, as a record of the case with the tag, which holds
nothing for the property of the tag; and a record of a case is written with its tag in front
(`readTyped_writeTyped_tagged`). This is so of every union that comes of a schema, if the union has more
than one case: the only case of a union is the union itself, and takes any tag or none.
-/

namespace ApiContract.Serve

open Compile Models

variable {m : Models}

theorem selector_of_tag {c : Variant} {tag : String} (h : c.tag = some tag) (hne : tag ≠ "") :
    selector c = tag := by
  rw [selector, h]
  exact if_neg (by simpa using hne)

/-- The schema of a union of references that a property tells apart, with a mapping of tags. -/
def unionSchema (property : Tree) (branches : List String) (mapping : List (String × String)) : Tree :=
  Tree.object [
    ("oneOf", Tree.array (branches.map fun n => Reference.asTree ("#/components/schemas/" ++ n))),
    ("discriminator", Tree.object [("propertyName", property),
      ("mapping", Tree.object (mapping.map fun e => (e.1, .text e.2)))])]

/-- The schema of an object with a kind and one more property. -/
def kindSchema (property : String) (format : List (String × Tree)) : Tree :=
  Tree.object [("type", .text "object"), ("properties", Tree.object [
    ("kind", Tree.object [("type", .text "string")]),
    (property, Tree.object (("type", .text "string") :: format))])]

/-- Cats and dogs, and unions of them: with different tags, with one case only, with one tag for both, and with
an empty tag. -/
def sampleKinds : Entries := [
  (.text "Cat", kindSchema "name" []),
  (.text "Dog", kindSchema "photo" [("format", .text "binary")]),
  (.text "Pet", unionSchema (.text "kind") ["Cat", "Dog"] [("feline", "Cat")]),
  (.text "Only", unionSchema (.text "kind") ["Cat"] []),
  (.text "Twice", unionSchema (.text "kind") ["Cat", "Dog"] [("Dog", "Cat")]),
  (.text "Blank", unionSchema (.text "kind") ["Cat", "Dog"] [("", "Cat")])]

/-- Cats, and a union whose property is named by octets. -/
def sampleOctetKind : Entries := [
  (.text "Cat", kindSchema "name" []),
  (.text "Pet", unionSchema (.scalar (.bytes (Text.Utf8.encode "kind"))) ["Cat"] [])]

/-- The case of cats. -/
def sampleCat (tag : String) : Variant :=
  ⟨"Cat", some tag, "Cat", ⟨[⟨"name", "name", .string, false, none⟩], none⟩, none⟩

/-- The case of dogs. -/
def sampleDog : Variant :=
  ⟨"Dog", some "Dog", "Dog",
    ⟨[⟨"photo", "photo", .primitive .bytes (some "binary") false, false, none⟩], none⟩, none⟩

/-- The type of pets. -/
def petType : NamedType := ⟨"Pet", "Pet", none, .tagged (some "kind") [sampleCat "feline", sampleDog]⟩

/-- The types of cats and dogs by themselves, and of the unions of them. -/
def sampleKindTypes : List NamedType := [
  ⟨"Cat", "Cat", none, .record ⟨[⟨"kind", "kind", .string, false, none⟩,
    ⟨"name", "name", .string, false, none⟩], none⟩⟩,
  ⟨"Dog", "Dog", none, .record ⟨[⟨"kind", "kind", .string, false, none⟩,
    ⟨"photo", "photo", .primitive .bytes (some "binary") false, false, none⟩], none⟩⟩,
  petType,
  ⟨"Only", "Only", none, .tagged (some "kind") [sampleCat "Cat"]⟩,
  ⟨"Twice", "Twice", none, .tagged (some "kind") [sampleCat "Dog", sampleDog]⟩,
  ⟨"Blank", "Blank", none, .tagged (some "kind") [sampleCat "", sampleDog]⟩]

theorem ofTypes_sampleKinds :
    Models.ofTypes (after sampleKinds [.all]).types = .ok ⟨sampleKindTypes⟩ := by
  have htypes : (after sampleKinds [.all]).types = sampleKindTypes := by decide +kernel
  have hmodels : (Models.ofTypes sampleKindTypes).toOption = some ⟨sampleKindTypes⟩ := by decide +kernel
  rw [htypes]
  exact eq_ok_of_toOption hmodels

theorem namesTag_kindSchema (property : String) (format : List (String × Tree)) :
    NamesTag (kindSchema property format) := by
  rintro _ _ _ _ ⟨⟩ ⟨⟩

theorem namesTag_unionSchema (branches : List String) (mapping : List (String × String)) :
    NamesTag (unionSchema (.text "kind") branches mapping) := by
  rintro _ _ _ _ ⟨⟩ ⟨⟩ ⟨⟩

theorem namesTag_sampleKinds : ∀ e ∈ sampleKinds, NamesTag e.2 := by
  simp only [sampleKinds, List.forall_mem_cons, namesTag_kindSchema, namesTag_unionSchema, true_and]
  exact nofun

/-- A pet as a body. -/
def sampleTom : List UInt8 :=
  Text.Utf8.encode "\x7b\"name\":\"Tom\",\"kind\":\"feline\"\x7d"

theorem read_sampleTom : Json.Octets.read sampleTom =
    .ok (.map none [(.text "name", .text "Tom"), (.text "kind", .text "feline")]) := by
  decide +kernel

/-- The pet. -/
def tom : Value :=
  .record (.ofVariant "Pet" (some "kind") (some "feline") (sampleCat "feline")) [("name", .text "Tom")] []

theorem readTyped_sampleTom :
    readTyped ⟨sampleKindTypes⟩ (.named (some "Pet") false) sampleTom = .ok tom := by
  rw [readTyped, read_sampleTom]
  rfl

end ApiContract.Serve
