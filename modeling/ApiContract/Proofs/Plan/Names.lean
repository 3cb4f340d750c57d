import ApiContract.Proofs.Compile.Dependencies
import ApiContract.Proofs.Compile.Merged
import ApiContract.Proofs.Compile.Origin
import ApiContract.Proofs.Interface
import ApiContract.Proofs.Plan.Parameter
import ApiContract.Proofs.Text.Legal
import ApiContract.Scaffold

/-!
# Names in generated code

The fields of a record, the members of an enumeration and the arguments of an operation have the names that
are made of their wire names, literals and parameters alone (`names_of_body`, `names_of_enumeration`,
`ParameterPlan.names_all`). So they are legal, all different and off the names that are to be avoided, whatever
the document says (`generated_names_legal`).

Types and the variants of a union are called after their schemas (`Compilation.called_of_ofSource`). These names
keep off no keywords, so that they are legal just where no schema spells `none`, `true` or `false`
(`Compilation.class_names_legal_iff`); a scaffold assigns to such a name too (`class_names_keyword`).
-/

namespace ApiContract

open Text (IsLegal IsWord LegalNames SpellsConstant typeIdentifier variantNames)

namespace Compile

section

variable {σ : Type} {table : Entries} {typeOf : Tree → RunOn σ TypeExpr} {s s' : σ}
  {name schemaName : String}

/-- The fields of a record have the names that are made of their wire names. -/
theorem names_of_body {owner : String} {objects : List Entries} {exclude : Tree} {b : Body}
    (h : body table typeOf owner objects exclude s = (.ok b, s')) :
    b.fields.map (·.name) = Text.fieldNames (b.fields.map (·.wireName)) := by
  obtain ⟨_, _, _, _, -, -, -, -, hfields, -⟩ := body_eq_ok_iff.1 h
  rw [hfields.names, Text.fieldNames, List.map_map, Function.comp_def]

/-- The members of an enumeration have the names that are made of their literals. -/
theorem names_of_enumeration {schema : Entries} {kind : SchemaKind} {t : NamedType}
    (h : enumeration name schemaName schema kind = .ok (some t)) :
    t.members.map (·.name) = Literal.memberNames (t.members.map (·.value)) := by
  obtain ⟨description, values, rfl⟩ := enumeration_eq_some h
  have hlength : (Literal.memberNames values).length = values.length := by
    rw [Literal.memberNames, Text.length_uniqueNames, List.length_map]
  dsimp only [NamedType.members]
  rw [List.map_map, List.map_map]
  have hvalues := List.map_snd_zip hlength.ge
  exact (List.map_fst_zip hlength.le).trans (congrArg Literal.memberNames hvalues.symm)

variable [Noting σ]

/-- The records of a type have been made of object schemas. -/
theorem body_of_schemaType {tree : Tree} {t : NamedType} {b : Body}
    (h : schemaType table typeOf name schemaName tree s = (.ok (some t), s')) (hb : b ∈ t.bodies) :
    ∃ owner objects exclude s s', body table typeOf owner objects exclude s = (.ok b, s') := by
  have hvariants : ∀ {union exclude s s'} {branches : List (Option String × String × Tree)}
      {vs : List Variant}, variantsFrom table typeOf union exclude [] branches s = (.ok vs, s') →
        b ∈ vs.map (·.body) → ∃ owner objects exclude s s',
          body table typeOf owner objects exclude s = (.ok b, s') := by
    intro union exclude s s' branches vs h hb
    obtain ⟨v, hv, rfl⟩ := List.mem_map.1 hb
    obtain ⟨_, -, -, -, objects, s₁, s₂, -, hbody⟩ := mem_of_forall₂_right (variantsFrom_eq_ok h) hv
    exact ⟨union, objects, exclude, s₁, s₂, hbody⟩
  obtain ⟨schema, m, -, hmakes, hm⟩ := makes_of_schemaType h
  unfold NamedType.bodies at hb
  rcases hmakes.cases_shape hm with ⟨_, objects, hshape, hrun, -⟩ | ⟨_, vs, _, _, hshape, -, hrun⟩ |
    ⟨vs, hshape, hrun⟩ | ⟨_, hshape⟩
  · obtain ⟨b', _, hbody, rfl⟩ := record_eq_ok hrun
    cases hshape
    obtain rfl := List.mem_singleton.1 hb
    exact ⟨name, objects, .null, s, s', hbody⟩
  · obtain ⟨_, _, _, _, _, _, -, -, -, -, hvs, rfl⟩ := taggedUnion_eq_ok hrun
    exact hvariants hvs hb
  · obtain ⟨_, _, _, _, hvs, -, rfl⟩ := untaggedUnion_eq_ok hrun
    exact hvariants hvs hb
  · rw [hshape] at hb
    exact absurd hb List.not_mem_nil

/-- The members of a type, if it has any, have the names that are made of their literals. -/
theorem names_of_members {tree : Tree} {t : NamedType}
    (h : schemaType table typeOf name schemaName tree s = (.ok (some t), s')) :
    t.members.map (·.name) = Literal.memberNames (t.members.map (·.value)) := by
  obtain ⟨schema, m, -, hmakes, hm⟩ := makes_of_schemaType h
  cases hmakes with
  | object =>
    obtain ⟨_, _, -, rfl⟩ := record_eq_ok hm
    rfl
  | composition =>
    obtain ⟨_, _, -, rfl⟩ := record_eq_ok hm
    rfl
  | tagged =>
    obtain ⟨_, _, _, _, _, _, -, -, -, -, -, rfl⟩ := taggedUnion_eq_ok hm
    rfl
  | untagged =>
    obtain ⟨_, _, _, _, -, -, rfl⟩ := untaggedUnion_eq_ok hm
    rfl
  | enumeration _ _ henumeration =>
    obtain ⟨rfl, -⟩ := pure_eq_ok.1 hm
    exact names_of_enumeration henumeration

end

end Compile

/-- Arguments have the names that are made of their parameters. -/
theorem ParameterPlan.names_all {table : Entries} {label : String} {parameters : List Tree}
    {ps : List ParameterPlan} {s s' : Compile.State}
    (h : all table label parameters s = (.ok ps, s')) :
    ps.map (·.argument) = Text.argumentNames (ps.map (·.name)) := by
  obtain ⟨plans, _, hplans, h⟩ := Compile.bind_eq_ok.1 h
  obtain ⟨rfl, -⟩ := Compile.pure_eq_ok.1 h
  have hmade : plans.map (·.argument) =
      (plans.map (·.name)).map fun name => Text.identifier name handlerArguments := by
    rw [List.map_map]
    refine List.map_congr_left fun p hp => ?_
    obtain ⟨t, -, _, _, hof⟩ := mem_of_forall₂_right (Compile.mapM_eq_ok hplans) hp
    obtain ⟨_, _, -, -, -, -, -, -, hargument⟩ := of_eq_ok hof
    exact hargument
  have hlength := Text.length_uniqueNames handlerArguments (plans.map (·.argument))
  rw [List.length_map] at hlength
  obtain ⟨harguments, hnames⟩ := map_zip hlength
  rw [harguments, hnames, Text.argumentNames, ← hmade]

/-- Names in generated code are legal and all different, whatever texts they are made of: those of the fields
of one record or variant, which keep off the attributes of every record, those of the arguments of one
operation, which keep off the arguments of every handler, and those of the members of one enumeration.
Attributes that start with an underscore are no words, so that no field is called like one of them either. -/
theorem generated_names_legal :
    (∀ wireNames, LegalNames Text.recordAttributes (Text.fieldNames wireNames)) ∧
    (∀ parameters, LegalNames ParameterPlan.handlerArguments (Text.argumentNames parameters)) ∧
    (∀ values, LegalNames [] (Literal.memberNames values)) ∧
    (∀ {σ : Type} [Compile.Noting σ] (table : Entries) (typeOf : Tree → Compile.RunOn σ TypeExpr)
      (name schemaName : String) (tree : Tree) (s s' : σ) (t : NamedType),
      Compile.schemaType table typeOf name schemaName tree s = (.ok (some t), s') →
        (∀ b ∈ t.bodies, b.fields.map (·.name) = Text.fieldNames (b.fields.map (·.wireName)) ∧
          LegalNames Text.recordAttributes (b.fields.map (·.name))) ∧
        t.members.map (·.name) = Literal.memberNames (t.members.map (·.value)) ∧
          LegalNames [] (t.members.map (·.name))) ∧
    ∀ (table : Entries) (label : String) (parameters : List Tree) (s s' : Compile.State)
      (ps : List ParameterPlan), ParameterPlan.all table label parameters s = (.ok ps, s') →
        ps.map (·.argument) = Text.argumentNames (ps.map (·.name)) ∧
          LegalNames ParameterPlan.handlerArguments (ps.map (·.argument)) := by
  refine ⟨Text.legalNames_fields, Text.legalNames_arguments, Text.legalNames_members, ?_, ?_⟩
  · intro σ _ table typeOf name schemaName tree s s' t h
    refine ⟨fun b hb => ?_, Compile.names_of_members h, ?_⟩
    · obtain ⟨_, _, _, _, _, hbody⟩ := Compile.body_of_schemaType h hb
      refine ⟨Compile.names_of_body hbody, ?_⟩
      rw [Compile.names_of_body hbody]
      exact Text.legalNames_fields _
    · rw [Compile.names_of_members h]
      exact Text.legalNames_members _
  · intro table label parameters s s' ps h
    rw [ParameterPlan.names_all h]
    exact ⟨rfl, Text.legalNames_arguments _⟩

/-- An object schema with properties that have to be renamed. -/
def sampleRenamed : Tree :=
  Tree.object [("type", .text "object"), ("properties",
    Tree.object (["class", "Class", "json", "model-x", "1st", "é", ""].map fun n =>
      (n, Tree.object [("type", .text "string")])))]

/-- An enumeration with literals that have to be renamed. -/
def sampleRenamedEnum : Tree :=
  Tree.object [("type", .text "string"),
    ("enum", Tree.array (["", "none", "None", "1", "é"].map Tree.text))]

/-- Parameters that have to be renamed. -/
def sampleRenamedParameters : List Tree :=
  ["self", "Self", "auth-ok", ""].map fun n =>
    Tree.object [("name", .text n), ("in", .text "query"), ("schema", Tree.object [("type", .text "string")])]

/-- Generated names of these. -/
def sampleNames : List String := ["class_", "class_2", "json_", "model_x_", "n_1_st", "value", "value2"]

theorem names_sampleRenamed :
    (∃ t s, Compile.schemaType [] (Compile.typeOf []) "Pet" "Pet" sampleRenamed .start = (.ok (some t), s) ∧
      t.bodies.map (fun b => b.fields.map (·.name)) = [sampleNames] ∧
      LegalNames Text.recordAttributes sampleNames) ∧
    (∃ t s, Compile.schemaType [] (Compile.typeOf []) "Kind" "Kind" sampleRenamedEnum .start =
        (.ok (some t), s) ∧
      t.members.map (·.name) = ["EmptyString", "None_", "None_2", "Value1", "Value"] ∧
      LegalNames [] (t.members.map (·.name))) ∧
    ∃ ps s, ParameterPlan.all [] "get /pets" sampleRenamedParameters .start = (.ok ps, s) ∧
      ps.map (·.argument) = ["self_", "self_2", "auth_ok_", "value"] ∧
      LegalNames ParameterPlan.handlerArguments (ps.map (·.argument)) := by
  obtain ⟨-, -, -, htypes, harguments⟩ := generated_names_legal
  refine ⟨?_, ?_, ?_⟩
  · have hnames : (Compile.schemaType [] (Compile.typeOf []) "Pet" "Pet" sampleRenamed .start).1.toOption.map
        (Option.map fun t => t.bodies.map fun b => b.fields.map (·.name)) = some (some [sampleNames]) := by
      decide +kernel
    obtain ⟨_, s, hrun, hsome⟩ := exists_ok_of_map hnames
    obtain ⟨t, rfl, ht⟩ := Option.map_eq_some_iff.1 hsome
    obtain ⟨b, hb, hfields⟩ : ∃ b ∈ t.bodies, b.fields.map (·.name) = sampleNames :=
      List.mem_map.1 (ht ▸ List.mem_cons_self)
    exact ⟨t, s, hrun, ht, hfields ▸ ((htypes _ _ _ _ _ _ _ _ hrun).1 b hb).2⟩
  · have hnames : (Compile.schemaType [] (Compile.typeOf []) "Kind" "Kind" sampleRenamedEnum
        .start).1.toOption.map (Option.map fun t => t.members.map (·.name)) =
          some (some ["EmptyString", "None_", "None_2", "Value1", "Value"]) := by
      decide +kernel
    obtain ⟨_, s, hrun, hsome⟩ := exists_ok_of_map hnames
    obtain ⟨t, rfl, ht⟩ := Option.map_eq_some_iff.1 hsome
    exact ⟨t, s, hrun, ht, (htypes _ _ _ _ _ _ _ _ hrun).2.2⟩
  · have hnames : (ParameterPlan.all [] "get /pets" sampleRenamedParameters .start).1.toOption.map
        (fun ps => ps.map (·.argument)) = some ["self_", "self_2", "auth_ok_", "value"] := by
      decide +kernel
    obtain ⟨ps, s, hrun, hnames⟩ := exists_ok_of_map hnames
    exact ⟨ps, s, hrun, hnames, (harguments _ _ _ _ _ _ hrun).2⟩

/-! ## Types and variants -/

/-- A type is called after its schema, and its variants are called after theirs. -/
structure NamedType.Called (t : NamedType) : Prop where
  name : t.name = Text.typeIdentifier t.schemaName
  variants : t.variants.map (·.name) = Text.variantNames (t.variants.map (·.schemaName))

namespace NamedType.Called

variable {t : NamedType} (h : t.Called)
include h

theorem isWord : IsWord t.name :=
  h.name ▸ Text.isWord_typeIdentifier t.schemaName

theorem isLegal_iff : IsLegal t.name ↔ ¬ SpellsConstant t.schemaName := by
  rw [h.name]
  exact Text.isLegal_typeIdentifier_iff

theorem isWord_variants : ∀ v ∈ t.variants, IsWord v.name := by
  refine List.forall_mem_map.1 ?_
  rw [h.variants]
  exact Text.isWord_variantNames _

theorem legal_variants_iff :
    (∀ v ∈ t.variants, IsLegal v.name) ↔ ∀ v ∈ t.variants, ¬ SpellsConstant v.schemaName := by
  rw [← List.forall_mem_map (f := Variant.name) (P := IsLegal),
    ← List.forall_mem_map (f := Variant.schemaName) (P := (¬ SpellsConstant ·)), h.variants]
  exact Text.legal_variantNames_iff

end NamedType.Called

namespace Compile

/-- The variants of a union have the names that are made of the names of their schemas. -/
theorem names_of_variantsFrom {σ : Type} {table : Entries} {typeOf : Tree → RunOn σ TypeExpr} {union : String}
    {exclude : Tree} :
    ∀ {taken : List String} {branches : List (Option String × String × Tree)} {vs : List Variant} {s s' : σ},
      variantsFrom table typeOf union exclude taken branches s = (.ok vs, s') →
        vs.map (·.name) = Text.uniqueNames taken (vs.map fun v => Text.typeIdentifier v.schemaName)
  | _, [], _, _, _, h => by
    obtain ⟨rfl, -⟩ := pure_eq_ok.1 h
    rfl
  | _, (tag, branch, schema) :: rest, _, _, _, h => by
    obtain ⟨v, _, hv, h⟩ := bind_eq_ok.1 h
    obtain ⟨vs, _, hvs, h⟩ := bind_eq_ok.1 h
    obtain ⟨rfl, -⟩ := pure_eq_ok.1 h
    obtain ⟨objects, _, -, hv⟩ := bind_eq_ok.1 hv
    obtain ⟨b, _, -, hv⟩ := bind_eq_ok.1 hv
    obtain ⟨description, _, -, hv⟩ := bind_eq_ok.1 hv
    obtain ⟨rfl, -⟩ := pure_eq_ok.1 hv
    rw [List.map_cons, List.map_cons, Text.uniqueNames, names_of_variantsFrom hvs]

theorem called_of_schemaType {σ : Type} [Noting σ] {table : Entries} {typeOf : Tree → RunOn σ TypeExpr}
    {s s' : σ} {n : String} {tree : Tree} {t : NamedType}
    (h : schemaType table typeOf (Text.typeIdentifier n) n tree s = (.ok (some t), s')) : t.Called := by
  have hvariants : ∀ {union exclude s s'} {branches : List (Option String × String × Tree)}
      {vs : List Variant}, variantsFrom table typeOf union exclude [] branches s = (.ok vs, s') →
        vs.map (·.name) = Text.variantNames (vs.map (·.schemaName)) := by
    intro union exclude s s' branches vs h
    rw [names_of_variantsFrom h, Text.variantNames, List.map_map]
    rfl
  obtain ⟨schema, m, -, hmakes, hm⟩ := makes_of_schemaType h
  cases hmakes with
  | object | composition =>
    obtain ⟨_, _, -, rfl⟩ := record_eq_ok hm
    exact ⟨rfl, rfl⟩
  | tagged =>
    obtain ⟨_, _, _, _, _, _, -, -, -, -, hvs, rfl⟩ := taggedUnion_eq_ok hm
    exact ⟨rfl, hvariants hvs⟩
  | untagged =>
    obtain ⟨_, _, _, _, hvs, -, rfl⟩ := untaggedUnion_eq_ok hm
    exact ⟨rfl, hvariants hvs⟩
  | enumeration _ _ henumeration =>
    obtain ⟨rfl, -⟩ := pure_eq_ok.1 hm
    obtain ⟨_, _, rfl⟩ := enumeration_eq_some henumeration
    exact ⟨rfl, rfl⟩

theorem called_of_all {table : Entries} {types : List NamedType} {s : State}
    (h : all table .start = (.ok types, s)) : ∀ t ∈ types, t.Called := by
  obtain ⟨-, htypes, -⟩ := all_run h
  intro t ht
  obtain ⟨n, schema, -, ⟨follow, s, s', hrun⟩, -⟩ := (traced_of_all h).types t (htypes ▸ ht)
  exact called_of_schemaType hrun

end Compile

/-- The types that a scaffold gives short names. -/
def Scaffold.shortened (plans : List OperationPlan) : List String :=
  (plans.flatMap argumentTypes).filterMap TypeExpr.name?

theorem Scaffold.mem_lines_of_shortened (unit path : String) {plans : List OperationPlan} {n : String}
    (hn : n ∈ shortened plans) : n ++ " = api.models." ++ n ∈ lines unit path plans := by
  have hsorted : n ∈ sorted (shortened plans) := by
    rw [sorted, List.mem_mergeSort, List.mem_eraseDups]
    exact hn
  have hline := List.mem_map_of_mem (f := fun n => n ++ " = api.models." ++ n) hsorted
  unfold lines
  -- three groups of lines come after these
  refine List.mem_append_left _ (List.mem_append_left _ (List.mem_append_left _ ?_))
  exact List.mem_append_right _ hline

/-- A sound plan mentions types that are there. -/
theorem OperationPlan.Sound.known {types : List NamedType} {p : OperationPlan} (h : p.Sound types) :
    ∀ e ∈ Scaffold.argumentTypes p, e.Known types := by
  intro e he
  rcases List.mem_append.1 he with he | he
  · obtain ⟨q, hq, rfl⟩ := List.mem_map.1 he
    exact (h.parameters q hq).known
  · obtain ⟨b, hb, htype⟩ := Option.bind_eq_some_iff.1 (Option.mem_toList.1 he)
    exact (h.requestBody b hb).known e htype

namespace Compilation

variable {disk : Disk} {input : String} {source : Source} {units : List Deployment} {withGateway : Bool}
  {c : Compilation} {notices : List Notice}

/-- The types of a compilation and their variants are called after their schemas. -/
theorem called_of_ofSource (h : ofSource disk input source units withGateway = (.ok c, notices)) :
    ∀ t ∈ c.types, t.Called := by
  obtain ⟨-, _, _, _, _, _, hmade, -⟩ := made_of_ofSource h
  exact Compile.called_of_all hmade.compiled

/-- What the scaffold of a unit gives a short name is a type of the compilation. -/
theorem exists_type_of_shortened (h : ofSource disk input source units withGateway = (.ok c, notices))
    {unit n : String} (hn : n ∈ Scaffold.shortened (c.plansOf unit)) : ∃ t ∈ c.types, t.name = n := by
  obtain ⟨e, he, hname⟩ := List.mem_filterMap.1 hn
  obtain ⟨p, hp, he⟩ := List.mem_flatMap.1 he
  have hsound := (sound_of_ofSource h).2 unit p hp
  exact List.mem_map.1 (hsound.known e he n (TypeExpr.target?_of_name? hname))

end Compilation

/-- The names of types and of the variants of a union are words, and nearly all are legal. A type is called by
a keyword exactly if `none`, `true` or `false` is the only word of its schema's name, and among the variants of
a union there is such a name exactly if there is such a schema. The short names in the scaffold of a unit, one
line for each, are names of types. -/
theorem Compilation.class_names_legal_iff (text : String) (schemaNames : List String) :
    (IsWord (typeIdentifier text) ∧ (IsLegal (typeIdentifier text) ↔ ¬ SpellsConstant text)) ∧
    ((∀ n ∈ variantNames schemaNames, IsWord n) ∧
      ((∀ n ∈ variantNames schemaNames, IsLegal n) ↔ ∀ text ∈ schemaNames, ¬ SpellsConstant text)) ∧
    ∀ (disk : Disk) (input : String) (source : Source) (units : List Deployment) (withGateway : Bool)
      (c : Compilation) (notices : List Notice),
      ofSource disk input source units withGateway = (.ok c, notices) →
        (∀ t ∈ c.types, t.Called ∧ IsWord t.name ∧ (IsLegal t.name ↔ ¬ SpellsConstant t.schemaName) ∧
          (∀ v ∈ t.variants, IsWord v.name) ∧
          ((∀ v ∈ t.variants, IsLegal v.name) ↔ ∀ v ∈ t.variants, ¬ SpellsConstant v.schemaName)) ∧
        ∀ unit path, ∀ n ∈ Scaffold.shortened (c.plansOf unit),
          n ++ " = api.models." ++ n ∈ Scaffold.lines unit path (c.plansOf unit) ∧
            ∃ t ∈ c.types, t.name = n := by
  refine ⟨⟨Text.isWord_typeIdentifier text, Text.isLegal_typeIdentifier_iff⟩,
    ⟨Text.isWord_variantNames schemaNames, Text.legal_variantNames_iff⟩, ?_⟩
  intro disk input source units withGateway c notices h
  refine ⟨fun t ht => ?_, fun unit path n hn =>
    ⟨Scaffold.mem_lines_of_shortened unit path hn, exists_type_of_shortened h hn⟩⟩
  have hcalled := called_of_ofSource h t ht
  exact ⟨hcalled, hcalled.isWord, hcalled.isLegal_iff, hcalled.isWord_variants, hcalled.legal_variants_iff⟩

/-- A description with a schema `none`, which a request holds and which is the only variant of a union. -/
def sampleNone : Tree :=
  let schema := Tree.object [("$ref", .text "#/components/schemas/none")]
  .object [
    ("openapi", .text "3.0.0"),
    ("paths", .object [("/a", .object [("post", .object [("operationId", .text "add"),
      ("requestBody", .object [("content", .object [("application/json", .object [("schema", schema)])])])])])]),
    ("components", .object [("schemas", .object [
      ("none", .object [("properties", .object [("a", .object [])])]),
      ("Pet", .object [("oneOf", .array [schema])])])])]

theorem sampleNone_run : ∃ c notices, Interface.sampleResult sampleNone = (.ok c, notices) ∧
    c.types.map (fun t => (t.schemaName, t.name)) = [("none", "None"), ("Pet", "Pet")] ∧
    c.types.map (fun t => t.variants.map fun v => (v.schemaName, v.name)) = [[], [("none", "None")]] ∧
    Scaffold.shortened (c.plansOf "all") = ["None"] := by
  have hread := Interface.sampleResult_eq (t := sampleNone) (by decide +kernel)
  have hnames : (Interface.sampleResult sampleNone).1.toOption.map (fun c =>
      c.types.map fun t => (t.schemaName, t.name)) = some [("none", "None"), ("Pet", "Pet")] := by
    rw [hread]
    decide +kernel
  have hvariants : (Interface.sampleResult sampleNone).1.toOption.map (fun c =>
      c.types.map fun t => t.variants.map fun v => (v.schemaName, v.name)) =
        some [[], [("none", "None")]] := by
    rw [hread]
    decide +kernel
  have hshort : (Interface.sampleResult sampleNone).1.toOption.map (fun c =>
      Scaffold.shortened (c.plansOf "all")) = some ["None"] := by
    rw [hread]
    decide +kernel
  obtain ⟨c, hc, hnames⟩ := Option.map_eq_some_iff.1 hnames
  rw [hc] at hvariants hshort
  exact ⟨c, _, eq_ok_of_toOption_fst hc, hnames, Option.some.inj hvariants, Option.some.inj hshort⟩

/-- The type and the variant of the schema `none` have no legal names, and the type of `Pet` has one. -/
theorem class_names_sampleNone : ∃ c notices, Interface.sampleResult sampleNone = (.ok c, notices) ∧
    (∃ t ∈ c.types, t.schemaName = "none" ∧ ¬ IsLegal t.name) ∧
    (∃ t ∈ c.types, t.schemaName = "Pet" ∧ IsLegal t.name) ∧
    (∃ t ∈ c.types, ¬ ∀ v ∈ t.variants, IsLegal v.name) ∧
    ∃ t ∈ c.types, t.name = "None" ∧
      "None = api.models.None" ∈ Scaffold.lines "all" "openapi.json" (c.plansOf "all") := by
  have hnone : SpellsConstant "none" := by decide +kernel
  have hpet : ¬ SpellsConstant "Pet" := by decide +kernel
  obtain ⟨c, notices, hok, hnames, hvariants, hshort⟩ := sampleNone_run
  obtain ⟨htypes, hlines⟩ := (Compilation.class_names_legal_iff "none" ["none"]).2.2 _ _ _ _ _ c notices hok
  refine ⟨c, notices, hok, ?_, ?_, ?_, ?_⟩
  · obtain ⟨t, ht, heq⟩ : ∃ t ∈ c.types, (t.schemaName, t.name) = ("none", "None") :=
      List.mem_map.1 (hnames ▸ List.mem_cons_self)
    have hschema : t.schemaName = "none" := congrArg Prod.fst heq
    exact ⟨t, ht, hschema, fun h => (htypes t ht).2.2.1.1 h (hschema ▸ hnone)⟩
  · obtain ⟨t, ht, heq⟩ : ∃ t ∈ c.types, (t.schemaName, t.name) = ("Pet", "Pet") :=
      List.mem_map.1 (hnames ▸ List.mem_cons_of_mem _ List.mem_cons_self)
    have hschema : t.schemaName = "Pet" := congrArg Prod.fst heq
    exact ⟨t, ht, hschema, (htypes t ht).2.2.1.2 (hschema ▸ hpet)⟩
  · obtain ⟨t, ht, heq⟩ : ∃ t ∈ c.types,
        (t.variants.map fun v => (v.schemaName, v.name)) = [("none", "None")] :=
      List.mem_map.1 (hvariants ▸ List.mem_cons_of_mem _ List.mem_cons_self)
    obtain ⟨v, hv, hname⟩ : ∃ v ∈ t.variants, (v.schemaName, v.name) = ("none", "None") :=
      List.mem_map.1 (heq ▸ List.mem_cons_self)
    have hschema : v.schemaName = "none" := congrArg Prod.fst hname
    exact ⟨t, ht, fun h => (htypes t ht).2.2.2.2.1 h v hv (hschema ▸ hnone)⟩
  · obtain ⟨hline, t, ht, hname⟩ := hlines "all" "openapi.json" "None" (hshort ▸ List.mem_cons_self)
    exact ⟨t, ht, hname, hline⟩

/-- Such a name is a keyword, and a description with it compiles to a scaffold that assigns to the keyword. -/
theorem class_names_keyword : ∃ c notices, Interface.sampleResult sampleNone = (.ok c, notices) ∧
    "None" ∈ Text.keywords ∧ c.types.map (·.name) = ["None", "Pet"] ∧
    c.types.map (fun t => t.variants.map (·.name)) = [[], ["None"]] ∧
    "None = api.models.None" ∈ Scaffold.lines "all" "openapi.json" (c.plansOf "all") := by
  obtain ⟨c, notices, hok, hnames, hvariants, hshort⟩ := sampleNone_run
  refine ⟨c, notices, hok, by decide, ?_, ?_, ?_⟩
  · have hnames := congrArg (List.map Prod.snd) hnames
    rwa [List.map_map] at hnames
  · have hvariants := congrArg (List.map (List.map Prod.snd)) hvariants
    simpa only [List.map_map, List.map_cons, List.map_nil, Function.comp_def] using hvariants
  · exact Scaffold.mem_lines_of_shortened "all" "openapi.json" (hshort ▸ List.mem_cons_self)

end ApiContract
