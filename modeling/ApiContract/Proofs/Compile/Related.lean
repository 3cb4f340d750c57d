import ApiContract.Proofs.Compile.Graph

/-!
# Related runs

Reading a schema changes the state only where it follows references and where it takes notices. So a
relation between runs over one state and runs over another that sequencing keeps (`Compatible`) holds
of a schema's types as soon as it holds of the references that are followed: `Compatible.typeWith` for
type expressions, `Compatible.schemaType` for named types.

On the other side there is a family of runs, so that a run can be related to what it would be on each of
several paths. A relation may also admit some failures only (`CompatibleOn`): what reading fails with, and
the failures of merging and of collecting compositions for the type at hand. It is asked of what is read alone:
of the references that a type expression mentions, and of the type expressions in what a named type is made of
(`MadeOf`, `ReadIn`).
-/

namespace ApiContract.Compile

/-- What `additionalProperties` says is decided by a scalar, or is its type. -/
theorem additionalType_some (t : Tree) :
    (∃ x r, t = .scalar x ∧ ∀ {σ : Type} (m : RunOn σ TypeExpr), additionalType (some (t, m)) = pure r) ∨
      ∀ {σ : Type} (m : RunOn σ TypeExpr), additionalType (some (t, m)) = some <$> m := by
  cases t with
  | scalar s =>
    cases s with
    | null => exact .inl ⟨_, none, rfl, fun _ => rfl⟩
    | bool b =>
      cases b with
      | false => exact .inl ⟨_, none, rfl, fun _ => rfl⟩
      | true => exact .inl ⟨_, some .any, rfl, fun _ => rfl⟩
    | _ => exact .inr fun _ => rfl
  | _ => exact .inr fun _ => rfl

/-- What the records of a schema are made of: object schemas, each with the property that is left out. -/
inductive MadeOf (table : Entries) (name : String) (schema : Entries) (tree : Tree) : Tree → Entries → Prop
  | object : Schema.kind schema = .ok .object → MadeOf table name schema tree .null schema
  | composition {objects : List Entries} {object : Entries} : Schema.kind schema = .ok .allOf →
      leaves table name (besideReference tree) = .ok objects → object ∈ objects →
      MadeOf table name schema tree .null object
  | branch {branches : List (String × Tree)} {n : String} {t : Tree} {objects : List Entries} {object : Entries} :
      Schema.kind schema = .ok .oneOf → Compile.branches table name schema = .ok branches → (n, t) ∈ branches →
      branchObjects table name n t = .ok objects → object ∈ objects →
      MadeOf table name schema tree (tagOf schema) object

/-- What is read as a type expression in an object schema. -/
inductive ReadIn (exclude : Tree) (object : Entries) : Tree → Prop
  | property {properties : Entries} {key : String} {t : Tree} : entriesOf object "properties" = .ok properties →
      (.text key, t) ∈ properties → .text key ≠ exclude → ReadIn exclude object t
  | additional {t : Tree} : object.get? "additionalProperties" = some t → ReadIn exclude object t

/-- What is merged comes from one of the object schemas. -/
structure Merged.From (objects : List Entries) (m : Merged) : Prop where
  properties : ∀ e ∈ m.properties, ∃ object ∈ objects, ∃ properties,
    entriesOf object "properties" = .ok properties ∧ e ∈ properties
  additional : m.additional = .null ∨
    ∃ object ∈ objects, object.get? "additionalProperties" = some m.additional

theorem Merged.from_of_merge {owner : String} {objects : List Entries} {m : Merged}
    (h : merge owner objects = .ok m) : m.From objects := by
  refine of_foldlM (I := Merged.From objects) h ⟨nofun, .inl rfl⟩ fun m object hobject m' hm hadd => ?_
  obtain ⟨properties, m₁, -, -, hproperties, hm₁, -, -, hsame, -, hadditional⟩ := add_eq_ok hadd
  have hadded : m₁.additional = m.additional ∧ ∀ e ∈ m₁.properties, e ∈ properties ∨ e ∈ m.properties := by
    refine of_foldlM (I := fun m₁ : Merged => m₁.additional = m.additional ∧
      ∀ e ∈ m₁.properties, e ∈ properties ∨ e ∈ m.properties) hm₁ ⟨rfl, fun _ he => .inr he⟩ ?_
    rintro m₂ ⟨key, t⟩ hmem m₃ ⟨hadditional, hm₂⟩ hput
    obtain ⟨rfl, -⟩ := addProperty_eq_ok hput
    refine ⟨hadditional, fun e he => ?_⟩
    rcases Entries.mem_put he with rfl | he
    · exact .inl hmem
    · exact hm₂ e he
  refine ⟨fun e he => ?_, ?_⟩
  · rcases hadded.2 e (hsame ▸ he) with he | he
    · exact ⟨object, hobject, properties, hproperties, he⟩
    · exact hm.properties e he
  · rcases hadditional with ⟨-, heq⟩ | ⟨-, heq⟩
    · rw [heq, hadded.1]
      exact hm.additional
    · rw [heq, Entries.orNull]
      cases hget : object.get? "additionalProperties" with
      | none => exact .inl rfl
      | some t => exact .inr ⟨object, hobject, hget⟩

/-- What is read of merged object schemas is read in one of them. -/
theorem Merged.From.readIn {objects : List Entries} {m : Merged} (h : m.From objects) {exclude : Tree}
    {key : String} {t : Tree} (hmem : (.text key, t) ∈ m.properties) (hne : .text key ≠ exclude) :
    ∃ object ∈ objects, ReadIn exclude object t := by
  obtain ⟨object, hobject, properties, hproperties, hmem⟩ := h.properties _ hmem
  exact ⟨object, hobject, .property hproperties hmem hne⟩

variable {σ τ ι : Type} [Noting σ] [Noting τ]

/-- A relation between runs and families of runs that is kept by sequencing. -/
structure Compatible (R : {α : Type} → RunOn σ α → (ι → RunOn τ α) → Prop) : Prop where
  lift {α : Type} (r : Except Failure α) : R (lift r) fun _ => lift r
  bind {α β : Type} {m : RunOn σ α} {d : ι → RunOn τ α} {f : α → RunOn σ β}
    {g : ι → α → RunOn τ β} : R m d → (∀ a, R (f a) fun i => g i a) → R (m >>= f) fun i => d i >>= g i
  note (notices : List Notice) : R (modify (Noting.note notices)) fun _ => modify (Noting.note notices)

/-- A relation as before, of runs that do not fail but with admitted failures. Those of reading schemas are
admitted. -/
structure CompatibleOn (Admitted : Failure → Prop)
    (R : {α : Type} → RunOn σ α → (ι → RunOn τ α) → Prop) : Prop where
  reading {f : Failure} : f.isLocal = true ∨ f.isInlineSchema = true → Admitted f
  lift {α : Type} {r : Except Failure α} : (∀ f, r = .error f → Admitted f) → R (lift r) fun _ => lift r
  bind {α β : Type} {m : RunOn σ α} {d : ι → RunOn τ α} {f : α → RunOn σ β}
    {g : ι → α → RunOn τ β} : R m d → (∀ a, R (f a) fun i => g i a) → R (m >>= f) fun i => d i >>= g i
  note (notices : List Notice) : R (modify (Noting.note notices)) fun _ => modify (Noting.note notices)

namespace CompatibleOn

variable {Admitted : Failure → Prop} {R : {α : Type} → RunOn σ α → (ι → RunOn τ α) → Prop}
  (hR : CompatibleOn Admitted R)
include hR

theorem pure {α : Type} (a : α) : R (pure a) fun _ => pure a := hR.lift (r := .ok a) nofun

theorem throw {α : Type} {f : Failure} (h : f.isLocal = true ∨ f.isInlineSchema = true) :
    R (throw f : RunOn σ α) fun _ => throw f :=
  hR.lift (r := .error f) fun _ hf => by cases hf; exact hR.reading h

theorem read {α : Type} {r : Except Failure α} (h : Local r) : R (Compile.lift r) fun _ => Compile.lift r :=
  hR.lift fun _ hf => hR.reading (.inl (h.failure hf))

theorem map {α β : Type} {m : RunOn σ α} {d : ι → RunOn τ α} (f : α → β) (h : R m d) :
    R (f <$> m) fun i => f <$> d i := by
  simp only [map_eq_pure_bind]
  exact hR.bind h fun a => hR.pure (f a)

/-- What depends on a result. -/
theorem lift_bind {α β : Type} {r : Except Failure α} {f : α → RunOn σ β} {g : ι → α → RunOn τ β}
    (hr : ∀ f, r = .error f → Admitted f) (h : ∀ a, r = .ok a → R (f a) fun i => g i a) :
    R (Compile.lift r >>= f) fun i => Compile.lift r >>= g i := by
  cases r with
  | ok a => exact h a rfl
  | error e => exact hR.lift (r := .error e) fun _ hf => hr _ (by cases hf; rfl)

/-- What depends on something read. -/
theorem read_bind {α β : Type} {r : Except Failure α} {f : α → RunOn σ β} {g : ι → α → RunOn τ β}
    (hr : Local r) (h : ∀ a, r = .ok a → R (f a) fun i => g i a) :
    R (Compile.lift r >>= f) fun i => Compile.lift r >>= g i :=
  hR.lift_bind (fun _ hf => hR.reading (.inl (hr.failure hf))) h

/-! ## Type expressions -/

theorem additionalType {m : RunOn σ TypeExpr} {d : ι → RunOn τ TypeExpr} (t : Tree) (h : R m d) :
    R (additionalType (some (t, m))) fun i => Compile.additionalType (some (t, d i)) := by
  rcases additionalType_some t with ⟨-, r, -, hr⟩ | hr
  · simp only [hr]
    exact hR.pure r
  · simp only [hr]
    exact hR.map some h

variable {typeOf : Tree → RunOn σ TypeExpr} {typesOf : ι → Tree → RunOn τ TypeExpr}

/-- The type expression of a schema without a named type, given those of what it reads. -/
theorem inlineSchema {es : Entries} {tree : Tree}
    (hadditional : ∀ t, Schema.kind es = .ok .object → es.get? "additionalProperties" = some t →
      R (typeOf t) fun i => typesOf i t)
    (hitems : ∀ t, Schema.kind es = .ok .array → es.get? "items" = some t → R (typeOf t) fun i => typesOf i t) :
    R (inlineSchema es tree (es.map fun e => (e.1, e.2, typeOf e.2))) fun i =>
      Compile.inlineSchema es tree (es.map fun e => (e.1, e.2, typesOf i e.2)) := by
  unfold Compile.inlineSchema
  simp only [Entries.lookup_children]
  refine hR.read_bind (local_kind es) fun kind hkind => ?_
  cases kind with
  | string | number | integer | boolean =>
    dsimp only
    split
    · exact hR.throw (.inr rfl)
    · exact hR.read (local_scalarType _ _ _)
  | object =>
    dsimp only
    split
    · exact hR.throw (.inr rfl)
    · refine hR.bind ?_ fun value => ?_
      · cases hget : es.at? (.text "additionalProperties") with
        | none => exact hR.pure none
        | some t => exact hR.additionalType t (hadditional t hkind hget)
      · cases value with
        | none => exact hR.pure _
        | some value => exact hR.pure _
  | array =>
    dsimp only
    cases hget : es.at? (.text "items") with
    | none => exact hR.pure _
    | some t =>
      cases t with
      | map => exact hR.bind (hitems _ hkind hget) fun item => hR.pure _
      | _ => exact hR.pure _
  | any =>
    refine hR.read_bind (local_isTrivial es) fun trivially _ => ?_
    split
    · exact hR.throw (.inr rfl)
    · exact hR.pure _
  | _ => exact hR.throw (.inr rfl)

/-- The type expression of a schema, given those of the references that it mentions. -/
theorem typeWith {follow : String → RunOn σ TypeExpr} {follows : ι → String → RunOn τ TypeExpr} (t : Tree)
    (h : ∀ r, Mentions t r → R (follow r) fun i => follows i r) :
    R (typeWith follow t) fun i => Compile.typeWith (follows i) t := by
  induction t using Tree.induct with
  | map a es ih =>
    simp only [typeWith_map]
    cases href : Reference.ofEntries? es with
    | some reference => exact h reference (.reference href)
    | none =>
      exact hR.inlineSchema
        (fun t hkind hget => ih _ (Entries.mem_of_at? hget) fun r hr => h r (.additional href hkind hget hr))
        (fun t hkind hget => ih _ (Entries.mem_of_at? hget) fun r hr => h r (.item href hkind hget hr))
  | _ => exact hR.throw (.inl rfl)

/-! ## Named types -/

section

variable {table : Entries}

theorem fieldsOf {required : List String} {exclude : Tree} :
    ∀ (taken : List String) (properties : List (Scalar × Tree)),
      (∀ key t, (Scalar.text key, t) ∈ properties → .text key ≠ exclude → R (typeOf t) fun i => typesOf i t) →
      R (fieldsOf table typeOf required exclude taken properties) fun i =>
        Compile.fieldsOf table (typesOf i) required exclude taken properties
  | _, [], _ => hR.pure []
  | taken, (key, schema) :: rest, h => by
    have hrest (taken) : R (Compile.fieldsOf table typeOf required exclude taken rest) fun i =>
        Compile.fieldsOf table (typesOf i) required exclude taken rest :=
      fieldsOf taken rest fun k t hm => h k t (List.mem_cons_of_mem _ hm)
    simp only [Compile.fieldsOf]
    split
    · exact hrest taken
    · rename_i hne
      cases key with
      | text wireName =>
        have hread := h wireName schema List.mem_cons_self fun heq => hne (beq_iff_eq.2 heq)
        refine hR.bind hread fun type => hR.read_bind (local_resolve table schema) fun target _ => ?_
        split
        · exact hR.throw (.inl rfl)
        · refine hR.read_bind (local_textField _ _) fun description _ => ?_
          exact hR.bind (hrest _) fun fields => hR.pure _
      | _ => exact hR.throw (.inl rfl)

theorem body {owner : String} {objects : List Entries} {exclude : Tree}
    (hmerge : ∀ f, merge owner objects = .error f → Admitted f)
    (h : ∀ object ∈ objects, ∀ t, ReadIn exclude object t → R (typeOf t) fun i => typesOf i t) :
    R (body table typeOf owner objects exclude) fun i =>
      Compile.body table (typesOf i) owner objects exclude := by
  refine hR.lift_bind hmerge fun merged hmerged => ?_
  have hfrom := Merged.from_of_merge hmerged
  refine hR.bind (hR.fieldsOf _ _ fun key t hmem hne => ?_) fun fields => hR.bind ?_ fun extra => hR.pure _
  · obtain ⟨object, hobject, hread⟩ := hfrom.readIn hmem hne
    exact h object hobject t hread
  · rcases hfrom.additional with hnull | ⟨object, hobject, hget⟩
    · rw [hnull]
      exact hR.pure none
    · exact hR.additionalType _ (h object hobject _ (.additional hget))

theorem record {name schemaName : String} {schema : Entries} {objects : List Entries}
    (hmerge : ∀ f, merge name objects = .error f → Admitted f)
    (h : ∀ object ∈ objects, ∀ t, ReadIn .null object t → R (typeOf t) fun i => typesOf i t) :
    R (record table typeOf name schemaName schema objects) fun i =>
      Compile.record table (typesOf i) name schemaName schema objects :=
  hR.bind (hR.body hmerge h) fun _ => hR.read_bind (local_textField _ _) fun _ _ => hR.pure _

variable {name : String} (hmerge : ∀ objects f, merge name objects = .error f → Admitted f)
  (hleaves : ∀ t f, leaves table name t = .error f → Admitted f)
include hmerge hleaves

omit hmerge in
theorem admitted_branchObjects {branch : String} {t : Tree} {f : Failure}
    (h : branchObjects table name branch t = .error f) : Admitted f := by
  rcases bind_eq_error.1 h with h | ⟨kind, -, h⟩
  · exact hR.reading (.inl ((local_kindOf t).failure h))
  · cases kind with
    | object => cases h
    | allOf => exact hleaves t f h
    | _ =>
      cases h
      exact hR.reading (.inl rfl)

theorem variantsFrom {exclude : Tree} :
    ∀ (taken : List String) (branches : List (Option String × String × Tree)),
      (∀ b ∈ branches, ∀ objects, branchObjects table name b.2.1 b.2.2 = .ok objects → ∀ object ∈ objects,
        ∀ t, ReadIn exclude object t → R (typeOf t) fun i => typesOf i t) →
      R (variantsFrom table typeOf name exclude taken branches) fun i =>
        Compile.variantsFrom table (typesOf i) name exclude taken branches
  | _, [], _ => hR.pure []
  | taken, (tag, branch, schema) :: rest, h => by
    obtain ⟨hbranch, hrest⟩ := List.forall_mem_cons.1 h
    refine hR.bind ?_ fun v => hR.bind (variantsFrom _ rest hrest) fun variants => hR.pure _
    refine hR.lift_bind (fun f hf => hR.admitted_branchObjects hleaves hf) fun objects hobjects => ?_
    exact hR.bind (hR.body (hmerge objects) (hbranch objects hobjects)) fun body =>
      hR.read_bind (local_textField _ _) fun description _ => hR.pure _

variable {schema : Entries} {tree : Tree}
  (h : ∀ exclude object, MadeOf table name schema tree exclude object →
    ∀ t, ReadIn exclude object t → R (typeOf t) fun i => typesOf i t)
include h

theorem taggedUnion (hkind : Schema.kind schema = .ok .oneOf) {schemaName : String} {a : Anchor}
    {discriminator : Entries} (hdiscriminator : schema.get? "discriminator" = some (.map a discriminator)) :
    R (taggedUnion table typeOf name schemaName schema discriminator) fun i =>
      Compile.taggedUnion table (typesOf i) name schemaName schema discriminator := by
  have htag : tagOf schema = discriminator.orNull "propertyName" := by rw [tagOf, hdiscriminator]
  unfold Compile.taggedUnion
  dsimp only
  split
  · exact hR.throw (.inl rfl)
  · refine hR.read_bind (local_branches name schema) fun branches hbranches => ?_
    refine hR.read_bind (local_entriesOf discriminator "mapping") fun mapping _ => ?_
    refine hR.read_bind (local_mappedTags name branches mapping) fun mapped _ => ?_
    refine hR.bind (hR.variantsFrom hmerge hleaves _ _ ?_) fun variants => ?_
    · intro b hb objects hobjects object hobject t ht
      obtain ⟨⟨tag, branch⟩, -, rfl⟩ := List.mem_map.1 hb
      cases hlookup : branches.lookup branch with
      | none =>
        rw [hlookup] at hobjects
        cases hobjects
      | some schema =>
        rw [hlookup] at hobjects
        exact h _ object (.branch hkind hbranches (mem_of_lookup hlookup) hobjects hobject) t (htag ▸ ht)
    · refine hR.read_bind (local_textFields _) fun texts _ => ?_
      split
      · exact hR.pure _
      · exact hR.throw (.inl rfl)

theorem untaggedUnion (hkind : Schema.kind schema = .ok .oneOf) {schemaName : String}
    (hdiscriminator : ∀ a es, schema.get? "discriminator" ≠ some (.map a es)) :
    R (untaggedUnion table typeOf name schemaName schema) fun i =>
      Compile.untaggedUnion table (typesOf i) name schemaName schema := by
  have htag : tagOf schema = .null := by
    unfold tagOf
    split
    · exact absurd ‹_› (hdiscriminator _ _)
    · rfl
  refine hR.read_bind (local_branches name schema) fun branches hbranches => ?_
  refine hR.bind (hR.variantsFrom hmerge hleaves _ _ ?_) fun variants => hR.bind (hR.note _) fun _ => ?_
  · intro b hb objects hobjects object hobject t ht
    obtain ⟨⟨n, branch⟩, hmem, rfl⟩ := List.mem_map.1 hb
    exact h _ object (.branch hkind hbranches hmem hobjects hobject) t (htag ▸ ht)
  · exact hR.read_bind (local_textField _ _) fun description _ => hR.pure _

omit h in
/-- The named type of a schema, given the type expressions in what it is made of. -/
theorem schemaType {schemaName : String}
    (h : ∀ schema exclude object, tree.entries? = some schema → MadeOf table name schema tree exclude object →
      ∀ t, ReadIn exclude object t → R (typeOf t) fun i => typesOf i t) :
    R (schemaType table typeOf name schemaName tree) fun i =>
      Compile.schemaType table (typesOf i) name schemaName tree := by
  unfold Compile.schemaType
  cases hentries : tree.entries? with
  | none => exact hR.throw (.inl rfl)
  | some schema =>
    have hmade := fun exclude object => h schema exclude object hentries
    refine hR.read_bind (local_kind schema) fun kind hkind => ?_
    cases kind with
    | object =>
      dsimp only
      split
      · exact hR.pure none
      · refine hR.map some (hR.record (hmerge [schema]) fun object hobject => ?_)
        rw [List.mem_singleton.1 hobject]
        exact hmade _ _ (.object hkind)
    | array => exact hR.pure none
    | oneOf =>
      dsimp only
      split
      · exact hR.map some (hR.taggedUnion hmerge hleaves hmade hkind ‹_›)
      · rename_i hnone
        exact hR.map some (hR.untaggedUnion hmerge hleaves hmade hkind hnone)
    | allOf =>
      refine hR.lift_bind (hleaves (besideReference tree)) fun objects hobjects => ?_
      exact hR.map some (hR.record (hmerge objects) fun object hobject =>
        hmade _ _ (.composition hkind hobjects hobject))
    | anyOf | not => exact hR.throw (.inl rfl)
    | any =>
      refine hR.read_bind (local_isTrivial schema) fun trivially _ => ?_
      split
      · exact hR.throw (.inl rfl)
      · exact hR.pure none
    | string | number | integer | boolean => exact hR.read local_enumeration

end

end CompatibleOn

namespace Compatible

variable {R : {α : Type} → RunOn σ α → (ι → RunOn τ α) → Prop} (hR : Compatible R)
include hR

/-- A relation of all runs admits every failure. -/
theorem on : CompatibleOn (fun _ => True) R where
  reading _ := trivial
  lift _ := hR.lift _
  bind := hR.bind
  note := hR.note

/-- The type expression of a schema, given those of references. -/
theorem typeWith {follow : String → RunOn σ TypeExpr} {follows : ι → String → RunOn τ TypeExpr}
    (h : ∀ r, R (follow r) fun i => follows i r) (t : Tree) :
    R (typeWith follow t) fun i => Compile.typeWith (follows i) t :=
  hR.on.typeWith t fun r _ => h r

/-- The named type of a schema, given the type expressions of schemas. -/
theorem schemaType {typeOf : Tree → RunOn σ TypeExpr} {typesOf : ι → Tree → RunOn τ TypeExpr}
    {table : Entries} (h : ∀ t, R (typeOf t) fun i => typesOf i t) {name schemaName : String}
    {tree : Tree} : R (schemaType table typeOf name schemaName tree) fun i =>
      Compile.schemaType table (typesOf i) name schemaName tree :=
  hR.on.schemaType (fun _ _ _ => trivial) (fun _ _ _ => trivial) fun _ _ _ _ _ t _ => h t

end Compatible

end ApiContract.Compile
