import ApiContract.Proofs.Compile.Anew
import ApiContract.Proofs.Compile.Composition
import ApiContract.Proofs.Tree.Plain
import ApiContract.Reference

/-!
# Tables that agree

What a schema compiles to depends only on what the references lead to that it meets. `Tree.references` lists those
that stand anywhere in a tree, and `Tree.RefersOnly` says what all of them are like. Two tables agree on some
references (`AgreeOn`) if these lead to the same entries, and the entries of the first table refer only to such.
Then the compiler does the same over both, with what it remembers (`entries_congr`) and without (`typeAnew_congr`):
the targets of references, the leaves of compositions and the branches of unions are the same.

Tables that lead to the same schemas in another order agree on all references (`SameEntries.agreeOn`).
-/

/-! ## References in a tree -/

namespace ApiContract.Tree

/-- The references that stand anywhere in a tree. -/
def references : Tree → List String :=
  para {
    scalar _ := []
    list _ items := items.flatMap (·.2)
    map _ entries :=
      (Reference.ofEntries? (entries.map fun e => (e.1, e.2.1))).toList ++ entries.flatMap (·.2.2)
    set _ _ := []
    pair x y := x.2 ++ y.2
    back _ _ := [] }

/-- Every reference in a tree has a property. -/
def RefersOnly (P : String → Prop) (t : Tree) : Prop := ∀ r ∈ t.references, P r

variable {P : String → Prop} {a : Anchor} {es : Entries} {ts : List Tree} {t : Tree}

theorem references_list : references (.list a ts) = ts.flatMap references := by
  simp only [references, para, paraItems_eq, List.flatMap_map]

theorem references_map :
    references (.map a es) = (Reference.ofEntries? es).toList ++ es.flatMap fun e => references e.2 := by
  simp only [references, para, paraEntries_eq, List.map_map, Function.comp_def, List.map_id', List.flatMap_map]

@[simp] theorem refersOnly_scalar {s : Scalar} : RefersOnly P (.scalar s) := nofun

@[simp] theorem refersOnly_list : RefersOnly P (.list a ts) ↔ ∀ t ∈ ts, RefersOnly P t := by
  rw [RefersOnly, references_list, List.forall_mem_flatMap]
  rfl

@[simp] theorem refersOnly_map : RefersOnly P (.map a es) ↔
    (∀ r, Reference.ofEntries? es = some r → P r) ∧ ∀ e ∈ es, RefersOnly P e.2 := by
  rw [RefersOnly, references_map, List.forall_mem_append, List.forall_mem_flatMap]
  refine and_congr (by simp) Iff.rfl

@[simp] theorem refersOnly_pair {x y : Tree} :
    RefersOnly P (.pair x y) ↔ RefersOnly P x ∧ RefersOnly P y := List.forall_mem_append

theorem RefersOnly.reference (h : t.RefersOnly P) {r : String} (hr : Reference.ofTree? t = some r) : P r := by
  cases t with
  | map a es => exact (refersOnly_map.1 h).1 r hr
  | _ => cases hr

theorem RefersOnly.entry (h : RefersOnly P (.map a es)) {key : String} {x : Tree}
    (hx : es.get? key = some x) : x.RefersOnly P :=
  (refersOnly_map.1 h).2 _ (Entries.mem_of_at? hx)

end ApiContract.Tree

namespace ApiContract.Compile

open Tree

variable {P : String → Prop} {table table' : Entries}

/-- The entry that a reference leads to, by what names lead to. -/
def entryOf (get : String → Option Tree) (reference : String) : Except Failure (String × Tree) := do
  let name ← Reference.schemaName reference
  match get name with
  | none => throw (.schemaMissing reference)
  | some schema =>
    if schema = .null then throw (.schemaMissing reference)
    match Reference.ofTree? schema with
    | some target => throw (.schemaReferenceChain reference target)
    | none => return (name, schema)

theorem find_map (reference : String) :
    (find table reference).map (fun found => (found.name, found.schema)) =
      entryOf table.get? reference := by
  unfold find entryOf
  cases Reference.schemaName reference with
  | error f => rfl
  | ok name =>
    simp only [bind, Except.bind]
    split
    · rename_i hnone
      rw [hnone]
      rfl
    · rename_i hnull
      rw [hnull]
      rfl
    · rename_i schema hne hsome
      cases href : Reference.ofTree? schema with
      | some target =>
        show Except.error (Failure.schemaReferenceChain reference target) = _
        rw [hsome]
        dsimp only
        rw [if_neg hne, href]
        rfl
      | none =>
        show Except.ok (name, schema) = _
        rw [hsome]
        dsimp only
        rw [if_neg hne, href]
        rfl

/-- References of a kind lead to the same entries of two tables, and those of the first refer in no other way. -/
structure AgreeOn (P : String → Prop) (table table' : Entries) : Prop where
  entry : ∀ r, P r → entryOf table.get? r = entryOf table'.get? r
  only : ∀ e ∈ table, e.2.RefersOnly P

/-! ## What is met refers in the same way -/

theorem only_besideReference {t : Tree} (ht : t.RefersOnly P) : (besideReference t).RefersOnly P := by
  cases t with
  | map a es =>
    obtain ⟨es', heq, hdirect, hsub, -⟩ := besideReference_map a es
    rw [heq]
    refine refersOnly_map.2 ⟨fun r hr => ?_, fun e he => (refersOnly_map.1 ht).2 e (hsub.subset he)⟩
    cases hdirect.symm.trans hr
  | _ => exact ht

theorem Mentions.only {t : Tree} {r : String} (h : Mentions t r) (ht : t.RefersOnly P) : P r := by
  induction h with
  | reference href => exact ht.reference href
  | additional _ _ hget _ ih | item _ _ hget _ ih => exact ih (ht.entry hget)

theorem only_entriesOf {object properties : Entries} {key : String} {a : Anchor}
    (hobject : RefersOnly P (.map a object)) (h : entriesOf object key = .ok properties) :
    ∀ e ∈ properties, e.2.RefersOnly P := by
  rcases entriesOf_eq_ok h with rfl | ⟨b, hget⟩
  · exact nofun
  · exact (refersOnly_map.1 (hobject.entry hget)).2

theorem only_partsOf {es : Entries} {key : String} {ts : List Tree} {a : Anchor}
    (hes : RefersOnly P (.map a es)) (h : partsOf es key = .ok ts) : ∀ t ∈ ts, t.RefersOnly P := by
  intro t ht
  rcases mem_of_partsOf h ht with ⟨x, rfl⟩ | ⟨b, hget⟩ | ⟨x, y, hget, hxy⟩
  · exact refersOnly_scalar
  · exact refersOnly_list.1 (hes.entry hget) t ht
  · have hboth := refersOnly_pair.1 (hes.entry hget)
    rcases hxy with rfl | rfl
    · exact hboth.1
    · exact hboth.2

theorem Merged.From.only {objects : List Entries} {m : Merged} (h : m.From objects)
    (hobjects : ∀ object ∈ objects, RefersOnly P (.map none object)) :
    (∀ e ∈ m.properties, e.2.RefersOnly P) ∧ m.additional.RefersOnly P := by
  constructor
  · intro e he
    obtain ⟨object, hobject, properties, hproperties, he⟩ := h.properties e he
    exact only_entriesOf (hobjects object hobject) hproperties e he
  · rcases h.additional with hnull | ⟨object, hobject, hget⟩
    · rw [hnull]
      exact refersOnly_scalar
    · exact (hobjects object hobject).entry hget

theorem compatible_eq {σ : Type} [Noting σ] :
    Compatible (σ := σ) (τ := σ) (ι := Unit) fun {_} m d => m = d () where
  lift _ := rfl
  bind hm hf := by rw [hm, funext hf]
  note _ := rfl

/-- The type expression of a schema depends on those of the references in it. -/
theorem typeWith_congr {σ : Type} [Noting σ] {follow follow' : String → RunOn σ TypeExpr} {t : Tree}
    (ht : t.RefersOnly P) (hf : ∀ r, P r → follow r = follow' r) : typeWith follow t = typeWith follow' t :=
  @CompatibleOn.typeWith _ _ _ _ _ _ _ compatible_eq.on follow (fun _ => follow') t fun r hr => hf r (hr.only ht)

section

variable {follow follow' : String → Except Failure (List Entries)} {owner : String}
  (hf : ∀ r, P r → follow r = follow' r)
include hf

theorem leafCases_map_congr {a : Anchor} {es : Entries} (hes : RefersOnly P (.map a es))
    (hparts : ∀ x, es.get? "allOf" = some x →
      x.para (leafCases follow owner) .list = x.para (leafCases follow' owner) .list) :
    (Tree.map a es).para (leafCases follow owner) .component =
      (Tree.map a es).para (leafCases follow' owner) .component := by
  rw [leafCases_map, leafCases_map]
  cases href : Reference.ofEntries? es with
  | some r => exact hf r ((refersOnly_map.1 hes).1 r href)
  | none =>
    simp only [Entries.lookup_children (fun x => x.para (leafCases follow owner)),
      Entries.lookup_children (fun x => x.para (leafCases follow' owner))]
    cases hallOf : Entries.at? (.text "allOf") es with
    | none => rfl
    | some x => simp only [Option.map_some, hparts x hallOf]

/-- The leaves of a composition depend on those of the references in it. -/
theorem leafCases_congr (t : Tree) (ht : t.RefersOnly P) :
    ∀ role, t.para (leafCases follow owner) role = t.para (leafCases follow' owner) role := by
  induction t using Tree.induct with
  | map a es ih =>
    intro role
    cases role with
    | component =>
      exact leafCases_map_congr hf ht fun x hx => ih _ (Entries.mem_of_at? hx) (ht.entry hx) .list
    | list => simp only [para, paraEntries_eq, leafCases, List.map_map, Function.comp_def]
  | list a ts ih =>
    intro role
    cases role with
    | component => rfl
    | list =>
      rw [leafCases_list, leafCases_list]
      have hparts : ts.mapM (leavesWith follow owner) = ts.mapM (leavesWith follow' owner) :=
        mapM_congr fun t hmem => ih t hmem (refersOnly_list.1 ht t hmem) .component
      rw [hparts]
  | _ =>
    intro role
    cases role <;> rfl

end

section

variable (h : AgreeOn P table table')
include h

theorem Names.only {r n : String} {schema : Tree} (hnames : Names table r n schema) : schema.RefersOnly P :=
  h.only _ (Entries.mem_of_at? hnames.2)

theorem Found.only (found : Found table) : found.schema.RefersOnly P :=
  h.only _ (Entries.mem_of_at? found.found)

theorem Component.only {t : Tree} {object : Entries} (hcomponent : Component table t object) :
    t.RefersOnly P → RefersOnly P (.map none object) := by
  induction hcomponent with
  | object => exact fun ht => refersOnly_map.2 (refersOnly_map.1 ht)
  | part _ _ hget hmem _ ih => exact fun ht => ih (refersOnly_list.1 (ht.entry hget) _ hmem)
  | reference _ hnames _ ih => exact fun _ => ih (hnames.only h)

theorem only_leaves {owner : String} {t : Tree} {objects : List Entries} (ht : t.RefersOnly P)
    (hleaves : leaves table owner t = .ok objects) : ∀ object ∈ objects, RefersOnly P (.map none object) :=
  fun _ hobject => (component_of_mem hleaves hobject).only h ht

theorem only_branchObjects {union branch : String} {t : Tree} {objects : List Entries} (ht : t.RefersOnly P)
    (hobjects : branchObjects table union branch t = .ok objects) :
    ∀ object ∈ objects, RefersOnly P (.map none object) := by
  obtain ⟨kind, hkind, hobjects⟩ := ApiContract.bind_eq_ok.1 hobjects
  cases kind with
  | object =>
    cases hobjects
    cases t with
    | map a es => exact List.forall_mem_singleton.2 (refersOnly_map.2 (refersOnly_map.1 ht))
    | _ => exact nofun
  | allOf => exact only_leaves h ht hobjects
  | _ => cases hobjects

theorem only_branches {union : String} {schema : Entries} {bs : List (String × Tree)}
    (hbs : branches table union schema = .ok bs) : ∀ b ∈ bs, b.2.RefersOnly P := by
  obtain ⟨parts, -, hbs⟩ := ApiContract.bind_eq_ok.1 hbs
  intro b hb
  rcases names_of_branchesFrom hbs b hb with hnone | ⟨_, -, _, -, hnames⟩
  · cases hnone
  · exact hnames.only h

/-! ## Looking up schemas -/

theorem find_cases {reference : String} (hr : P reference) :
    (∃ f, find table reference = .error f ∧ find table' reference = .error f) ∨
      ∃ found found', find table reference = .ok found ∧ find table' reference = .ok found' ∧
        found.name = found'.name ∧ found.schema = found'.schema := by
  have hsame := (find_map reference).trans ((h.entry reference hr).trans (find_map reference).symm)
  cases hfound : find table reference with
  | error f =>
    cases hfound' : find table' reference with
    | error f' =>
      rw [hfound, hfound'] at hsame
      cases hsame
      exact .inl ⟨f, rfl, rfl⟩
    | ok found' =>
      rw [hfound, hfound'] at hsame
      cases hsame
  | ok found =>
    cases hfound' : find table' reference with
    | error f' =>
      rw [hfound, hfound'] at hsame
      cases hsame
    | ok found' =>
      rw [hfound, hfound'] at hsame
      obtain ⟨hname, hschema⟩ := Prod.mk.inj (Except.ok.inj hsame)
      exact .inr ⟨found, found', rfl, rfl, hname, hschema⟩

theorem resolve_congr {t : Tree} (ht : t.RefersOnly P) : resolve table t = resolve table' t := by
  unfold resolve
  cases href : Reference.ofTree? t with
  | none => rfl
  | some reference =>
    dsimp only
    rcases find_cases h (ht.reference href) with ⟨f, hf, hf'⟩ | ⟨found, found', hf, hf', -, hschema⟩
    · rw [hf, hf']
      rfl
    · rw [hf, hf']
      exact congrArg Except.ok hschema

theorem branchesFrom_congr (union : String) : ∀ (done : List (String × Tree)) (ts : List Tree),
    (∀ t ∈ ts, t.RefersOnly P) → branchesFrom table union done ts = branchesFrom table' union done ts
  | _, [], _ => rfl
  | done, t :: ts, hts => by
    obtain ⟨ht, hts⟩ := List.forall_mem_cons.1 hts
    unfold branchesFrom
    cases href : Reference.ofTree? t with
    | none => rfl
    | some reference =>
      rcases find_cases h (ht.reference href) with ⟨f, hf, hf'⟩ | ⟨found, found', hf, hf', hname, hschema⟩
      · simp only [hf, hf', bind, Except.bind]
      · simp only [hf, hf', bind, Except.bind, hname, hschema]
        exact branchesFrom_congr union _ ts hts

theorem branches_congr {schema : Entries} {a : Anchor} (hschema : RefersOnly P (.map a schema)) (union : String) :
    branches table union schema = branches table' union schema := by
  unfold branches
  cases hparts : partsOf schema "oneOf" with
  | error f => rfl
  | ok parts => exact branchesFrom_congr h union [] parts (only_partsOf hschema hparts)

theorem leavesOf_congr (owner : String) (path : List String) {reference : String} (hr : P reference) :
    leavesOf table owner path reference = leavesOf table' owner path reference := by
  rw [leavesOf, leavesOf]
  rcases find_cases h hr with ⟨f, hf, hf'⟩ | ⟨found, found', hf, hf', hname, hschema⟩
  · rw [hf, hf']
  · rw [hf, hf']
    dsimp only
    rw [← hname, ← hschema]
    split
    · rfl
    · exact leafCases_congr (fun r hr => leavesOf_congr owner (path ++ [found.name]) hr) found.schema
        (found.only h) .component
termination_by unvisited (names table) path
decreasing_by exact unvisited_append_lt (mem_names found.found) ‹_›

theorem leaves_congr (owner : String) {schema : Tree} (hschema : schema.RefersOnly P) :
    leaves table owner schema = leaves table' owner schema :=
  leafCases_congr (fun _ hr => leavesOf_congr h owner [] hr) schema hschema .component

theorem branchObjects_congr (union branch : String) {schema : Tree} (hschema : schema.RefersOnly P) :
    branchObjects table union branch schema = branchObjects table' union branch schema := by
  simp only [branchObjects, leaves_congr h union hschema]

/-! ## Types -/

section

variable {σ : Type} {typeOf typeOf' : Tree → RunOn σ TypeExpr}
  (htype : ∀ t : Tree, t.RefersOnly P → typeOf t = typeOf' t)
include htype

theorem fieldsOf_congr (required : List String) (exclude : Tree) :
    ∀ (taken : List String) (properties : List (Scalar × Tree)), (∀ e ∈ properties, e.2.RefersOnly P) →
      fieldsOf table typeOf required exclude taken properties =
        fieldsOf table' typeOf' required exclude taken properties
  | _, [], _ => rfl
  | taken, (key, schema) :: rest, hproperties => by
    obtain ⟨hschema, hrest⟩ := List.forall_mem_cons.1 hproperties
    have hfields := fun taken => fieldsOf_congr required exclude taken rest hrest
    rw [fieldsOf.eq_def, fieldsOf.eq_def]
    simp only [hfields, resolve_congr h hschema, htype schema hschema]

theorem body_congr (owner : String) {objects : List Entries} (exclude : Tree)
    (hobjects : ∀ object ∈ objects, RefersOnly P (.map none object)) :
    body table typeOf owner objects exclude = body table' typeOf' owner objects exclude := by
  refine lift_bind_congr fun merged hmerged => ?_
  obtain ⟨hproperties, hadditional⟩ := (Merged.from_of_merge hmerged).only hobjects
  rw [fieldsOf_congr h htype _ _ _ _ hproperties, htype _ hadditional]

theorem variantsFrom_congr (union : String) (exclude : Tree) :
    ∀ (taken : List String) (l : List (Option String × String × Tree)), (∀ b ∈ l, b.2.2.RefersOnly P) →
      variantsFrom table typeOf union exclude taken l = variantsFrom table' typeOf' union exclude taken l
  | _, [], _ => rfl
  | taken, (tag, branch, schema) :: rest, hl => by
    obtain ⟨hschema, hrest⟩ := List.forall_mem_cons.1 hl
    have hvariant : variant table typeOf union exclude taken tag branch schema =
        variant table' typeOf' union exclude taken tag branch schema := by
      unfold variant
      rw [← branchObjects_congr h union branch hschema]
      refine lift_bind_congr fun objects hobjects => ?_
      rw [body_congr h htype union exclude (only_branchObjects h hschema hobjects)]
    have hvariants := fun taken => variantsFrom_congr union exclude taken rest hrest
    simp only [variantsFrom, hvariant, hvariants]

variable {schema : Entries} {a : Anchor} (hschema : RefersOnly P (.map a schema))
include hschema

theorem taggedUnion_congr (name schemaName : String) (discriminator : Entries) :
    taggedUnion table typeOf name schemaName schema discriminator =
      taggedUnion table' typeOf' name schemaName schema discriminator := by
  unfold taggedUnion
  dsimp only
  split
  · exact lift_bind_congr (r := .error _) nofun
  · rw [← branches_congr h hschema]
    refine lift_bind_congr fun bs hbs => lift_bind_congr fun mapping _ => lift_bind_congr fun mapped _ => ?_
    rw [variantsFrom_congr h htype]
    refine List.forall_mem_map.2 fun b _ => ?_
    cases hlookup : bs.lookup b.2 with
    | none => exact refersOnly_scalar
    | some t => exact only_branches h hbs _ (mem_of_lookup hlookup)

theorem untaggedUnion_congr [Noting σ] (name schemaName : String) :
    untaggedUnion table typeOf name schemaName schema =
      untaggedUnion table' typeOf' name schemaName schema := by
  unfold untaggedUnion
  rw [← branches_congr h hschema]
  refine lift_bind_congr fun bs hbs => ?_
  rw [variantsFrom_congr h htype _ _ _ _ (List.forall_mem_map.2 fun b hb => only_branches h hbs b hb)]

omit hschema in
theorem record_congr (name schemaName : String) (schema : Entries) {objects : List Entries}
    (hobjects : ∀ object ∈ objects, RefersOnly P (.map none object)) :
    record table typeOf name schemaName schema objects =
      record table' typeOf' name schemaName schema objects := by
  unfold record
  rw [body_congr h htype name .null hobjects]

omit hschema in
/-- The named type of a schema, if the type expressions of schemas are the same. -/
theorem schemaType_congr [Noting σ] (name schemaName : String) {tree : Tree} (htree : tree.RefersOnly P) :
    schemaType table typeOf name schemaName tree = schemaType table' typeOf' name schemaName tree := by
  unfold schemaType
  cases tree with
  | map a schema =>
    refine lift_bind_congr fun kind _ => ?_
    have hself : ∀ object ∈ [schema], RefersOnly P (.map none object) :=
      List.forall_mem_singleton.2 (refersOnly_map.2 (refersOnly_map.1 htree))
    cases kind with
    | object => simp only [record_congr h htype name schemaName schema hself]
    | oneOf => simp only [taggedUnion_congr h htype htree, untaggedUnion_congr h htype htree]
    | allOf =>
      have hbeside := only_besideReference htree
      dsimp only
      rw [← leaves_congr h name hbeside]
      refine lift_bind_congr fun objects hobjects => ?_
      rw [record_congr h htype name schemaName schema (only_leaves h hbeside hobjects)]
    | _ => rfl
  | _ => rfl

end

/-! ## Compiling anew -/

theorem namedAnew_congr {path : List String} {name : String} {schema : Tree} (hschema : schema.RefersOnly P)
    {follow follow' : Text.typeIdentifier name ∉ path → String → RunOn Unit TypeExpr}
    (hf : ∀ hn r, P r → follow hn r = follow' hn r) :
    namedAnew table path name schema follow = namedAnew table' path name schema follow' := by
  unfold namedAnew
  dsimp only
  split
  · rfl
  · exact schemaType_congr h (fun _ ht => typeWith_congr ht (hf _)) _ _ hschema

/-- What a reference stands for. -/
theorem typeAnew_congr (path : Path) {reference : String} (hr : P reference) :
    typeAnew table path reference = typeAnew table' path reference := by
  rw [typeAnew, typeAnew]
  rcases find_cases h hr with ⟨f, hf, hf'⟩ | ⟨found, found', hf, hf', hname, hschema⟩
  · rw [hf, hf']
    rfl
  · rw [hf, hf', lift_ok_bind, lift_ok_bind, ← hname, ← hschema]
    have honly := found.only h
    rw [namedAnew_congr h honly fun _ r hr => typeAnew_congr
      ⟨path.types ++ [Text.typeIdentifier found.name], path.inlines⟩ hr]
    refine congrArg _ (funext fun type => ?_)
    split
    · rfl
    · split
      · rfl
      · exact typeWith_congr honly fun r hr => typeAnew_congr ⟨path.types, path.inlines ++ [found.name]⟩ hr
termination_by path.rest table
decreasing_by
  · exact found.rest_type_lt ‹_›
  · exact found.rest_inline_lt ‹_›

/-! ## Runs that remember -/

theorem named_congr {path : List String} {name : String} {schema : Tree} (hschema : schema.RefersOnly P)
    {follow follow' : Text.typeIdentifier name ∉ path → String → Run TypeExpr}
    (hf : ∀ hn r, P r → follow hn r = follow' hn r) :
    named table path name schema follow = named table' path name schema follow' := by
  unfold named
  have hmade : ∀ hn, schemaType table (typeWith (follow hn)) (Text.typeIdentifier name) name schema =
      schemaType table' (typeWith (follow' hn)) (Text.typeIdentifier name) name schema := fun hn =>
    schemaType_congr h (fun _ ht => typeWith_congr ht (hf hn)) _ _ hschema
  simp only [hmade]

/-- What following a reference does. -/
theorem typeOfReference_congr (path : Path) {reference : String} (hr : P reference) :
    typeOfReference table path reference = typeOfReference table' path reference := by
  rw [typeOfReference, typeOfReference]
  rcases find_cases h hr with ⟨f, hf, hf'⟩ | ⟨found, found', hf, hf', hname, hschema⟩
  · rw [hf, hf']
    rfl
  · rw [hf, hf', lift_ok_bind, lift_ok_bind, ← hname, ← hschema]
    have honly := found.only h
    rw [named_congr h honly fun _ r hr => typeOfReference_congr
      ⟨path.types ++ [Text.typeIdentifier found.name], path.inlines⟩ hr]
    refine congrArg _ (funext fun type => ?_)
    split
    · rfl
    · refine congrArg _ (funext fun s => ?_)
      split
      · rfl
      · split
        · rfl
        · rw [typeWith_congr honly fun r hr =>
            typeOfReference_congr ⟨path.types, path.inlines ++ [found.name]⟩ hr]
termination_by path.rest table
decreasing_by
  · exact found.rest_type_lt ‹_›
  · exact found.rest_inline_lt ‹_›

theorem entry_congr (name : String) {schema : Tree} (hschema : schema.RefersOnly P) :
    entry table name schema = entry table' name schema :=
  named_congr h hschema fun _ _ hr => typeOfReference_congr h ⟨[Text.typeIdentifier name], []⟩ hr

/-- Compiling entries that refer in the same way. -/
theorem entries_congr : ∀ {es : Entries}, (∀ e ∈ es, e.2.RefersOnly P) → entries table es = entries table' es
  | [], _ => rfl
  | (key, schema) :: es, hes => by
    obtain ⟨hschema, hrest⟩ := List.forall_mem_cons.1 hes
    have hentries := entries_congr hrest
    simp only [entries, hentries, entry_congr h _ hschema]

end

/-! ## Tables in another order -/

/-- Every name leads to the same schema. -/
def SameEntries (table table' : Entries) : Prop := ∀ n, table.get? n = table'.get? n

/-- A table with unique keys leads to the same schemas in every order. -/
theorem sameEntries_of_perm (hkeys : (table.map (·.1)).Nodup) (h : table.Perm table') :
    SameEntries table table' := by
  intro n
  cases hn : table.get? n with
  | some t =>
    have hmem := h.mem_iff.1 (Entries.mem_of_at? hn)
    exact (Entries.at?_of_mem ((h.map _).nodup_iff.1 hkeys) hmem).symm
  | none =>
    cases hn' : table'.get? n with
    | none => rfl
    | some t =>
      have hmem := h.mem_iff.2 (Entries.mem_of_at? hn')
      cases hn.symm.trans (Entries.at?_of_mem hkeys hmem)

section

variable (h : SameEntries table table')
include h

theorem SameEntries.isEntry {n : String} {schema : Tree} :
    IsEntry table n schema ↔ IsEntry table' n schema :=
  ⟨fun hentry => ⟨(h n).symm.trans hentry.found, hentry.direct⟩,
    fun hentry => ⟨(h n).trans hentry.found, hentry.direct⟩⟩

theorem SameEntries.agreeOn : AgreeOn (fun _ => True) table table' :=
  ⟨fun reference _ => by rw [funext h], fun _ _ _ _ => trivial⟩

/-- The named type of an entry. -/
theorem entryAnew_congr (path : Path) (name : String) (schema : Tree) :
    entryAnew table path name schema = entryAnew table' path name schema :=
  namedAnew_congr h.agreeOn (fun _ _ => trivial) fun _ _ hr =>
    typeAnew_congr h.agreeOn ⟨path.types ++ [Text.typeIdentifier name], path.inlines⟩ hr

end

end ApiContract.Compile
