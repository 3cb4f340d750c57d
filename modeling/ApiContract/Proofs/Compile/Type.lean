import ApiContract.Proofs.Compile.Schema

/-!
# Named types after naming

The parts of compositions are objects (`Tidy.leaves`), and records and unions are made of their
properties, which have type expressions. So the named type of a schema fails for no reason that has to
do with names, and a schema without one has a type expression (`ends_schemaType`).
-/

namespace ApiContract.Compile

open Tree Naming

variable {I : List NamedType → Prop} {table : Entries} {owner : String}

/-! ## Compositions -/

/-- As what a part is prepared, by its role. -/
def Role.stand : Role → Stand
  | .component => .own
  | .list => .parts

section

variable {follow : String → Except Failure (List Entries)}

variable (hf : ∀ r, Fits (follow r) fun os => ∀ o ∈ os, Leaf o)
include hf

/-- The object schemas of a part that is a map. -/
theorem fits_leafCases_map {a : Anchor} {es : Entries} (hp : Prepared .own (.map a es))
    (ih : ∀ x, es.at? (.text "allOf") = some x → Prepared .parts x →
      Fits (x.para (leafCases follow owner) .list) fun os => ∀ o ∈ os, Leaf o) :
    Fits ((Tree.map a es).para (leafCases follow owner) .component) fun os => ∀ o ∈ os, Leaf o := by
  rw [leafCases_map]
  split
  · exact hf _
  · rename_i hr
    have hproper : Proper (.map a es) := ⟨hp, hr⟩
    obtain ⟨kind, hfair, hparts⟩ := hproper.fair
    rw [hfair.kind]
    cases kind with
    | object =>
      show ∀ o ∈ [es], Leaf o
      rw [List.forall_mem_singleton]
      exact hproper.leaf hfair.kind
    | allOf =>
      simp only [Entries.lookup_children (fun x => x.para (leafCases follow owner)),
        bind, Except.bind]
      cases hx : es.at? (.text "allOf") with
      | none => exact fun o ho => absurd ho List.not_mem_nil
      | some x => exact ih x hx (hparts _ (Entries.mem_of_at? hx))
    | _ => rfl

theorem fits_leafCases (t : Tree) :
    ∀ role : Role, Prepared role.stand t →
      Fits (t.para (leafCases follow owner) role) fun os => ∀ o ∈ os, Leaf o := by
  have hnil : ∀ o ∈ ([] : List Entries), Leaf o := fun o ho => absurd ho List.not_mem_nil
  induction t using Tree.induct with
  | map a es ih =>
    intro role h
    cases role with
    | component =>
      exact fits_leafCases_map hf h fun x hx => ih _ (Entries.mem_of_at? hx) .list
    | list =>
      simp only [para, leafCases]
      split
      · exact hnil
      · rfl
  | list a ts ih =>
    intro role h
    cases role with
    | component => rfl
    | list =>
      have hts : ∀ x ∈ ts, Prepared .own x := by
        cases h with
        | skip hs => cases hs
        | list _ hts => exact hts
      simp only [para, paraItems_eq, leafCases]
      refine Fits.bind (fits_mapM (R := fun os => ∀ o ∈ os, Leaf o) fun p hp => ?_) fun os hos => ?_
      · obtain ⟨x, hx, rfl⟩ := List.mem_map.1 hp
        exact ih x hx .component (hts x hx)
      · show ∀ o ∈ os.flatten, Leaf o
        intro o ho
        obtain ⟨l, hl, ho⟩ := List.mem_flatten.1 ho
        exact hos l hl o ho
  | scalar s =>
    intro role h
    cases role with
    | component => rfl
    | list =>
      simp only [para, leafCases]
      refine Fits.bind (P := fun _ => True) ?_ fun parts _ =>
        (fits_forIn (I := fun _ => True) trivial fun _ _ part _ => ?_).bind fun _ _ => hnil
      · split
        · exact (local_iterate _).fits
        · trivial
      · exact (local_kindOf part).fits.bind fun _ _ => trivial
  | set a ms =>
    intro role h
    cases role with
    | component => rfl
    | list =>
      simp only [para, leafCases]
      split
      · exact hnil
      · rfl
  | _ => exact fun _ _ => rfl

end

variable (ht : Tidy table)
include ht

theorem Tidy.leavesOf (path : List String) (reference : String) :
    Fits (leavesOf table owner path reference) fun os => ∀ o ∈ os, Leaf o := by
  rw [Compile.leavesOf]
  have hfind := ht.find reference
  split
  · rename_i hf
    rw [hf] at hfind
    exact hfind
  · rename_i found hf
    rw [hf] at hfind
    split
    · rfl
    · exact fits_leafCases (fun r => Tidy.leavesOf (path ++ [found.name]) r) _ .component hfind.1
termination_by unvisited (names table) path
decreasing_by exact unvisited_append_lt (mem_names (Found.found _)) ‹_›

/-- The object schemas at the leaves of a composition. -/
theorem Tidy.leaves {t : Tree} (hp : Prepared .own t) :
    Fits (leaves table owner t) fun os => ∀ o ∈ os, Leaf o :=
  fits_leafCases (fun r => ht.leavesOf [] r) t .component hp

omit ht

/-! ## Records -/

/-- What several object schemas make together stands inline. -/
structure Merged.Fair (m : Merged) : Prop where
  properties : ∀ p ∈ m.properties, Prepared .inline p.2
  additional : Prepared .inline m.additional

theorem Merged.Fair.addProperty {m : Merged} {key : Scalar} {schema : Tree} (hm : m.Fair)
    (hs : Prepared .inline schema) : Fits (m.addProperty owner key schema) Merged.Fair := by
  have hput : Merged.Fair { m with properties := Entries.put key schema m.properties } := by
    refine ⟨fun p hp => ?_, hm.additional⟩
    rcases Entries.mem_put hp with rfl | hp
    · exact hs
    · exact hm.properties p hp
  unfold Merged.addProperty
  split
  · split
    · rfl
    · exact hput
  · exact hput

theorem fits_entriesOf {es : Entries} {key : String} {Q : Scalar × Tree → Prop}
    (h : ∀ a fs, es.get? key = some (.map a fs) → ∀ e ∈ fs, Q e) :
    Fits (entriesOf es key) fun fs => ∀ e ∈ fs, Q e := by
  unfold entriesOf Entries.orNull
  dsimp only
  split
  · exact fun e he => absurd he List.not_mem_nil
  · cases hx : es.get? key with
    | none => rfl
    | some x =>
      cases x with
      | map a fs => exact h a fs hx
      | _ => rfl

theorem Merged.Fair.add {m : Merged} {object : Entries} (hm : m.Fair) (ho : Leaf object) :
    Fits (m.add owner object) Merged.Fair := by
  have hproperties : Fits (entriesOf object "properties") fun fs =>
      ∀ e ∈ fs, Prepared .inline e.2 := by
    refine fits_entriesOf fun a fs hx e he => ?_
    cases ho.properties _ hx with
    | skip hs => cases hs
    | map _ hes => exact hes e he
  unfold Merged.add
  refine hproperties.bind fun fs hfs => ?_
  refine (fits_foldlM (I := Merged.Fair) hm fun m hm e he => hm.addProperty (hfs e he)).bind
    fun m hm => ?_
  refine (local_partsOf object "required").fits.bind fun parts _ => ?_
  refine (local_requiredNames parts).fits.bind fun names _ => ?_
  split
  · exact ⟨hm.properties, hm.additional⟩
  · rename_i hadd
    have hprepared : Prepared .inline (object.orNull "additionalProperties") := by
      rw [Entries.orNull]
      cases hx : object.get? "additionalProperties" with
      | none => exact .skip rfl
      | some x => exact ho.additional x hx
    dsimp only
    split
    · rfl
    · exact ⟨hm.properties, hprepared⟩

theorem fits_merge {objects : List Entries} (ho : ∀ o ∈ objects, Leaf o) :
    Fits (merge owner objects) Merged.Fair :=
  fits_foldlM ⟨fun _ hp => absurd hp List.not_mem_nil, .skip rfl⟩ fun _ hm o hmem =>
    hm.add (ho o hmem)

variable {typeOf : Tree → Run TypeExpr} (htype : ∀ t, Prepared .inline t → Keeps I (typeOf t))
include htype

theorem keeps_fieldsOf {required : List String} {exclude : Tree} :
    ∀ {taken : List String} {properties : List (Scalar × Tree)},
      (∀ p ∈ properties, Prepared .inline p.2) →
      Keeps I (fieldsOf table typeOf required exclude taken properties)
  | _, [], _ => keeps_pure _
  | taken, (key, schema) :: rest, h => by
    obtain ⟨hs, hrest⟩ := List.forall_mem_cons.1 h
    rw [fieldsOf.eq_def]
    dsimp only
    split
    · exact keeps_fieldsOf hrest
    · split
      · refine (htype _ hs).bind fun type => Keeps.lift_bind (local_resolve table schema).fits fun target _ => ?_
        split
        · exact keeps_throw rfl
        · exact Keeps.lift_bind (local_textField _ _).fits fun _ _ =>
            (keeps_fieldsOf hrest).bind fun _ => keeps_pure _
      · exact keeps_throw rfl

theorem keeps_body {objects : List Entries} {exclude : Tree} (ho : ∀ o ∈ objects, Leaf o) :
    Keeps I (body table typeOf owner objects exclude) := by
  refine Keeps.lift_bind (fits_merge ho) fun merged hm => ?_
  refine (keeps_fieldsOf htype hm.properties).bind fun fields => ?_
  exact (keeps_additionalType fun p hp => by cases hp; exact htype _ hm.additional).bind
    fun extra => keeps_pure _

/-! ## Unions -/

omit htype in
theorem fits_branchesFrom (ht : Tidy table) {union : String} :
    ∀ {done : List (String × Tree)} {parts : List Tree}, (∀ b ∈ done, Proper b.2) →
      Fits (branchesFrom table union done parts) fun bs => ∀ b ∈ bs, Proper b.2
  | _, [], hdone => hdone
  | done, t :: rest, hdone => by
    rw [branchesFrom]
    split
    · rfl
    · refine (ht.find _).bind fun found hfound => fits_branchesFrom ht ?_
      split
      · exact hdone
      · rw [List.forall_mem_append, List.forall_mem_singleton]
        exact ⟨hdone, hfound⟩

omit htype in
theorem fits_branches (ht : Tidy table) (union : String) (schema : Entries) :
    Fits (branches table union schema) fun bs => ∀ b ∈ bs, Proper b.2 :=
  (local_partsOf schema "oneOf").fits.bind fun _ _ =>
    fits_branchesFrom ht fun _ hb => absurd hb List.not_mem_nil

omit htype in
/-- The object schemas of a branch. -/
theorem fits_branchObjects (ht : Tidy table) {union branch : String} {schema : Tree}
    (hs : Proper schema) :
    Fits (branchObjects table union branch schema) fun os => ∀ o ∈ os, Leaf o := by
  cases schema with
  | map a es =>
    obtain ⟨kind, hfair, -⟩ := hs.fair
    have hkind : Schema.kindOf (.map a es) = .ok kind := hfair.kind
    rw [branchObjects, hkind]
    cases kind with
    | object =>
      show ∀ o ∈ [es], Leaf o
      rw [List.forall_mem_singleton]
      exact hs.leaf hfair.kind
    | allOf => exact ht.leaves hs.1
    | _ => rfl
  | _ => rfl

theorem keeps_variant (ht : Tidy table) {union : String} {exclude : Tree} {taken : List String}
    {tag : Option String} {branch : String} {schema : Tree} (hs : Proper schema) :
    Keeps I (variant table typeOf union exclude taken tag branch schema) :=
  Keeps.lift_bind (fits_branchObjects ht hs) fun _ ho => (keeps_body htype ho).bind fun _ =>
    Keeps.lift_bind (local_textField _ _).fits fun _ _ => keeps_pure _

theorem keeps_variantsFrom (ht : Tidy table) {union : String} {exclude : Tree} :
    ∀ {taken : List String} {l : List (Option String × String × Tree)}, (∀ v ∈ l, Proper v.2.2) →
      Keeps I (variantsFrom table typeOf union exclude taken l)
  | _, [], _ => keeps_pure _
  | _, (tag, branch, schema) :: rest, h => by
    obtain ⟨hs, hrest⟩ := List.forall_mem_cons.1 h
    exact (keeps_variant htype ht hs).bind fun v => (keeps_variantsFrom ht hrest).bind fun _ => keeps_pure _

theorem keeps_taggedUnion (ht : Tidy table) {name schemaName : String}
    {schema discriminator : Entries} :
    Keeps I (taggedUnion table typeOf name schemaName schema discriminator) := by
  unfold taggedUnion
  dsimp only
  split
  · exact keeps_throw rfl
  · refine Keeps.lift_bind (fits_branches ht name schema) fun branches hbranches => ?_
    refine Keeps.lift_bind (fits_entriesOf (Q := fun _ => True) fun _ _ _ _ _ => trivial)
      fun mapping _ => ?_
    refine Keeps.lift_bind (local_mappedTags name branches mapping).fits fun mapped _ => ?_
    refine (keeps_variantsFrom htype ht fun v hv => ?_).bind fun variants => ?_
    · obtain ⟨⟨tag, branch⟩, -, rfl⟩ := List.mem_map.1 hv
      dsimp only
      cases hb : branches.lookup branch with
      | none => exact ⟨.skip rfl, rfl⟩
      | some schema => exact hbranches _ (mem_of_lookup hb)
    · refine Keeps.lift_bind (local_textFields _).fits fun texts _ => ?_
      split
      · exact keeps_pure _
      · exact keeps_throw rfl

theorem keeps_untaggedUnion (ht : Tidy table) {name schemaName : String} {schema : Entries} :
    Keeps I (untaggedUnion table typeOf name schemaName schema) := by
  refine Keeps.lift_bind (fits_branches ht name schema) fun branches hbranches => ?_
  refine (keeps_variantsFrom htype ht fun v hv => ?_).bind fun variants => ?_
  · obtain ⟨b, hb, rfl⟩ := List.mem_map.1 hv
    exact hbranches b hb
  · exact Keeps.bind (keeps_modify fun _ => rfl) fun _ =>
      Keeps.lift_bind (local_textField _ _).fits fun _ _ => keeps_pure _

/-! ## Named types -/

theorem keeps_record {name schemaName : String} {schema : Entries} {objects : List Entries}
    (ho : ∀ o ∈ objects, Leaf o) : Keeps I (record table typeOf name schemaName schema objects) :=
  (keeps_body htype ho).bind fun _ => Keeps.lift_bind (local_textField _ _).fits fun _ _ => keeps_pure _

omit htype in
theorem fits_enumeration {name schemaName : String} {schema : Entries} {kind : SchemaKind} :
    Fits (enumeration name schemaName schema kind) fun r =>
      r = none → (Schema.literals schema).isEmpty = true := by
  unfold enumeration
  dsimp only
  split
  · exact fun _ => ‹_›
  · split
    · rfl
    · refine (local_textField _ _).fits.bind fun _ _ => ?_
      exact nofun

/-- A schema without a named type has a type expression. -/
theorem ends_schemaType (ht : Tidy table) {name schemaName : String} {tree : Tree} {s : State}
    (hp : Proper tree) (hI : I s.types) : Ends (schemaType table typeOf name schemaName tree) s
      fun r s' => I s'.types ∧ (r = none → ∃ a es, tree = .map a es ∧ HasExpression es) := by
  cases tree with
  | map a es =>
    obtain ⟨kind, hfair, -⟩ := hp.fair
    have hsome : ∀ {m : Run NamedType}, Keeps I m → Ends (some <$> m) s fun r s' =>
        I s'.types ∧ (r = none → ∃ b fs, Tree.map a es = .map b fs ∧ HasExpression fs) := by
      intro m hm
      rw [map_eq_pure_bind]
      exact (hm.ends hI).bind fun _ _ hs' => ends_pure ⟨hs', nofun⟩
    have hnone : HasExpression es → Ends (pure none : Run (Option NamedType)) s fun r s' =>
        I s'.types ∧ (r = none → ∃ b fs, Tree.map a es = .map b fs ∧ HasExpression fs) :=
      fun h => ends_pure ⟨hI, fun _ => ⟨a, es, rfl, h⟩⟩
    unfold schemaType
    dsimp only [Tree.entries?]
    rw [HasExpression, hfair.kind] at hnone
    rw [hfair.kind, lift_ok_bind]
    cases kind with
    | object =>
      dsimp only
      split
      · rename_i hfalsy
        exact hnone (by simpa using hfalsy)
      · refine hsome (keeps_record htype ?_)
        rw [List.forall_mem_singleton]
        exact hp.leaf hfair.kind
    | array => exact hnone trivial
    | oneOf =>
      dsimp only
      split
      · exact hsome (keeps_taggedUnion htype ht)
      · exact hsome (keeps_untaggedUnion htype ht)
    | allOf =>
      dsimp only
      rw [besideReference_of_direct hp.2]
      exact Ends.lift_bind (ht.leaves hp.1) fun os ho => hsome (keeps_record htype ho)
    | anyOf | not => exact ends_throw rfl
    | any =>
      rw [hfair.trivial rfl, lift_ok_bind]
      exact hnone (hfair.trivial rfl)
    | _ =>
      refine ends_lift (fits_enumeration.mono fun r hr => ⟨hI, fun h => ⟨a, es, rfl, ?_⟩⟩)
      rw [HasExpression, hfair.kind]
      exact hr h
  | _ => exact ends_throw rfl

end ApiContract.Compile
