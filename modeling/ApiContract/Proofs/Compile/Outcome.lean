import ApiContract.Proofs.Except
import ApiContract.TypeModel.Compile
import Mathlib.Data.List.Forall2

/-!
# Runs of the compiler that end well

A run that ends well is an equation `m s = (.ok a, s')`. The lemmas take such runs apart.
-/

namespace ApiContract.Compile

variable {σ α β : Type} {s s' : σ}

theorem bind_eq_ok {m : RunOn σ α} {f : α → RunOn σ β} {b : β} :
    (m >>= f) s = (.ok b, s') ↔ ∃ a s₁, m s = (.ok a, s₁) ∧ f a s₁ = (.ok b, s') := by
  simp only [bind, ExceptT.bind, ExceptT.mk, ExceptT.bindCont, StateT.bind]
  rcases m s with ⟨_ | a, s₁⟩
  · constructor
    · intro h; cases h
    · rintro ⟨_, _, ⟨⟩, _⟩
  · constructor
    · exact fun h => ⟨a, s₁, rfl, h⟩
    · rintro ⟨_, _, ⟨⟩, h⟩
      exact h

theorem pure_eq_ok {a b : α} : (pure a : RunOn σ α) s = (.ok b, s') ↔ a = b ∧ s = s' := by
  show ((.ok a, s) : Except Failure α × σ) = (.ok b, s') ↔ _
  rw [Prod.mk.injEq, Except.ok.injEq]

theorem lift_eq_ok {r : Except Failure α} {a : α} :
    lift r s = (.ok a, s') ↔ r = .ok a ∧ s = s' := by
  rw [lift, Prod.mk.injEq]

/-- What is done with the items of a list in order is done well with each. -/
theorem mapM_eq_ok {f : α → RunOn σ β} : ∀ {as : List α} {bs : List β} {s s' : σ},
    as.mapM f s = (.ok bs, s') → List.Forall₂ (fun a b => ∃ s s', f a s = (.ok b, s')) as bs
  | [], _, _, _, h => by
    obtain ⟨rfl, -⟩ := pure_eq_ok.1 h
    exact .nil
  | a :: as, _, _, _, h => by
    rw [List.mapM_cons] at h
    obtain ⟨b, s₁, hb, h⟩ := bind_eq_ok.1 h
    obtain ⟨bs, s₂, hbs, h⟩ := bind_eq_ok.1 h
    obtain ⟨rfl, -⟩ := pure_eq_ok.1 h
    exact .cons ⟨_, _, hb⟩ (mapM_eq_ok hbs)

theorem some_eq_ok {m : RunOn σ α} {a : α} :
    (some <$> m) s = (.ok (some a), s') ↔ m s = (.ok a, s') := by
  rw [map_eq_pure_bind, bind_eq_ok]
  constructor
  · rintro ⟨b, s₁, hb, h⟩
    obtain ⟨heq, rfl⟩ := pure_eq_ok.1 h
    cases heq
    exact hb
  · exact fun h => ⟨a, s', h, rfl⟩

/-! ## Records and unions -/

section

variable {table : Entries} {typeOf : Tree → RunOn σ TypeExpr} {union name schemaName : String}
  {schema : Entries} {t : NamedType}

/-- The fields of a record are made one by one of the properties that are not left out. -/
theorem fieldsOf_eq_ok {required : List String} {exclude : Tree} :
    ∀ {taken : List String} {properties : List (Scalar × Tree)} {fields : List Field} {s s' : σ},
      fieldsOf table typeOf required exclude taken properties s = (.ok fields, s') →
        List.Forall₂ (fun p f => p.1 = .text f.wireName ∧ f.required = required.contains f.wireName)
          (properties.filter fun p => Tree.scalar p.1 != exclude) fields
  | _, [], _, _, _, h => by
    obtain ⟨rfl, -⟩ := pure_eq_ok.1 h
    exact .nil
  | _, (key, schema) :: rest, fields, _, _, h => by
    rw [fieldsOf.eq_def] at h
    dsimp only at h
    split at h
    · rename_i hexclude
      rw [List.filter_cons_of_neg (by simpa using hexclude)]
      exact fieldsOf_eq_ok h
    · rename_i hexclude
      rw [List.filter_cons_of_pos (by simpa using hexclude)]
      cases key with
      | text wireName =>
        obtain ⟨type, s₁, -, h⟩ := bind_eq_ok.1 h
        obtain ⟨target, _, -, h⟩ := bind_eq_ok.1 h
        split at h
        · cases h
        · obtain ⟨description, _, -, h⟩ := bind_eq_ok.1 h
          obtain ⟨fields, _, hfields, h⟩ := bind_eq_ok.1 h
          obtain ⟨rfl, -⟩ := pure_eq_ok.1 h
          exact .cons ⟨rfl, rfl⟩ (fieldsOf_eq_ok hfields)
      | _ => cases h

/-- No field is made of the property that is left out. -/
theorem wireName_ne_of_body {objects : List Entries} {exclude : Tree} {b : Body}
    (h : body table typeOf union objects exclude s = (.ok b, s')) {f : Field} (hf : f ∈ b.fields) :
    .text f.wireName ≠ exclude := by
  obtain ⟨merged, _, -, h⟩ := bind_eq_ok.1 h
  obtain ⟨fields, _, hfields, h⟩ := bind_eq_ok.1 h
  obtain ⟨extra, _, -, h⟩ := bind_eq_ok.1 h
  obtain ⟨rfl, -⟩ := pure_eq_ok.1 h
  obtain ⟨p, hp, hkey, -⟩ := mem_of_forall₂_right (fieldsOf_eq_ok hfields) hf
  have hne := (List.mem_filter.1 hp).2
  rw [hkey] at hne
  simpa using hne

/-- The variants of a union are made one by one of its branches. -/
theorem variantsFrom_eq_ok {exclude : Tree} :
    ∀ {taken : List String} {branches : List (Option String × String × Tree)} {vs : List Variant}
      {s s' : σ}, variantsFrom table typeOf union exclude taken branches s = (.ok vs, s') →
        List.Forall₂ (fun b v => v.tag = b.1 ∧ v.schemaName = b.2.1 ∧ ∃ objects s s',
          branchObjects table union b.2.1 b.2.2 = .ok objects ∧
            body table typeOf union objects exclude s = (.ok v.body, s')) branches vs
  | _, [], _, _, _, h => by
    obtain ⟨rfl, -⟩ := pure_eq_ok.1 h
    exact .nil
  | _, (tag, branch, schema) :: rest, _, _, _, h => by
    obtain ⟨v, _, hv, h⟩ := bind_eq_ok.1 h
    obtain ⟨vs, _, hvs, h⟩ := bind_eq_ok.1 h
    obtain ⟨rfl, -⟩ := pure_eq_ok.1 h
    obtain ⟨objects, _, hobjects, hv⟩ := bind_eq_ok.1 hv
    obtain ⟨b, _, hb, hv⟩ := bind_eq_ok.1 hv
    obtain ⟨description, _, -, hv⟩ := bind_eq_ok.1 hv
    obtain ⟨rfl, -⟩ := pure_eq_ok.1 hv
    exact .cons ⟨rfl, rfl, objects, _, _, (lift_eq_ok.1 hobjects).1, hb⟩ (variantsFrom_eq_ok hvs)

theorem record_eq_ok {objects : List Entries}
    (h : record table typeOf name schemaName schema objects s = (.ok t, s')) :
    ∃ b description, body table typeOf name objects .null s = (.ok b, s') ∧
      t = ⟨name, schemaName, description, .record b⟩ := by
  obtain ⟨b, _, hb, h⟩ := bind_eq_ok.1 h
  obtain ⟨description, _, hdescription, h⟩ := bind_eq_ok.1 h
  obtain ⟨-, rfl⟩ := lift_eq_ok.1 hdescription
  obtain ⟨rfl, rfl⟩ := pure_eq_ok.1 h
  exact ⟨b, description, hb, rfl⟩

theorem taggedUnion_eq_ok {discriminator : Entries}
    (h : taggedUnion table typeOf name schemaName schema discriminator s = (.ok t, s')) :
    ∃ description key variants branches mapping mapped,
      textFields [("description", schema.orNull "description"),
        ("discriminator", discriminator.orNull "propertyName")] = .ok [description, some key] ∧
      Compile.branches table name schema = .ok branches ∧ entriesOf discriminator "mapping" = .ok mapping ∧
      mappedTags name branches mapping = .ok mapped ∧
      variantsFrom table typeOf name (discriminator.orNull "propertyName") []
        ((tagBranches mapped branches).map fun m =>
          (some m.1, m.2, (branches.lookup m.2).getD .null)) s = (.ok variants, s') ∧
      t = ⟨name, schemaName, description, .tagged (some key) variants⟩ := by
  unfold taggedUnion at h
  dsimp only at h
  split at h
  · cases h
  · obtain ⟨branches, _, hlift, h⟩ := bind_eq_ok.1 h
    obtain ⟨hbranches, rfl⟩ := lift_eq_ok.1 hlift
    obtain ⟨mapping, _, hlift, h⟩ := bind_eq_ok.1 h
    obtain ⟨hmapping, rfl⟩ := lift_eq_ok.1 hlift
    obtain ⟨mapped, _, hlift, h⟩ := bind_eq_ok.1 h
    obtain ⟨hmapped, rfl⟩ := lift_eq_ok.1 hlift
    obtain ⟨variants, _, hvariants, h⟩ := bind_eq_ok.1 h
    obtain ⟨texts, _, hlift, h⟩ := bind_eq_ok.1 h
    obtain ⟨htexts, rfl⟩ := lift_eq_ok.1 hlift
    split at h
    · obtain ⟨rfl, rfl⟩ := pure_eq_ok.1 h
      exact ⟨_, _, variants, branches, mapping, mapped, htexts, hbranches, hmapping, hmapped, hvariants, rfl⟩
    · cases h

theorem untaggedUnion_eq_ok [Noting σ]
    (h : untaggedUnion table typeOf name schemaName schema s = (.ok t, s')) :
    ∃ (description : Option String) (variants : List Variant) (branches : List (String × Tree)) (s₁ : σ),
      variantsFrom table typeOf name .null [] (branches.map fun (n, t) => (none, n, t)) s =
        (.ok variants, s₁) ∧
      s' = Noting.note (overlapNotices name variants) s₁ ∧
      t = ⟨name, schemaName, description, .untagged variants⟩ := by
  obtain ⟨branches, _, hbranches, h⟩ := bind_eq_ok.1 h
  obtain ⟨-, rfl⟩ := lift_eq_ok.1 hbranches
  obtain ⟨variants, s₁, hvariants, h⟩ := bind_eq_ok.1 h
  obtain ⟨_, s₂, hnotices, h⟩ := bind_eq_ok.1 h
  obtain ⟨description, _, hdescription, h⟩ := bind_eq_ok.1 h
  obtain ⟨-, rfl⟩ := lift_eq_ok.1 hdescription
  obtain ⟨rfl, rfl⟩ := pure_eq_ok.1 h
  cases hnotices
  exact ⟨description, variants, branches, s₁, hvariants, rfl, rfl⟩

/-- An enumeration has a member for each of its literals, with the names that are made of these. -/
theorem enumeration_eq_some {kind : SchemaKind}
    (h : enumeration name schemaName schema kind = .ok (some t)) :
    ∃ description values, t = ⟨name, schemaName, description,
      .enumeration (((Literal.memberNames values).zip values).map fun m => ⟨m.1, m.2⟩)⟩ := by
  unfold enumeration at h
  dsimp only at h
  split at h
  · cases h
  · split at h
    · cases h
    · obtain ⟨description, -, h⟩ := ApiContract.bind_eq_ok.1 h
      cases h
      exact ⟨description, _, rfl⟩

end

/-! ## Named types -/

/-- The ways in which a schema gets a named type. -/
inductive Makes [Noting σ] (table : Entries) (typeOf : Tree → RunOn σ TypeExpr) (name schemaName : String)
    (tree : Tree) (schema : Entries) : RunOn σ NamedType → Prop
  | object : Schema.kind schema = .ok .object → (schema.orNull "properties").truthy = true →
      Makes table typeOf name schemaName tree schema
        (record table typeOf name schemaName schema [schema])
  | composition {objects : List Entries} : Schema.kind schema = .ok .allOf →
      leaves table name (besideReference tree) = .ok objects → Makes table typeOf name schemaName tree schema
        (record table typeOf name schemaName schema objects)
  | tagged {a : Anchor} {discriminator : Entries} : Schema.kind schema = .ok .oneOf →
      schema.get? "discriminator" = some (.map a discriminator) →
      Makes table typeOf name schemaName tree schema
        (taggedUnion table typeOf name schemaName schema discriminator)
  | untagged : Schema.kind schema = .ok .oneOf → Makes table typeOf name schemaName tree schema
      (untaggedUnion table typeOf name schemaName schema)
  | enumeration {kind : SchemaKind} {t : NamedType} : Schema.kind schema = .ok kind →
      kind.isScalar = true → enumeration name schemaName schema kind = .ok (some t) →
      Makes table typeOf name schemaName tree schema (pure t)

/-- A named type has been made in one of these ways. -/
theorem makes_of_schemaType [Noting σ] {table : Entries} {typeOf : Tree → RunOn σ TypeExpr}
    {name schemaName : String} {tree : Tree} {t : NamedType}
    (h : schemaType table typeOf name schemaName tree s = (.ok (some t), s')) :
    ∃ schema m, tree.entries? = some schema ∧ Makes table typeOf name schemaName tree schema m ∧
      m s = (.ok t, s') := by
  unfold schemaType at h
  cases hentries : tree.entries? with
  | none =>
    rw [hentries] at h
    cases h
  | some schema =>
    rw [hentries] at h
    obtain ⟨kind, _, hlift, h⟩ := bind_eq_ok.1 h
    obtain ⟨hkind, rfl⟩ := lift_eq_ok.1 hlift
    refine ⟨schema, ?_⟩
    cases kind with
    | object =>
      dsimp only at h
      split at h
      · cases h
      · rename_i hproperties
        exact ⟨_, rfl, .object hkind (by simpa using hproperties), some_eq_ok.1 h⟩
    | oneOf =>
      have huntagged : (some <$> untaggedUnion table typeOf name schemaName schema) s = (.ok (some t), s') →
          ∃ m, some schema = some schema ∧ Makes table typeOf name schemaName tree schema m ∧
            m s = (.ok t, s') :=
        fun h => ⟨_, rfl, .untagged hkind, some_eq_ok.1 h⟩
      dsimp only at h
      cases hdiscriminator : schema.get? "discriminator" with
      | none =>
        rw [hdiscriminator] at h
        exact huntagged h
      | some d =>
        rw [hdiscriminator] at h
        cases d with
        | map => exact ⟨_, rfl, .tagged hkind hdiscriminator, some_eq_ok.1 h⟩
        | _ => exact huntagged h
    | allOf =>
      obtain ⟨objects, _, hlift, h⟩ := bind_eq_ok.1 h
      obtain ⟨hleaves, rfl⟩ := lift_eq_ok.1 hlift
      exact ⟨_, rfl, .composition hkind hleaves, some_eq_ok.1 h⟩
    | any =>
      obtain ⟨trivially, _, _, h⟩ := bind_eq_ok.1 h
      cases trivially <;> cases h
    | array | anyOf | not => cases h
    | string | number | integer | boolean =>
      obtain ⟨henumeration, rfl⟩ := lift_eq_ok.1 h
      exact ⟨_, rfl, .enumeration hkind rfl henumeration, rfl⟩

section

variable [Noting σ] {table : Entries} {typeOf : Tree → RunOn σ TypeExpr} {name schemaName : String}
  {tree : Tree} {schema : Entries} {m : RunOn σ NamedType} {t : NamedType}
  (h : Makes table typeOf name schemaName tree schema m) (hm : m s = (.ok t, s'))
include h hm

/-- The shape of a type tells how it has been made. -/
theorem Makes.cases_shape :
    (∃ b objects, t.shape = .record b ∧
      Compile.record table typeOf name schemaName schema objects s = (.ok t, s') ∧
      ((Schema.kind schema = .ok .object ∧ objects = [schema]) ∨
        (Schema.kind schema = .ok .allOf ∧ leaves table name (besideReference tree) = .ok objects))) ∨
    (∃ d vs a discriminator, t.shape = .tagged d vs ∧
      schema.get? "discriminator" = some (.map a discriminator) ∧
      Compile.taggedUnion table typeOf name schemaName schema discriminator s = (.ok t, s')) ∨
    (∃ vs, t.shape = .untagged vs ∧
      Compile.untaggedUnion table typeOf name schemaName schema s = (.ok t, s')) ∨
    ∃ members, t.shape = .enumeration members := by
  cases h with
  | object hkind _ =>
    obtain ⟨b, _, -, rfl⟩ := record_eq_ok hm
    exact .inl ⟨b, _, rfl, hm, .inl ⟨hkind, rfl⟩⟩
  | composition hkind hleaves =>
    obtain ⟨b, _, -, rfl⟩ := record_eq_ok hm
    exact .inl ⟨b, _, rfl, hm, .inr ⟨hkind, hleaves⟩⟩
  | tagged _ hdiscriminator =>
    obtain ⟨_, key, vs, _, _, _, -, -, -, -, -, rfl⟩ := taggedUnion_eq_ok hm
    exact .inr (.inl ⟨some key, vs, _, _, rfl, hdiscriminator, hm⟩)
  | untagged =>
    obtain ⟨_, vs, _, _, -, -, rfl⟩ := untaggedUnion_eq_ok hm
    exact .inr (.inr (.inl ⟨vs, rfl, hm⟩))
  | enumeration _ _ henumeration =>
    obtain ⟨rfl, -⟩ := pure_eq_ok.1 hm
    obtain ⟨_, _, rfl⟩ := enumeration_eq_some henumeration
    exact .inr (.inr (.inr ⟨_, rfl⟩))

/-- A record has been made of the schema itself or of the object schemas that it is composed of. -/
theorem Makes.record {b : Body} (hb : t.shape = .record b) :
    ∃ objects, Compile.record table typeOf name schemaName schema objects s = (.ok t, s') ∧
      ((Schema.kind schema = .ok .object ∧ objects = [schema]) ∨
        (Schema.kind schema = .ok .allOf ∧ leaves table name (besideReference tree) = .ok objects)) := by
  rcases h.cases_shape hm with ⟨_, objects, -, hrun, hkind⟩ | ⟨_, _, _, _, hshape, -⟩ | ⟨_, hshape, -⟩ |
    ⟨_, hshape⟩
  · exact ⟨objects, hrun, hkind⟩
  all_goals cases hb.symm.trans hshape

/-- A union with tags has been made of a discriminator. -/
theorem Makes.taggedUnion {d : Option String} {vs : List Variant} (hd : t.shape = .tagged d vs) :
    ∃ a discriminator, schema.get? "discriminator" = some (.map a discriminator) ∧
      Compile.taggedUnion table typeOf name schemaName schema discriminator s = (.ok t, s') := by
  rcases h.cases_shape hm with ⟨_, _, hshape, -⟩ | ⟨_, _, a, discriminator, -, hdiscriminator, hrun⟩ |
    ⟨_, hshape, -⟩ | ⟨_, hshape⟩
  · cases hd.symm.trans hshape
  · exact ⟨a, discriminator, hdiscriminator, hrun⟩
  all_goals cases hd.symm.trans hshape

/-- A union without tags has been made of the schema itself. -/
theorem Makes.untaggedUnion {vs : List Variant} (hvs : t.shape = .untagged vs) :
    Compile.untaggedUnion table typeOf name schemaName schema s = (.ok t, s') := by
  rcases h.cases_shape hm with ⟨_, _, hshape, -⟩ | ⟨_, _, _, _, hshape, -⟩ | ⟨_, -, hrun⟩ | ⟨_, hshape⟩
  · cases hvs.symm.trans hshape
  · cases hvs.symm.trans hshape
  · exact hrun
  · cases hvs.symm.trans hshape

end

end ApiContract.Compile
