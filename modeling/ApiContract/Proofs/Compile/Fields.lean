import ApiContract.Proofs.Compile.Growth
import ApiContract.Proofs.Text.Unique

/-!
# How records come about

The fields of a record are told apart: a field's name is made different from the names before it, and its
wire name is a key of the properties (`fieldsOf_run`). So every type that a schema compiles to is sound, and
a schema without one never has one (`schemaType_run`).
-/

namespace ApiContract

theorem Entries.nodup_put {es : Entries} (key : Scalar) (t : Tree) (h : (es.map (·.1)).Nodup) :
    ((Entries.put key t es).map (·.1)).Nodup := by
  by_cases hkey : key ∈ es.map (·.1)
  · rwa [Entries.keys_put_of_mem t hkey]
  · rw [Entries.put_of_notMem t hkey, List.map_append, List.map_singleton]
    exact h.append (List.nodup_singleton _) (List.disjoint_singleton.2 hkey)

namespace Compile

variable {table : Entries} {path : List String} {s s' : State} {owner : String}

/-! ## Records -/

theorem nodup_merge {objects : List Entries} {m : Merged} (h : merge owner objects = .ok m) :
    (m.properties.map (·.1)).Nodup := by
  refine of_foldlM (I := fun m : Merged => (m.properties.map (·.1)).Nodup) h List.nodup_nil
    fun m object _ m' hm h => ?_
  obtain ⟨properties, m₁, -, -, -, hm₁, -, -, hproperties, -⟩ := Merged.add_eq_ok h
  rw [hproperties]
  refine of_foldlM (I := fun m : Merged => (m.properties.map (·.1)).Nodup) hm₁ hm fun m e _ m' hm h => ?_
  obtain ⟨rfl, -⟩ := Merged.addProperty_eq_ok h
  exact Entries.nodup_put _ _ hm

/-- Fields that can be told apart from each other and from the names that are taken, of known types. -/
structure FieldsMade (types : List NamedType) (taken : List String) (keys : List Scalar)
    (fields : List Field) : Prop where
  known : ∀ f ∈ fields, f.type.Known types
  named : ∀ f ∈ fields, Text.IsName f.name
  free : ∀ f ∈ fields, f.name ∉ taken
  names : (fields.map (·.name)).Nodup
  wireNames : (fields.map fun f => Scalar.text f.wireName).Sublist keys

theorem FieldsMade.cons {types : List NamedType} {taken : List String} {keys : List Scalar}
    {fields : List Field} {f : Field} (h : FieldsMade types (f.name :: taken) keys fields)
    (hknown : f.type.Known types) (hnamed : Text.IsName f.name) (hfree : f.name ∉ taken) :
    FieldsMade types taken (.text f.wireName :: keys) (f :: fields) where
  known := List.forall_mem_cons.2 ⟨hknown, h.known⟩
  named := List.forall_mem_cons.2 ⟨hnamed, h.named⟩
  free := List.forall_mem_cons.2 ⟨hfree, fun g hg hmem => h.free g hg (List.mem_cons_of_mem _ hmem)⟩
  names := by
    refine List.nodup_cons.2 ⟨fun hmem => ?_, h.names⟩
    obtain ⟨g, hg, hname⟩ := List.mem_map.1 hmem
    exact h.free g hg (hname ▸ List.mem_cons_self)
  wireNames := h.wireNames.cons_cons _

section

variable {typeOf : Tree → Run TypeExpr} (htype : ∀ t, Typed table path (typeOf t))
include htype

theorem fieldsOf_run {required : List String} {exclude : Tree} :
    ∀ {taken : List String} {properties : List (Scalar × Tree)} {fields : List Field} {s s' : State},
      Good table s → fieldsOf table typeOf required exclude taken properties s = (.ok fields, s') →
        Grows table path s s' ∧ FieldsMade s'.types taken (properties.map (·.1)) fields
  | taken, [], _, _, _, hs, h => by
    obtain ⟨rfl, rfl⟩ := pure_eq_ok.1 h
    exact ⟨.refl hs, ⟨nofun, nofun, nofun, List.nodup_nil, .slnil⟩⟩
  | taken, (key, schema) :: rest, fields, s, s', hs, h => by
    rw [fieldsOf.eq_def] at h
    dsimp only at h
    split at h
    · obtain ⟨hgrows, hmade⟩ := fieldsOf_run hs h
      exact ⟨hgrows, { hmade with wireNames := hmade.wireNames.cons _ }⟩
    · cases key with
      | text wireName =>
        obtain ⟨type, s₁, htyped, h⟩ := bind_eq_ok.1 h
        obtain ⟨target, _, htarget, h⟩ := bind_eq_ok.1 h
        obtain ⟨-, rfl⟩ := lift_eq_ok.1 htarget
        split at h
        · cases h
        · obtain ⟨description, _, hdescription, h⟩ := bind_eq_ok.1 h
          obtain ⟨-, rfl⟩ := lift_eq_ok.1 hdescription
          obtain ⟨fields, _, hfields, h⟩ := bind_eq_ok.1 h
          obtain ⟨rfl, rfl⟩ := pure_eq_ok.1 h
          obtain ⟨hgrows, hknown⟩ := htype _ hs htyped
          obtain ⟨hrest, hmade⟩ := fieldsOf_run hgrows.good hfields
          exact ⟨hgrows.trans hrest,
            FieldsMade.cons (f := ⟨_, wireName, type, required.contains wireName, description⟩) hmade
              (hrest.known hknown) ((Text.isName_fieldIdentifier wireName).uniqueName taken)
              (Text.uniqueName_notMem _ taken)⟩
      | _ => cases h

theorem body_run {objects : List Entries} {exclude : Tree} {b : Body} (hs : Good table s)
    (h : body table typeOf owner objects exclude s = (.ok b, s')) :
    Grows table path s s' ∧ b.Sound s'.types := by
  obtain ⟨merged, _, h₁, h⟩ := bind_eq_ok.1 h
  obtain ⟨hmerged, rfl⟩ := lift_eq_ok.1 h₁
  obtain ⟨fields, s₁, hfields, h⟩ := bind_eq_ok.1 h
  obtain ⟨extra, s₂, hextra, h⟩ := bind_eq_ok.1 h
  obtain ⟨rfl, rfl⟩ := pure_eq_ok.1 h
  obtain ⟨hgrows, hmade⟩ := fieldsOf_run htype hs hfields
  have htyped : ∀ p, some (merged.additional, typeOf merged.additional) = some p →
      Typed table path p.2 := by
    rintro _ ⟨⟩
    exact htype _
  obtain ⟨hgrows', hknown⟩ := grows_additionalType htyped hgrows.good hextra
  refine ⟨hgrows.trans hgrows', ⟨fun e he => ?_, hmade.named, hmade.names, ?_⟩⟩
  · rcases List.mem_append.1 he with he | he
    · obtain ⟨f, hf, rfl⟩ := List.mem_map.1 he
      exact hgrows'.known (hmade.known f hf)
    · exact hknown e (Option.mem_toList.1 he)
  · have hkeys : ((fields.map (·.wireName)).map Scalar.text).Nodup := by
      rw [List.map_map]
      exact (nodup_merge hmerged).sublist hmade.wireNames
    exact hkeys.of_map _

/-! ## Unions -/

theorem variant_run {union : String} {exclude : Tree} {taken : List String} {tag : Option String}
    {branch : String} {schema : Tree} {v : Variant} (hs : Good table s)
    (h : variant table typeOf union exclude taken tag branch schema s = (.ok v, s')) :
    Grows table path s s' ∧ v.body.Sound s'.types := by
  obtain ⟨objects, _, hobjects, h⟩ := bind_eq_ok.1 h
  obtain ⟨-, rfl⟩ := lift_eq_ok.1 hobjects
  obtain ⟨b, _, hb, h⟩ := bind_eq_ok.1 h
  obtain ⟨description, _, hdescription, h⟩ := bind_eq_ok.1 h
  obtain ⟨-, rfl⟩ := lift_eq_ok.1 hdescription
  obtain ⟨rfl, rfl⟩ := pure_eq_ok.1 h
  exact body_run htype hs hb

theorem variantsFrom_run {union : String} {exclude : Tree} :
    ∀ {taken : List String} {l : List (Option String × String × Tree)} {vs : List Variant}
      {s s' : State}, Good table s →
      variantsFrom table typeOf union exclude taken l s = (.ok vs, s') →
        Grows table path s s' ∧ ∀ v ∈ vs, v.body.Sound s'.types
  | _, [], _, _, _, hs, h => by
    obtain ⟨rfl, rfl⟩ := pure_eq_ok.1 h
    exact ⟨.refl hs, nofun⟩
  | _, (tag, branch, schema) :: rest, _, _, _, hs, h => by
    obtain ⟨v, _, hv, h⟩ := bind_eq_ok.1 h
    obtain ⟨vs, _, hvs, h⟩ := bind_eq_ok.1 h
    obtain ⟨rfl, rfl⟩ := pure_eq_ok.1 h
    obtain ⟨hgrows, hsound⟩ := variant_run htype hs hv
    obtain ⟨hrest, hsounds⟩ := variantsFrom_run hgrows.good hvs
    exact ⟨hgrows.trans hrest, List.forall_mem_cons.2 ⟨hrest.body hsound, hsounds⟩⟩

theorem taggedUnion_run {name schemaName : String} {schema discriminator : Entries} {t : NamedType}
    (hs : Good table s)
    (h : taggedUnion table typeOf name schemaName schema discriminator s = (.ok t, s')) :
    Grows table path s s' ∧ t.Sound s'.types ∧ t.name = name := by
  obtain ⟨_, _, variants, _, _, _, -, -, -, -, hvariants, rfl⟩ := taggedUnion_eq_ok h
  obtain ⟨hgrows, hsound⟩ := variantsFrom_run htype hs hvariants
  exact ⟨hgrows, ⟨List.forall_mem_map.2 hsound, List.nodup_nil⟩, rfl⟩

theorem untaggedUnion_run {name schemaName : String} {schema : Entries} {t : NamedType}
    (hs : Good table s) (h : untaggedUnion table typeOf name schemaName schema s = (.ok t, s')) :
    Grows table path s s' ∧ t.Sound s'.types ∧ t.name = name := by
  obtain ⟨_, variants, _, s₁, hvariants, rfl, rfl⟩ := untaggedUnion_eq_ok h
  obtain ⟨hgrows, hsound⟩ := variantsFrom_run htype hs hvariants
  exact ⟨hgrows.trans (.of_eq hgrows.good rfl rfl), ⟨List.forall_mem_map.2 hsound, List.nodup_nil⟩, rfl⟩

/-! ## Named types -/

theorem record_run {name schemaName : String} {schema : Entries} {objects : List Entries}
    {t : NamedType} (hs : Good table s)
    (h : record table typeOf name schemaName schema objects s = (.ok t, s')) :
    Grows table path s s' ∧ t.Sound s'.types ∧ t.name = name := by
  obtain ⟨b, _, hb, rfl⟩ := record_eq_ok h
  obtain ⟨hgrows, hsound⟩ := body_run htype hs hb
  exact ⟨hgrows, ⟨List.forall_mem_singleton.2 hsound, List.nodup_nil⟩, rfl⟩

omit htype in
/-- Whether there is an enumeration does not depend on its names. It is sound whatever stands before it. -/
theorem enumeration_eq_ok {name schemaName : String} {schema : Entries} {kind : SchemaKind}
    {r : Option NamedType}
    (h : enumeration name schemaName schema kind = .ok r) :
    (r = none → ∀ name schemaName, enumeration name schemaName schema kind = .ok none) ∧
      ∀ t, r = some t → (∀ types, t.Sound types) ∧ t.name = name := by
  unfold enumeration at h
  dsimp only at h
  split at h
  · rename_i hempty
    cases h
    refine ⟨fun _ name schemaName => ?_, nofun⟩
    unfold enumeration
    rw [if_pos hempty]
    rfl
  · split at h
    · cases h
    · obtain ⟨description, -, h⟩ := ApiContract.bind_eq_ok.1 h
      cases h
      refine ⟨nofun, fun t ht => ?_⟩
      cases ht
      refine ⟨fun types => ⟨nofun, ?_⟩, rfl⟩
      dsimp only [NamedType.members]
      generalize (if kind == .string then _ else _) = values
      have hnames : ∀ f : String × Tree → Member, (∀ p, (f p).name = p.1) →
          (((Literal.memberNames values).zip values).map f).map (·.name) = Literal.memberNames values := by
        intro f hf
        rw [List.map_map, show (fun m : Member => m.name) ∘ f = Prod.fst from funext hf]
        refine List.map_fst_zip ?_
        rw [Literal.memberNames, Text.length_uniqueNames, List.length_map]
      rw [hnames _ fun _ => rfl]
      exact (Text.uniqueNames_free _ _).2

/-- What a schema compiles to is sound. Where there is no type, there never is one. -/
theorem schemaType_run {name schemaName : String} {tree : Tree} {r : Option NamedType}
    (hs : Good table s) (h : schemaType table typeOf name schemaName tree s = (.ok r, s')) :
    (r = none → s' = s ∧ Nameless table tree) ∧
      ∀ t, r = some t → Grows table path s s' ∧ t.Sound s'.types ∧ t.name = name := by
  have hsome : ∀ {m : Run NamedType}, (some <$> m) s = (.ok r, s') →
      (∀ t, m s = (.ok t, s') → Grows table path s s' ∧ t.Sound s'.types ∧ t.name = name) →
        (r = none → s' = s ∧ Nameless table tree) ∧
          ∀ t, r = some t → Grows table path s s' ∧ t.Sound s'.types ∧ t.name = name := by
    intro m h hm
    rw [map_eq_pure_bind] at h
    obtain ⟨t, _, ht, h⟩ := bind_eq_ok.1 h
    obtain ⟨rfl, rfl⟩ := pure_eq_ok.1 h
    refine ⟨nofun, fun u hu => ?_⟩
    cases hu
    exact hm t ht
  have hnone : (pure none : Run (Option NamedType)) s = (.ok r, s') → Nameless table tree →
      (r = none → s' = s ∧ Nameless table tree) ∧
        ∀ t, r = some t → Grows table path s s' ∧ t.Sound s'.types ∧ t.name = name := by
    intro h hnameless
    obtain ⟨rfl, rfl⟩ := pure_eq_ok.1 h
    exact ⟨fun _ => ⟨rfl, hnameless⟩, nofun⟩
  cases hentries : tree.entries? with
  | none =>
    unfold schemaType at h
    rw [hentries] at h
    cases h
  | some schema =>
    unfold schemaType at h
    rw [hentries] at h
    obtain ⟨kind, _, h₁, h⟩ := bind_eq_ok.1 h
    obtain ⟨hkind, rfl⟩ := lift_eq_ok.1 h₁
    cases kind with
    | object =>
      dsimp only at h
      split at h
      · rename_i hfalsy
        refine hnone h fun typeOf name schemaName s => ?_
        simp only [schemaType, hentries, hkind, lift_ok_bind, if_pos hfalsy]
        rfl
      · exact hsome h fun t ht => record_run htype hs ht
    | array =>
      refine hnone h fun typeOf name schemaName s => ?_
      simp only [schemaType, hentries, hkind, lift_ok_bind]
      rfl
    | oneOf =>
      have huntagged : (some <$> untaggedUnion table typeOf name schemaName schema) s = (.ok r, s') → _ :=
        fun h => hsome h fun t ht => untaggedUnion_run htype hs ht
      dsimp only at h
      cases hd : schema.get? "discriminator" with
      | none => rw [hd] at h; exact huntagged h
      | some d =>
        rw [hd] at h
        cases d with
        | map => exact hsome h fun t ht => taggedUnion_run htype hs ht
        | _ => exact huntagged h
    | allOf =>
      obtain ⟨objects, _, h₁, h⟩ := bind_eq_ok.1 h
      obtain ⟨-, rfl⟩ := lift_eq_ok.1 h₁
      exact hsome h fun t ht => record_run htype hs ht
    | anyOf | not => cases h
    | any =>
      obtain ⟨isTrivial, _, h₁, h⟩ := bind_eq_ok.1 h
      obtain ⟨htrivial, rfl⟩ := lift_eq_ok.1 h₁
      cases isTrivial with
      | false => cases h
      | true =>
        refine hnone h fun typeOf name schemaName s => ?_
        simp only [schemaType, hentries, hkind, htrivial, lift_ok_bind]
        rfl
    | string | number | integer | boolean =>
      obtain ⟨henumeration, rfl⟩ := lift_eq_ok.1 h
      refine ⟨fun hr => ⟨rfl, fun typeOf name schemaName s => ?_⟩, fun t ht => ?_⟩
      · simp only [schemaType, hentries, hkind, lift_ok_bind, (enumeration_eq_ok henumeration).1 hr]
        rfl
      · obtain ⟨hsound, hname⟩ := (enumeration_eq_ok henumeration).2 t ht
        exact ⟨.refl hs, hsound _, hname⟩

end

end Compile

end ApiContract
