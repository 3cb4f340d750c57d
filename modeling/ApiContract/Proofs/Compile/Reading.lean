import ApiContract.Proofs.Compile.Run
import ApiContract.Proofs.Except

/-!
# Reading schemas

What the compiler reads off a schema without following its types: its kind, its parts, its texts, where its
references lead, and what unions are made of. Reading fails only over the schema at hand (`Local`): never because
something stands inline, because two schemas share a type name, because a property is declared twice, or because
references lead back to where they come from.
-/

namespace ApiContract

/-- Whether a failure is about the schema at hand. The others are about schemas that stand inline and should
have got a name, about declarations that do not go together, and about cycles. -/
def Failure.isLocal : Failure → Bool
  | .inlineEnum _ | .inlineObject _ | .inlineAny _ | .inlineComposition _ => false
  | .typeNameClash .. | .propertyConflict .. | .dependencyCycle _ => false
  | _ => true

namespace Compile

open Tree

variable {α β : Type}

/-- A result fails only over the schema at hand. -/
def Local (r : Except Failure α) : Prop :=
  match r with
  | .ok _ => True
  | .error f => f.isLocal = true

/-! ## Results -/

section

variable {r : Except Failure α}

theorem Local.failure {f : Failure} (h : Local r) (hf : r = .error f) : f.isLocal = true := by
  rw [hf] at h
  exact h

theorem Local.fits (h : Local r) : Fits r fun _ => True := by
  cases r with
  | ok a => trivial
  | error f =>
    have hlocal : f.isLocal = true := h
    show f.isInlineSchema = false
    cases f <;> first | rfl | cases hlocal

theorem Local.bind {f : α → Except Failure β} (h : Local r) (hf : ∀ a, Local (f a)) :
    Local (r >>= f) := by
  cases r with
  | ok a => exact hf a
  | error e => exact h

theorem Local.map {f : α → β} (h : Local r) : Local (f <$> r) := by
  cases r with
  | ok a => trivial
  | error e => exact h

theorem local_mapM {f : α → Except Failure β} : ∀ {l : List α}, (∀ a ∈ l, Local (f a)) →
    Local (l.mapM f)
  | [], _ => trivial
  | a :: l, h => by
    rw [List.mapM_cons]
    exact (h a List.mem_cons_self).bind fun _ =>
      (local_mapM fun a ha => h a (List.mem_cons_of_mem _ ha)).bind fun _ => trivial

theorem local_filterMapM {f : α → Except Failure (Option β)} (h : ∀ a, Local (f a)) :
    ∀ l : List α, Local (l.filterMapM f)
  | [] => trivial
  | a :: l => by
    rw [List.filterMapM_cons]
    refine (h a).bind fun b => ?_
    cases b with
    | none => exact local_filterMapM h l
    | some b => exact (local_filterMapM h l).bind fun _ => trivial

theorem local_forIn {f : α → β → Except Failure (ForInStep β)} (h : ∀ a b, Local (f a b)) :
    ∀ (l : List α) (b : β), Local (forIn l b f)
  | [], _ => trivial
  | a :: l, b => by
    rw [List.forIn_cons]
    refine (h a b).bind fun b' => ?_
    cases b' with
    | done b' => trivial
    | yield b' => exact local_forIn h l b'

end

/-! ## Kinds and parts -/

theorem local_typedKind (value : Tree) : Local (Schema.typedKind value) := by
  unfold Schema.typedKind
  split
  · split <;> trivial
  · split <;> rfl

theorem local_declaredKind (es : Entries) : Local (Schema.declaredKind es) := by
  unfold Schema.declaredKind
  split
  · trivial
  · trivial
  · split
    · exact (local_typedKind _).map
    · rfl
  · exact (local_typedKind _).map

theorem local_kind (es : Entries) : Local (Schema.kind es) := by
  refine (local_declaredKind es).bind fun k => ?_
  split
  · trivial
  · split
    · trivial
    · split <;> trivial

theorem local_kindOf (t : Tree) : Local (Schema.kindOf t) := by
  unfold Schema.kindOf
  split
  · exact local_kind _
  · rfl

theorem local_isTrivial : ∀ es : Entries, Local (Schema.isTrivial es)
  | [] => trivial
  | (k, t) :: es => by
    cases k with
    | text key =>
      rw [Schema.isTrivial]
      split
      · exact local_isTrivial es
      · trivial
    | _ => rfl

theorem local_iterate (t : Tree) : Local (iterate t) := by
  unfold iterate
  split <;> trivial

theorem local_partsOf (es : Entries) (key : String) : Local (partsOf es key) := by
  unfold partsOf
  dsimp only
  split
  · exact local_iterate _
  · trivial

theorem local_entriesOf (es : Entries) (key : String) : Local (entriesOf es key) := by
  unfold entriesOf
  dsimp only
  split
  · trivial
  · split <;> trivial

theorem local_requiredNames (parts : List Tree) : Local (requiredNames parts) := by
  refine local_filterMapM (fun t => ?_) parts
  split
  · trivial
  · split <;> trivial

/-! ## Texts -/

theorem local_textField (field : String) (t : Tree) : Local (textField field t) := by
  unfold textField
  cases optionalText field t <;> trivial

theorem local_textFields (fields : List (String × Tree)) : Local (textFields fields) := by
  unfold textFields
  dsimp only
  split <;> trivial

theorem local_scalarType (kind : SchemaKind) (format : Tree) (nullable : Bool) :
    Local (scalarType kind format nullable) := by
  have hrest : ∀ p : Primitive, Local (do
      return TypeExpr.primitive p (← textField "format" format) nullable) :=
    fun p => (local_textField "format" format).bind fun _ => trivial
  unfold scalarType
  dsimp only
  split
  · split
    · exact hrest _
    · split
      · rfl
      · exact hrest _
  · exact hrest _

theorem local_enumeration {name schemaName : String} {schema : Entries} {kind : SchemaKind} :
    Local (enumeration name schemaName schema kind) := by
  unfold enumeration
  dsimp only
  split
  · trivial
  · split
    · rfl
    · exact (local_textField _ _).bind fun _ => trivial

/-! ## References -/

theorem local_schemaName (reference : String) : Local (Reference.schemaName reference) := by
  unfold Reference.schemaName
  split
  · rfl
  · split <;> trivial

theorem local_find (table : Entries) (reference : String) : Local (find table reference) := by
  refine (local_schemaName reference).bind fun name => ?_
  split
  · rfl
  · rfl
  · split <;> trivial

theorem local_resolve (table : Entries) (t : Tree) : Local (resolve table t) := by
  unfold resolve
  split
  · exact (local_find table _).bind fun _ => trivial
  · trivial

/-! ## Compositions and unions -/

section

variable {table : Entries} {owner : String}

/-- What stands beside a reference is no reference, and says all else that is said there. -/
theorem besideReference_map (a : Anchor) (es : Entries) :
    ∃ es' : Entries, besideReference (.map a es) = .map a es' ∧ Reference.ofEntries? es' = none ∧
      es'.Sublist es ∧ ∀ key, key ≠ "$ref" → es'.get? key = es.get? key := by
  cases href : Reference.ofEntries? es with
  | none => exact ⟨es, besideReference_of_direct href, href, .refl es, fun _ _ => rfl⟩
  | some r =>
    refine ⟨Entries.erase es "$ref", ?_, ?_, List.filter_sublist, fun key hkey => ?_⟩
    · rw [besideReference, href]
      rfl
    · rw [Reference.ofEntries?, Entries.get?_eq_at?, Entries.at?_erase, if_pos rfl]
      rfl
    · rw [Entries.get?_eq_at?, Entries.at?_erase, if_neg (by simpa using hkey), Entries.get?_eq_at?]

theorem leafCases_map {follow : String → Except Failure (List Entries)} (a : Anchor) (es : Entries) :
    (Tree.map a es).para (leafCases follow owner) .component =
      match Reference.ofEntries? es with
      | some reference => follow reference
      | none => (do
        match ← Schema.kind es with
        | .object => return [es]
        | .allOf =>
          match (es.map fun e => (e.1, e.2, e.2.para (leafCases follow owner))).lookup
            (.text "allOf") with
          | some (_, leaves) => leaves .list
          | none => return []
        | _ => throw (.allOfComponent owner (Schema.brief (.map a es)))) := by
  have hparts : (es.map fun e => (e.1, e.2, e.2.para (leafCases follow owner))).map
      (fun c => (c.1, c.2.1)) = es := by
    rw [List.map_map]
    exact List.map_id' es
  rw [para, paraEntries_eq]
  generalize (es.map fun e => (e.1, e.2, e.2.para (leafCases follow owner))) = children at hparts ⊢
  subst hparts
  rfl

theorem local_branchesFrom {union : String} :
    ∀ (done : List (String × Tree)) (parts : List Tree), Local (branchesFrom table union done parts)
  | _, [] => trivial
  | done, t :: rest => by
    rw [branchesFrom]
    split
    · rfl
    · exact (local_find table _).bind fun _ => local_branchesFrom _ rest

theorem local_branches (union : String) (schema : Entries) : Local (branches table union schema) :=
  (local_partsOf schema "oneOf").bind fun parts => local_branchesFrom [] parts

theorem local_mappedTags (union : String) (branches : List (String × Tree)) (mapping : Entries) :
    Local (mappedTags union branches mapping) :=
  local_mapM fun _ _ => (local_schemaName _).bind fun _ => by split <;> trivial

end

/-! ## Merging -/

section

variable {owner : String} {m m' : Merged} {object : Entries}

/-- A property is put among those that are there. One that is there already is the same. -/
theorem Merged.addProperty_eq_ok {key : Scalar} {schema : Tree}
    (h : m.addProperty owner key schema = .ok m') :
    m' = { m with properties := Entries.put key schema m.properties } ∧
      ∀ existing, Entries.at? key m.properties = some existing →
        existing = .null ∨ existing.same schema = true := by
  unfold addProperty at h
  split at h
  · rename_i existing hexisting
    split at h
    · cases h
    · rename_i hsame
      cases h
      refine ⟨rfl, fun existing' heq => ?_⟩
      cases hexisting.symm.trans heq
      by_cases hnull : existing = .null
      · exact .inl hnull
      · exact .inr (by simpa [hnull] using hsame)
  · rename_i hnone
    cases h
    exact ⟨rfl, fun existing heq => by cases hnone.symm.trans heq⟩

/-- What adding an object schema does. -/
theorem Merged.add_eq_ok (h : m.add owner object = .ok m') :
    ∃ properties m₁ parts names, entriesOf object "properties" = .ok properties ∧
      properties.foldlM (fun m (key, schema) => m.addProperty owner key schema) m = .ok m₁ ∧
      partsOf object "required" = .ok parts ∧ requiredNames parts = .ok names ∧
      m'.properties = m₁.properties ∧ m'.required = m₁.required ++ names ∧
      ((object.orNull "additionalProperties" = .null ∧ m'.additional = m₁.additional) ∨
        (m₁.additional = .null ∧ m'.additional = object.orNull "additionalProperties")) := by
  obtain ⟨properties, hproperties, h⟩ := ApiContract.bind_eq_ok.1 h
  obtain ⟨m₁, hm₁, h⟩ := ApiContract.bind_eq_ok.1 h
  obtain ⟨parts, hparts, h⟩ := ApiContract.bind_eq_ok.1 h
  obtain ⟨names, hnames, h⟩ := ApiContract.bind_eq_ok.1 h
  refine ⟨properties, m₁, parts, names, hproperties, hm₁, hparts, hnames, ?_⟩
  split at h
  · cases h
    exact ⟨rfl, rfl, .inl ⟨‹_›, rfl⟩⟩
  · dsimp only at h
    split at h
    · cases h
    · rename_i hnull
      cases h
      exact ⟨rfl, rfl, .inr ⟨not_not.1 hnull, rfl⟩⟩

/-- Two schemas for one property that are not the same are a conflict. -/
theorem Merged.addProperty_eq_error {key : Scalar} {schema : Tree} {f : Failure}
    (h : m.addProperty owner key schema = .error f) :
    f = .propertyConflict key.display owner ∧
      ∃ existing, Entries.at? key m.properties = some existing ∧ existing.same schema = false := by
  unfold addProperty at h
  split at h
  · rename_i existing hexisting
    split at h
    · rename_i hne
      cases h
      exact ⟨rfl, existing, hexisting, by simpa using hne.2⟩
    · cases h
  · cases h

/-- Adding an object schema fails over the schema itself, or over one of its properties. -/
theorem Merged.add_eq_error {I : Merged → Prop} {f : Failure} (h : m.add owner object = .error f) (hm : I m)
    (hI : ∀ properties, entriesOf object "properties" = .ok properties → ∀ m, ∀ e ∈ properties, ∀ m', I m →
      m.addProperty owner e.1 e.2 = .ok m' → I m') :
    f.isLocal = true ∨ ∃ properties, entriesOf object "properties" = .ok properties ∧
      ∃ e ∈ properties, ∃ m', I m' ∧ m'.addProperty owner e.1 e.2 = .error f := by
  rcases bind_eq_error.1 h with h | ⟨properties, hproperties, h⟩
  · exact .inl ((local_entriesOf _ _).failure h)
  rcases bind_eq_error.1 h with h | ⟨m₁, -, h⟩
  · exact .inr ⟨properties, hproperties, error_of_foldlM h hm (hI properties hproperties)⟩
  rcases bind_eq_error.1 h with h | ⟨parts, -, h⟩
  · exact .inl ((local_partsOf _ _).failure h)
  rcases bind_eq_error.1 h with h | ⟨names, -, h⟩
  · exact .inl ((local_requiredNames _).failure h)
  split at h
  · cases h
  · dsimp only at h
    split at h
    · cases h
      exact .inl rfl
    · cases h

/-- Merging fails over the schema at hand, or over a property of the type at hand. -/
theorem failure_of_merge {objects : List Entries} {f : Failure} (h : merge owner objects = .error f) :
    f.isLocal = true ∨ ∃ p, f = .propertyConflict p owner := by
  obtain ⟨object, -, m, -, h⟩ :=
    error_of_foldlM (I := fun _ => True) h trivial fun _ _ _ _ _ _ => trivial
  rcases Merged.add_eq_error (I := fun _ => True) h trivial fun _ _ _ _ _ _ _ _ => trivial with
    hlocal | ⟨properties, -, e, -, m', -, h⟩
  · exact .inl hlocal
  · exact .inr ⟨_, (Merged.addProperty_eq_error h).1⟩

end

end Compile

end ApiContract
