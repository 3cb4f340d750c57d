import ApiContract.Proofs.Compile.Constraints
import ApiContract.Proofs.Compile.Leaves
import ApiContract.Proofs.Tree.Same
import Mathlib.Data.List.Induction

/-!
# What object schemas make together

Object schemas are merged in order: all properties that they declare, one schema after the other
(`Declared`). Merging goes well if properties of one name agree and at most one schema says something about
further properties (`merge_eq_ok_iff`); a property without a schema agrees with whatever comes later. Each
property that is not left out becomes one field, in the order of first declarations (`Kept`,
`FieldsFor`). So it is known when a record is made of object schemas, and which one (`body_eq_ok_iff`).
-/

namespace ApiContract

/-! ## Entries from pairs -/

namespace Entries

/-- Entries of pairs: a key stands where it is given first, with the value that it is given last. -/
def ofPairs (pairs : Entries) : Entries :=
  pairs.foldl (fun es p => put p.1 p.2 es) []

theorem ofPairs_concat (pairs : Entries) (p : Scalar × Tree) :
    ofPairs (pairs ++ [p]) = put p.1 p.2 (ofPairs pairs) := by
  rw [ofPairs, List.foldl_append]
  rfl

theorem nodup_ofPairs (pairs : Entries) : ((ofPairs pairs).map (·.1)).Nodup := by
  induction pairs using List.reverseRecOn with
  | nil => exact List.nodup_nil
  | append_singleton pairs p ih =>
    rw [ofPairs_concat]
    exact nodup_put _ _ ih

/-- The value of a key is the last one that it is given. -/
theorem at?_ofPairs (pairs : Entries) (k : Scalar) : at? k (ofPairs pairs) = at? k pairs.reverse := by
  induction pairs using List.reverseRecOn with
  | nil => rfl
  | append_singleton pairs p ih =>
    rw [ofPairs_concat, List.reverse_append, List.reverse_singleton, List.singleton_append, at?_cons]
    by_cases hk : p.1 = k
    · rw [if_pos hk, ← hk, at?_put_self]
    · rw [if_neg hk, at?_put_ne (Ne.symm hk), ih]

theorem mem_keys_ofPairs {pairs : Entries} {k : Scalar} :
    k ∈ (ofPairs pairs).map (·.1) ↔ k ∈ pairs.map (·.1) := by
  rw [← not_iff_not, ← at?_eq_none, ← at?_eq_none, at?_ofPairs, at?_eq_none, at?_eq_none,
    List.map_reverse, List.mem_reverse]

/-- Keys stand in the order in which they are given first. -/
theorem ofPairs_order (pairs : Entries) : ((ofPairs pairs).map (·.1)).Pairwise fun k l =>
    (pairs.map (·.1)).idxOf k < (pairs.map (·.1)).idxOf l := by
  induction pairs using List.reverseRecOn with
  | nil => exact .nil
  | append_singleton pairs p ih =>
    have hidx : ∀ k ∈ (ofPairs pairs).map (·.1),
        ((pairs ++ [p]).map (·.1)).idxOf k = (pairs.map (·.1)).idxOf k := fun k hk => by
      rw [List.map_append, List.idxOf_append_of_mem (mem_keys_ofPairs.1 hk)]
    have hold : ((ofPairs pairs).map (·.1)).Pairwise fun k l =>
        ((pairs ++ [p]).map (·.1)).idxOf k < ((pairs ++ [p]).map (·.1)).idxOf l :=
      ih.imp_of_mem fun hk hl h => by rwa [hidx _ hk, hidx _ hl]
    rw [ofPairs_concat]
    by_cases hp : p.1 ∈ (ofPairs pairs).map (·.1)
    · rwa [keys_put_of_mem _ hp]
    · have hkeys : (put p.1 p.2 (ofPairs pairs)).map (·.1) = (ofPairs pairs).map (·.1) ++ [p.1] := by
        rw [put_of_notMem _ hp, List.map_append, List.map_singleton]
      rw [hkeys]
      refine List.pairwise_append.2 ⟨hold, List.pairwise_singleton _ _, fun k hk l hl => ?_⟩
      obtain rfl := List.mem_singleton.1 hl
      have hnew : p.1 ∉ pairs.map (·.1) := fun h => hp (mem_keys_ofPairs.2 h)
      rw [hidx k hk, List.map_append, List.idxOf_append_of_notMem hnew]
      exact Nat.lt_add_right _ (List.idxOf_lt_length_iff.2 (mem_keys_ofPairs.1 hk))

end Entries

namespace Compile

variable {table : Entries} {owner : String} {m m' : Merged}

/-! ## Properties that agree -/

/-- A property agrees with a later one if it is another one, or there is no schema for it yet, or the
later schema is the same. -/
def Accords (p q : Scalar × Tree) : Prop :=
  p.1 = q.1 → p.2 = .null ∨ p.2.same q.2 = true

/-- Nothing but null is the same as null. -/
theorem eq_null_of_same {t : Tree} (h : t.same .null = true) : t = .null := by
  cases t with
  | scalar s =>
    obtain ⟨_, ⟨⟩, hs⟩ := Tree.same_scalar.1 h
    have hs : s.canonical = .null := Scalar.same_iff.1 hs
    cases s with
    | null => rfl
    | float x =>
      rw [Scalar.canonical] at hs
      split at hs <;> cases hs
    | _ => cases hs
  | _ => simp [Tree.same, Tree.para] at h

/-- Of declared properties that agree, only the last one of a name must agree with a further one. -/
theorem accords_iff_last {declared : Entries} (h : declared.Pairwise Accords) (p : Scalar × Tree) :
    (∀ q ∈ declared, Accords q p) ↔ ∀ x, Entries.at? p.1 (Entries.ofPairs declared) = some x →
      x = .null ∨ x.same p.2 = true := by
  induction declared using List.reverseRecOn with
  | nil => exact iff_of_true nofun nofun
  | append_singleton declared q ih =>
    obtain ⟨hdeclared, -, hq⟩ := List.pairwise_append.1 h
    rw [Entries.ofPairs_concat]
    by_cases hkey : p.1 = q.1
    · rw [hkey, Entries.at?_put_self]
      constructor
      · rintro hall _ ⟨⟩
        exact hall q (List.mem_append_right _ (List.mem_singleton_self q)) hkey.symm
      · intro hlast d hd hdp
        rcases List.mem_append.1 hd with hd | hd
        · rcases hq d hd q (List.mem_singleton_self q) (hdp.trans hkey) with hnull | hsame
          · exact .inl hnull
          rcases hlast q.2 rfl with hnull | hsame'
          · rw [hnull] at hsame
            exact .inl (eq_null_of_same hsame)
          · exact .inr (Tree.same_trans hsame hsame')
        · obtain rfl := List.mem_singleton.1 hd
          exact hlast d.2 rfl
    · rw [Entries.at?_put_ne hkey, ← ih hdeclared]
      refine ⟨fun hall d hd => hall d (List.mem_append_left _ hd), fun hall d hd => ?_⟩
      rcases List.mem_append.1 hd with hd | hd
      · exact hall d hd
      · obtain rfl := List.mem_singleton.1 hd
        exact fun h => absurd h.symm hkey

/-! ## Merging -/

/-- What object schemas declare, one schema after the other: properties, and names that are required. -/
structure Declared (objects : List Entries) (properties : Entries) (required : List String) : Prop where
  properties : ∃ pss, List.Forall₂ (fun o ps => entriesOf o "properties" = .ok ps) objects pss ∧
    properties = pss.flatten
  required : ∃ nss, List.Forall₂ (fun o ns => ∃ parts, partsOf o "required" = .ok parts ∧
    requiredNames parts = .ok ns) objects nss ∧ required = nss.flatten

/-- What object schemas say about further properties. -/
def further (objects : List Entries) : List Tree :=
  (objects.map fun o => o.orNull "additionalProperties").filter fun t => t ≠ .null

theorem declared_nil {properties : Entries} {required : List String} :
    Declared [] properties required ↔ properties = [] ∧ required = [] := by
  constructor
  · rintro ⟨⟨pss, hpss, rfl⟩, ⟨nss, hnss, rfl⟩⟩
    cases hpss
    cases hnss
    exact ⟨rfl, rfl⟩
  · rintro ⟨rfl, rfl⟩
    exact ⟨⟨[], .nil, rfl⟩, ⟨[], .nil, rfl⟩⟩

theorem Declared.eq {objects : List Entries} {properties properties' : Entries}
    {required required' : List String} (h : Declared objects properties required)
    (h' : Declared objects properties' required') : properties = properties' ∧ required = required' := by
  obtain ⟨⟨pss, hpss, rfl⟩, ⟨nss, hnss, rfl⟩⟩ := h
  obtain ⟨⟨pss', hpss', rfl⟩, ⟨nss', hnss', rfl⟩⟩ := h'
  have hps : pss = pss' := List.right_unique_forall₂'
    (fun _ _ _ h h' => Except.ok.inj (h.symm.trans h')) hpss hpss'
  have hns : nss = nss' := by
    refine List.right_unique_forall₂' (fun _ _ _ h h' => ?_) hnss hnss'
    obtain ⟨parts, hparts, hns⟩ := h
    obtain ⟨parts', hparts', hns'⟩ := h'
    cases hparts.symm.trans hparts'
    exact Except.ok.inj (hns.symm.trans hns')
  exact ⟨by rw [hps], by rw [hns]⟩

theorem declared_cons {object : Entries} {objects : List Entries} {properties : Entries}
    {required : List String} : Declared (object :: objects) properties required ↔
      ∃ ps parts ns properties' required', entriesOf object "properties" = .ok ps ∧
        partsOf object "required" = .ok parts ∧ requiredNames parts = .ok ns ∧
          Declared objects properties' required' ∧ properties = ps ++ properties' ∧
            required = ns ++ required' := by
  constructor
  · rintro ⟨⟨pss, hpss, rfl⟩, ⟨nss, hnss, rfl⟩⟩
    cases hpss with
    | cons hps hpss =>
      cases hnss with
      | cons hns hnss =>
        obtain ⟨parts, hparts, hns⟩ := hns
        exact ⟨_, parts, _, _, _, hps, hparts, hns, ⟨⟨_, hpss, rfl⟩, ⟨_, hnss, rfl⟩⟩, rfl, rfl⟩
  · rintro ⟨ps, parts, ns, _, _, hps, hparts, hns, ⟨⟨pss, hpss, rfl⟩, ⟨nss, hnss, rfl⟩⟩, rfl, rfl⟩
    exact ⟨⟨_, .cons hps hpss, rfl⟩, ⟨_, .cons ⟨parts, hparts, hns⟩ hnss, rfl⟩⟩

@[simp] theorem further_nil : further [] = [] := rfl

theorem further_cons (object : Entries) (objects : List Entries) : further (object :: objects) =
    (if object.orNull "additionalProperties" = .null then [] else
      [object.orNull "additionalProperties"]) ++ further objects := by
  rw [further, List.map_cons, List.filter_cons]
  by_cases h : object.orNull "additionalProperties" = .null
  · rw [if_pos h, if_neg (by simp [h])]
    rfl
  · rw [if_neg h, if_pos (by simp [h])]
    rfl

/-- What is merged of declared properties, required names and what has been said of further properties. -/
def Merged.ofParts (properties : Entries) (required : List String) (additional : List Tree) : Merged :=
  ⟨Entries.ofPairs properties, required, additional.headD .null⟩

section

variable {declared : Entries} {required : List String} {additional : List Tree}

/-- A property is added if those before it agree with it. -/
theorem addProperty_eq_ok_iff (h : declared.Pairwise Accords) {key : Scalar} {schema : Tree} :
    (Merged.ofParts declared required additional).addProperty owner key schema = .ok m ↔
      (declared ++ [(key, schema)]).Pairwise Accords ∧
        m = Merged.ofParts (declared ++ [(key, schema)]) required additional := by
  have hput : Merged.ofParts (declared ++ [(key, schema)]) required additional =
      { Merged.ofParts declared required additional with
        properties := Entries.put key schema (Entries.ofPairs declared) } := by
    rw [Merged.ofParts, Entries.ofPairs_concat, Merged.ofParts]
  have hagree : (declared ++ [(key, schema)]).Pairwise Accords ↔
      ∀ x, Entries.at? key (Entries.ofPairs declared) = some x → x = .null ∨ x.same schema = true := by
    rw [← accords_iff_last h (key, schema), List.pairwise_append]
    simp only [h, List.pairwise_singleton, List.mem_singleton, forall_eq, true_and]
  rw [hagree, hput]
  constructor
  · intro hok
    exact (Merged.addProperty_eq_ok hok).symm
  · rintro ⟨hexisting, rfl⟩
    rw [Merged.addProperty]
    cases hx : Entries.at? key (Merged.ofParts declared required additional).properties with
    | none => rfl
    | some x =>
      refine if_neg fun hconflict => ?_
      rcases hexisting x hx with hnull | hsame
      · exact hconflict.1 hnull
      · simp [hsame] at hconflict

/-- Properties are added if they agree with each other and with those before them. -/
theorem addProperties_eq_ok_iff (h : declared.Pairwise Accords) {properties : Entries} :
    properties.foldlM (fun m (key, schema) => m.addProperty owner key schema)
      (Merged.ofParts declared required additional) = .ok m ↔ (declared ++ properties).Pairwise Accords ∧
        m = Merged.ofParts (declared ++ properties) required additional := by
  induction properties generalizing declared with
  | nil =>
    rw [List.append_nil]
    exact ⟨fun hok => ⟨h, (Except.ok.inj hok).symm⟩, fun hok => congrArg _ hok.2.symm⟩
  | cons p properties ih =>
    rw [List.foldlM_cons, ApiContract.bind_eq_ok, List.append_cons]
    constructor
    · rintro ⟨m₁, hm₁, hrest⟩
      obtain ⟨hagree, rfl⟩ := (addProperty_eq_ok_iff h).1 hm₁
      exact (ih hagree).1 hrest
    · rintro ⟨hagree, rfl⟩
      have hp := (List.pairwise_append.1 hagree).1
      exact ⟨_, (addProperty_eq_ok_iff h).2 ⟨hp, rfl⟩, (ih hp).2 ⟨hagree, rfl⟩⟩

/-- What object schemas have said of further properties is something, and one of them at most has said it. -/
def OneAtMost (additional : List Tree) : Prop :=
  additional.length ≤ 1 ∧ ∀ t ∈ additional, t ≠ .null

theorem OneAtMost.headD_eq_null (h : OneAtMost additional) : additional.headD .null = .null ↔
    additional = [] := by
  cases additional with
  | nil => exact iff_of_true rfl rfl
  | cons t ts => exact iff_of_false (h.2 t List.mem_cons_self) (List.cons_ne_nil _ _)

/-- An object schema is added if what it declares can be read, its properties agree, and nothing has been
said of further properties where it says something. -/
theorem add_eq_ok_iff (h : declared.Pairwise Accords) (hone : OneAtMost additional) {object : Entries} :
    (Merged.ofParts declared required additional).add owner object = .ok m ↔
      ∃ ps parts ns, entriesOf object "properties" = .ok ps ∧ partsOf object "required" = .ok parts ∧
        requiredNames parts = .ok ns ∧ (declared ++ ps).Pairwise Accords ∧
          (additional ++ further [object]).length ≤ 1 ∧
            m = Merged.ofParts (declared ++ ps) (required ++ ns) (additional ++ further [object]) := by
  rw [Merged.add, ApiContract.bind_eq_ok]
  simp only [addProperties_eq_ok_iff h, ApiContract.bind_eq_ok]
  rw [further_cons, further_nil, List.append_nil]
  constructor
  · rintro ⟨ps, hps, _, ⟨hagree, rfl⟩, parts, hparts, ns, hns, hm⟩
    refine ⟨ps, parts, ns, hps, hparts, hns, hagree, ?_⟩
    split at hm
    · rename_i hnull
      cases hm
      rw [if_pos hnull, List.append_nil]
      exact ⟨hone.1, rfl⟩
    · rename_i hsome
      split at hm
      · cases hm
      · rename_i hfree
        cases hm
        have hnone : additional = [] := hone.headD_eq_null.1 (not_not.1 hfree)
        rw [if_neg hsome, hnone]
        exact ⟨le_rfl, rfl⟩
  · rintro ⟨ps, parts, ns, hps, hparts, hns, hagree, hlength, rfl⟩
    refine ⟨ps, hps, _, ⟨hagree, rfl⟩, parts, hparts, ns, hns, ?_⟩
    split
    · rename_i hnull
      rw [if_pos hnull, List.append_nil]
      rfl
    · rename_i hsome
      rw [if_neg hsome, List.length_append, List.length_singleton] at hlength
      have hnone : additional = [] := List.eq_nil_of_length_eq_zero (by omega)
      rw [if_neg hsome, hnone]
      exact if_neg (not_not.2 rfl)

/-- What object schemas make is added to what is there already. -/
theorem foldlM_add_eq_ok_iff {objects : List Entries} (h : declared.Pairwise Accords)
    (hone : OneAtMost additional) :
    objects.foldlM (Merged.add owner) (Merged.ofParts declared required additional) = .ok m ↔
      ∃ properties names, Declared objects properties names ∧ (declared ++ properties).Pairwise Accords ∧
        (additional ++ further objects).length ≤ 1 ∧
          m = Merged.ofParts (declared ++ properties) (required ++ names) (additional ++ further objects) := by
  induction objects generalizing declared required additional with
  | nil =>
    simp only [declared_nil, further_nil]
    constructor
    · rintro ⟨⟩
      exact ⟨[], [], ⟨rfl, rfl⟩, by simpa using h, by simpa using hone.1, by simp⟩
    · rintro ⟨_, _, ⟨rfl, rfl⟩, -, -, rfl⟩
      rw [List.append_nil, List.append_nil, List.append_nil]
      rfl
  | cons object objects ih =>
    have hfurther : additional ++ further (object :: objects) =
        additional ++ further [object] ++ further objects := by
      rw [further_cons, further_cons object [], further_nil, List.append_nil, List.append_assoc]
    have hsaid : ∀ t ∈ additional ++ further [object], t ≠ .null := by
      intro t ht
      rcases List.mem_append.1 ht with ht | ht
      · exact hone.2 t ht
      · exact of_decide_eq_true (List.mem_filter.1 ht).2
    rw [List.foldlM_cons, ApiContract.bind_eq_ok, hfurther]
    constructor
    · rintro ⟨m₁, hm₁, hrest⟩
      obtain ⟨ps, parts, ns, hps, hparts, hns, hagree, hlength, rfl⟩ := (add_eq_ok_iff h hone).1 hm₁
      obtain ⟨properties, names, hdeclared, hagree', hlength', rfl⟩ :=
        (ih hagree ⟨hlength, hsaid⟩).1 hrest
      refine ⟨ps ++ properties, ns ++ names,
        declared_cons.2 ⟨ps, parts, ns, properties, names, hps, hparts, hns, hdeclared, rfl, rfl⟩, ?_⟩
      rw [← List.append_assoc, ← List.append_assoc]
      exact ⟨hagree', hlength', rfl⟩
    · rintro ⟨_, _, hdeclared, hagree, hlength, rfl⟩
      obtain ⟨ps, parts, ns, properties, names, hps, hparts, hns, hrest, rfl, rfl⟩ :=
        declared_cons.1 hdeclared
      rw [← List.append_assoc] at hagree
      have hfirst := (List.pairwise_append.1 hagree).1
      have hlength' : (additional ++ further [object]).length ≤ 1 :=
        (List.length_append ▸ hlength : _ + _ ≤ 1).trans' (Nat.le_add_right _ _)
      refine ⟨_, (add_eq_ok_iff h hone).2 ⟨ps, parts, ns, hps, hparts, hns, hfirst, hlength', rfl⟩, ?_⟩
      refine (ih hfirst ⟨hlength', hsaid⟩).2 ⟨properties, names, hrest, hagree, hlength, ?_⟩
      rw [List.append_assoc declared, List.append_assoc required]

end

/-- Object schemas are merged if what they declare can be read, properties of one name agree and one of the
schemas at most says something about further properties. -/
theorem merge_eq_ok_iff {objects : List Entries} : merge owner objects = .ok m ↔
    ∃ properties required, Declared objects properties required ∧ properties.Pairwise Accords ∧
      (further objects).length ≤ 1 ∧ m = Merged.ofParts properties required (further objects) := by
  have hstart : (⟨[], [], .null⟩ : Merged) = Merged.ofParts [] [] [] := rfl
  have hone : OneAtMost [] := ⟨Nat.zero_le 1, nofun⟩
  rw [merge, hstart, foldlM_add_eq_ok_iff .nil hone]
  rfl

/-! ## Fields -/

/-- The properties of which a record has fields: each that is declared and not left out, in the order of the
first declarations, with the schema that is declared last. -/
structure Kept (exclude : Tree) (declared kept : Entries) : Prop where
  mem : ∀ p, p ∈ kept ↔ Entries.at? p.1 declared.reverse = some p.2 ∧ Tree.scalar p.1 ≠ exclude
  order : kept.Pairwise fun p q => (declared.map (·.1)).idxOf p.1 < (declared.map (·.1)).idxOf q.1

theorem kept_ofPairs (exclude : Tree) (declared : Entries) :
    Kept exclude declared ((Entries.ofPairs declared).filter fun p => Tree.scalar p.1 != exclude) where
  mem p := by
    rw [List.mem_filter, bne_iff_ne, ← Entries.at?_ofPairs]
    refine and_congr_left fun _ => ⟨fun h => ?_, Entries.mem_of_at?⟩
    exact Entries.at?_of_mem (Entries.nodup_ofPairs declared) h
  order := by
    have horder := Entries.ofPairs_order declared
    rw [List.pairwise_map] at horder
    exact horder.sublist List.filter_sublist

/-- No other properties in any other order are kept. -/
theorem Kept.eq {exclude : Tree} {declared kept kept' : Entries} (h : Kept exclude declared kept)
    (h' : Kept exclude declared kept') : kept = kept' := by
  have : Std.Asymm fun p q : Scalar × Tree =>
      (declared.map (·.1)).idxOf p.1 < (declared.map (·.1)).idxOf q.1 := ⟨fun _ _ => Nat.lt_asymm⟩
  exact h.order.eq_of_mem_iff h'.order fun p => (h.mem p).trans (h'.mem p).symm

section

variable {σ : Type} {typeOf : Tree → RunOn σ TypeExpr} {s s' : σ} {required : List String}
  {exclude : Tree}

/-- The description of a property: that of its schema, or of the schema that it refers to. -/
def Describes (table : Entries) (schema : Tree) (description : Option String) : Prop :=
  ∃ target, resolve table schema = .ok target ∧ target.isMap = true ∧
    textField "description" (target.getD "description") = .ok description

/-- Fields for properties, one for each in order. Their types are compiled one after the other. -/
structure FieldsFor (table : Entries) (typeOf : Tree → RunOn σ TypeExpr) (required taken : List String)
    (properties : Entries) (s : σ) (fields : List Field) (s' : σ) : Prop where
  keys : properties.map (·.1) = fields.map fun f => .text f.wireName
  names : fields.map (·.name) =
    Text.uniqueNames taken (fields.map fun f => Text.fieldIdentifier f.wireName)
  types : (properties.map (·.2)).mapM typeOf s = (.ok (fields.map (·.type)), s')
  descriptions : List.Forall₂ (fun p f => Describes table p.2 f.description) properties fields
  required : ∀ f ∈ fields, f.required = required.contains f.wireName

theorem fieldsFor_nil {taken : List String} {fields : List Field} :
    FieldsFor table typeOf required taken [] s fields s' ↔ fields = [] ∧ s = s' := by
  constructor
  · intro h
    cases h.descriptions
    exact ⟨rfl, (pure_eq_ok.1 h.types).2⟩
  · rintro ⟨rfl, rfl⟩
    exact ⟨rfl, rfl, rfl, .nil, nofun⟩

theorem fieldsFor_cons {taken : List String} {key : Scalar} {schema : Tree} {properties : Entries}
    {fields : List Field} : FieldsFor table typeOf required taken ((key, schema) :: properties) s fields s' ↔
      ∃ wireName type s₁ description rest, key = .text wireName ∧ typeOf schema s = (.ok type, s₁) ∧
        Describes table schema description ∧
          FieldsFor table typeOf required
            (Text.uniqueName (Text.fieldIdentifier wireName) taken :: taken) properties s₁ rest s' ∧
            fields = ⟨Text.uniqueName (Text.fieldIdentifier wireName) taken, wireName, type,
              required.contains wireName, description⟩ :: rest := by
  constructor
  · intro h
    obtain ⟨hkeys, hnames, htypes, hdescriptions, hrequired⟩ := h
    cases hdescriptions with
    | @cons _ f _ rest hdescription hdescriptions =>
      obtain ⟨hkey, hkeys⟩ := List.cons.inj hkeys
      rw [List.map_cons, List.map_cons, Text.uniqueNames] at hnames
      obtain ⟨hname, hnames⟩ := List.cons.inj hnames
      rw [List.map_cons, List.mapM_cons] at htypes
      obtain ⟨type, s₁, htype, htypes⟩ := bind_eq_ok.1 htypes
      obtain ⟨types, _, hrest, htypes⟩ := bind_eq_ok.1 htypes
      obtain ⟨heq, rfl⟩ := pure_eq_ok.1 htypes
      obtain ⟨rfl, rfl⟩ := List.cons.inj heq
      obtain ⟨hfirst, hrequired⟩ := List.forall_mem_cons.1 hrequired
      refine ⟨f.wireName, f.type, s₁, f.description, rest, hkey, htype, hdescription,
        ⟨hkeys, hnames, hrest, hdescriptions, hrequired⟩, ?_⟩
      rw [← hname, ← hfirst]
  · rintro ⟨wireName, type, s₁, description, rest, rfl, htype, hdescription, hrest, rfl⟩
    refine ⟨?_, ?_, ?_, .cons hdescription hrest.descriptions,
      List.forall_mem_cons.2 ⟨rfl, hrest.required⟩⟩
    · rw [List.map_cons, List.map_cons, hrest.keys]
    · rw [List.map_cons, List.map_cons, Text.uniqueNames, hrest.names]
    · rw [List.map_cons, List.mapM_cons]
      exact bind_eq_ok.2 ⟨type, s₁, htype, bind_eq_ok.2 ⟨_, s', hrest.types, rfl⟩⟩

/-- A record has the fields for the properties that are not left out. -/
theorem fieldsOf_eq_ok_iff {properties : Entries} {taken : List String} {fields : List Field} :
    fieldsOf table typeOf required exclude taken properties s = (.ok fields, s') ↔
      FieldsFor table typeOf required taken
        (properties.filter fun p => Tree.scalar p.1 != exclude) s fields s' := by
  induction properties generalizing taken fields s with
  | nil =>
    rw [List.filter_nil, fieldsFor_nil, fieldsOf.eq_def]
    exact pure_eq_ok.trans (and_congr_left' eq_comm)
  | cons p properties ih =>
    obtain ⟨key, schema⟩ := p
    rw [fieldsOf.eq_def]
    dsimp only
    by_cases hexclude : Tree.scalar key = exclude
    · rw [if_pos (beq_iff_eq.2 hexclude), List.filter_cons_of_neg (by simpa using hexclude), ih]
    · rw [if_neg (mt beq_iff_eq.1 hexclude), List.filter_cons_of_pos (by simpa using hexclude),
        fieldsFor_cons]
      constructor
      · intro h
        cases key with
        | text wireName =>
          obtain ⟨type, s₁, htype, h⟩ := bind_eq_ok.1 h
          obtain ⟨target, _, hlift, h⟩ := bind_eq_ok.1 h
          obtain ⟨htarget, rfl⟩ := lift_eq_ok.1 hlift
          split at h
          · cases h
          · rename_i hmap
            obtain ⟨description, _, hlift, h⟩ := bind_eq_ok.1 h
            obtain ⟨hdescription, rfl⟩ := lift_eq_ok.1 hlift
            obtain ⟨rest, _, hrest, h⟩ := bind_eq_ok.1 h
            obtain ⟨rfl, rfl⟩ := pure_eq_ok.1 h
            exact ⟨wireName, type, s₁, description, rest, rfl, htype,
              ⟨target, htarget, by simpa using hmap, hdescription⟩, ih.1 hrest, rfl⟩
        | _ => cases h
      · rintro ⟨wireName, type, s₁, description, rest, rfl, htype, ⟨target, htarget, hmap, hdescription⟩,
          hrest, rfl⟩
        refine bind_eq_ok.2 ⟨type, s₁, htype, bind_eq_ok.2 ⟨target, s₁, lift_eq_ok.2 ⟨htarget, rfl⟩, ?_⟩⟩
        rw [if_neg (by simp [hmap])]
        refine bind_eq_ok.2 ⟨description, s₁, lift_eq_ok.2 ⟨hdescription, rfl⟩, ?_⟩
        exact bind_eq_ok.2 ⟨rest, s', ih.2 hrest, rfl⟩

/-- Object schemas make a record if and only if what they declare can be read, properties of one name agree,
at most one of them says something about further properties, and the properties that are kept and what is said
about further ones have types. -/
theorem body_eq_ok_iff {objects : List Entries} {b : Body} :
    body table typeOf owner objects exclude s = (.ok b, s') ↔
      ∃ properties names kept s₁, Declared objects properties names ∧ properties.Pairwise Accords ∧
        (further objects).length ≤ 1 ∧ Kept exclude properties kept ∧
          FieldsFor table typeOf names [] kept s b.fields s₁ ∧
            additionalType (some ((further objects).headD .null, typeOf ((further objects).headD .null)))
              s₁ = (.ok b.extra, s') := by
  rw [body, bind_eq_ok]
  constructor
  · rintro ⟨m, _, hlift, h⟩
    obtain ⟨hmerged, rfl⟩ := lift_eq_ok.1 hlift
    obtain ⟨properties, names, hdeclared, hagree, hlength, rfl⟩ := merge_eq_ok_iff.1 hmerged
    obtain ⟨fields, s₁, hfields, h⟩ := bind_eq_ok.1 h
    obtain ⟨extra, _, hextra, h⟩ := bind_eq_ok.1 h
    obtain ⟨rfl, rfl⟩ := pure_eq_ok.1 h
    exact ⟨properties, names, _, s₁, hdeclared, hagree, hlength, kept_ofPairs exclude properties,
      fieldsOf_eq_ok_iff.1 hfields, hextra⟩
  · rintro ⟨properties, names, kept, s₁, hdeclared, hagree, hlength, hkept, hfields, hextra⟩
    obtain rfl := hkept.eq (kept_ofPairs exclude properties)
    refine ⟨_, s, lift_eq_ok.2 ⟨merge_eq_ok_iff.2 ⟨properties, names, hdeclared, hagree, hlength, rfl⟩,
      rfl⟩, ?_⟩
    exact bind_eq_ok.2 ⟨b.fields, s₁, fieldsOf_eq_ok_iff.2 hfields, bind_eq_ok.2 ⟨b.extra, s', hextra, rfl⟩⟩

/-- A property of which a field can be made in whatever state. -/
structure Fieldable (table : Entries) (typeOf : Tree → RunOn σ TypeExpr) (p : Scalar × Tree) : Prop where
  name : ∃ wireName, p.1 = .text wireName
  type : ∀ s, ∃ type s', typeOf p.2 s = (.ok type, s')
  description : ∃ description, Describes table p.2 description

theorem exists_fieldsFor {properties : Entries} (h : ∀ p ∈ properties, Fieldable table typeOf p)
    (taken : List String) (s : σ) :
    ∃ fields s', FieldsFor table typeOf required taken properties s fields s' := by
  induction properties generalizing taken s with
  | nil => exact ⟨[], s, fieldsFor_nil.2 ⟨rfl, rfl⟩⟩
  | cons p properties ih =>
    obtain ⟨key, schema⟩ := p
    obtain ⟨⟨⟨wireName, hname⟩, htype, description, hdescription⟩, hproperties⟩ :=
      List.forall_mem_cons.1 h
    obtain ⟨type, s₁, htype⟩ := htype s
    obtain ⟨rest, s', hrest⟩ :=
      ih hproperties (Text.uniqueName (Text.fieldIdentifier wireName) taken :: taken) s₁
    exact ⟨_, s', fieldsFor_cons.2
      ⟨wireName, type, s₁, description, rest, hname, htype, hdescription, hrest, rfl⟩⟩

/-- Object schemas of which all can be read and typed make a record if and only if properties of one name agree
and at most one of them says something about further properties. -/
theorem exists_body_iff {objects : List Entries} {properties : Entries} {names : List String}
    (hdeclared : Declared objects properties names)
    (hproperties : ∀ p ∈ properties, Tree.scalar p.1 ≠ exclude → Fieldable table typeOf p)
    (hfurther : ∀ t ∈ further objects, ∀ s, ∃ e s', additionalType (some (t, typeOf t)) s = (.ok e, s'))
    (s : σ) : (∃ b s', body table typeOf owner objects exclude s = (.ok b, s')) ↔
      properties.Pairwise Accords ∧ (further objects).length ≤ 1 := by
  simp only [body_eq_ok_iff]
  constructor
  · rintro ⟨b, s', properties', names', _, _, hdeclared', hagree, hlength, -⟩
    obtain ⟨rfl, -⟩ := hdeclared.eq hdeclared'
    exact ⟨hagree, hlength⟩
  · rintro ⟨hagree, hlength⟩
    have hkept := kept_ofPairs exclude properties
    have hfieldable : ∀ p ∈ (Entries.ofPairs properties).filter fun p => Tree.scalar p.1 != exclude,
        Fieldable table typeOf p := fun p hp => by
      obtain ⟨hlast, hexclude⟩ := (hkept.mem p).1 hp
      exact hproperties p (List.mem_reverse.1 (Entries.mem_of_at? hlast)) hexclude
    obtain ⟨fields, s₁, hfields⟩ := exists_fieldsFor hfieldable [] s
    obtain ⟨extra, s', hextra⟩ : ∃ e s', additionalType
        (some ((further objects).headD .null, typeOf ((further objects).headD .null))) s₁ = (.ok e, s') := by
      cases hobjects : further objects with
      | nil => exact ⟨none, s₁, rfl⟩
      | cons t ts => exact hfurther t (hobjects ▸ List.mem_cons_self) s₁
    exact ⟨⟨fields, extra⟩, s', properties, names, _, s₁, hdeclared, hagree, hlength, hkept, hfields, hextra⟩

end

/-! ## Compositions as records -/

/-- The object schemas of a composition are collected if every node is fit, in the order of their addresses; and
object schemas make a record if they can be read and typed, properties of one name accord and at most one of
them says something about further properties. -/
theorem leaves_and_body_eq_ok_iff (table : Entries) (owner : String) :
    (∀ t objects, leaves table owner t = .ok objects ↔ Fit table [] t ∧ InOrder table [] t objects) ∧
    (∀ t, (∃ f, leaves table owner t = .error f) ↔
      ∃ address visited u, Meets table [] t address visited u ∧ Unfit table visited u) ∧
    ∀ {σ : Type} (typeOf : Tree → RunOn σ TypeExpr) (exclude : Tree) (objects : List Entries) (s : σ),
      (∀ b s', body table typeOf owner objects exclude s = (.ok b, s') ↔
        ∃ properties names kept s₁, Declared objects properties names ∧ properties.Pairwise Accords ∧
          (further objects).length ≤ 1 ∧ Kept exclude properties kept ∧
            FieldsFor table typeOf names [] kept s b.fields s₁ ∧
              additionalType (some ((further objects).headD .null, typeOf ((further objects).headD .null)))
                s₁ = (.ok b.extra, s')) ∧
      ∀ properties names, Declared objects properties names →
        (∀ p ∈ properties, Tree.scalar p.1 ≠ exclude → Fieldable table typeOf p) →
        (∀ t ∈ further objects, ∀ s, ∃ e s', additionalType (some (t, typeOf t)) s = (.ok e, s')) →
        ((∃ b s', body table typeOf owner objects exclude s = (.ok b, s')) ↔
          properties.Pairwise Accords ∧ (further objects).length ≤ 1) :=
  ⟨fun _ _ => leaves_eq_ok_iff, fun _ => leaves_eq_error_iff, fun _ _ _ s =>
    ⟨fun _ _ => body_eq_ok_iff, fun _ _ hdeclared hproperties hfurther =>
      exists_body_iff hdeclared hproperties hfurther s⟩⟩

/-- The object schema of a property. -/
def sampleLeaf (property : String) : Entries := (sampleRequired property).entries?.getD []

/-- The schema of its property. -/
def sampleString : Tree := Tree.object [("type", .text "string")]

theorem fieldable_sampleString (table : Entries) (n : String) :
    Fieldable table (typeOf table) (.text n, sampleString) :=
  ⟨⟨n, rfl⟩, fun s => ⟨_, s, rfl⟩, none, sampleString, rfl, rfl, rfl⟩

/-- A composition that meets a schema twice, once in a composition that stands inline. -/
def sampleDiamond : Tree :=
  Tree.object [("allOf", Tree.array [Reference.asTree "#/components/schemas/Base",
    Tree.object [("allOf", Tree.array [Reference.asTree "#/components/schemas/Base",
      sampleRequired "name"])]])]

theorem leaves_and_body_sampleDiamond :
    InOrder sampleComposed [] sampleDiamond [sampleLeaf "id", sampleLeaf "id", sampleLeaf "name"] ∧
      ∃ b s', body sampleComposed (typeOf sampleComposed) "Pet"
        [sampleLeaf "id", sampleLeaf "id", sampleLeaf "name"] .null .start = (.ok b, s') := by
  obtain ⟨hleaves, -, hbody⟩ := leaves_and_body_eq_ok_iff sampleComposed "Pet"
  have hcollected : leaves sampleComposed "Pet" sampleDiamond =
      .ok [sampleLeaf "id", sampleLeaf "id", sampleLeaf "name"] := eq_ok_of_toOption (by decide +kernel)
  have hdeclared : Declared [sampleLeaf "id", sampleLeaf "id", sampleLeaf "name"]
      (["id", "id", "name"].map fun n => (.text n, sampleString)) ["id", "id", "name"] :=
    ⟨⟨[_, _, _], .cons rfl (.cons rfl (.cons rfl .nil)), rfl⟩,
      ⟨[_, _, _], .cons ⟨_, rfl, rfl⟩ (.cons ⟨_, rfl, rfl⟩ (.cons ⟨_, rfl, rfl⟩ .nil)), rfl⟩⟩
  have hsame : sampleString.same sampleString = true := by decide +kernel
  refine ⟨((hleaves _ _).1 hcollected).2, ?_⟩
  refine ((hbody (typeOf sampleComposed) .null _ .start).2 _ _ hdeclared ?_ nofun).2 ⟨?_, by decide⟩
  · exact List.forall_mem_map.2 fun n _ _ => fieldable_sampleString sampleComposed n
  · exact List.pairwise_map.2 (List.pairwise_of_forall fun _ _ _ => .inr hsame)

/-- A composition without a list under `allOf`. -/
def sampleNumber : Tree := Tree.object [("allOf", .int 5)]

/-- An object schema with one property. -/
def sampleDeclaring (key : Scalar) (schema : Tree) (more : Entries) : Entries :=
  (.text "properties", .map none [(key, schema)]) :: more

/-- Properties with types, and what stands beside them: further properties without a type, names that cannot
be read, and nothing where the name or the description of the property itself cannot be. -/
def sampleFailing : List (Scalar × Tree × Entries) := [
  (.text "a", sampleString, [(.text "additionalProperties",
    Tree.object [("type", .text "string"), ("enum", Tree.array [.text "x"])])]),
  (.text "a", sampleString, [(.text "required", .int 5)]),
  (.int 3, sampleString, []),
  (.text "a", Tree.object [("type", .text "string"), ("description", .int 5)], [])]

/-- Only a composition is met, and collecting it fails; object schemas with one property that has a type make
no record; and properties of one name make one though their schemas differ. -/
theorem leaves_and_body_sampleFailing :
    ((∀ address visited u, Meets [] [] sampleNumber address visited u → ∃ a es, u = .map a es ∧
        Reference.ofEntries? es = none ∧ Schema.kind es = .ok .allOf) ∧
      ∃ f, leaves [] "Pet" sampleNumber = .error f) ∧
    (∀ p ∈ sampleFailing, (∀ s, ∃ type s', typeOf [] p.2.1 s = (.ok type, s')) ∧
      entriesOf (sampleDeclaring p.1 p.2.1 p.2.2) "properties" = .ok [(p.1, p.2.1)] ∧
      (further [sampleDeclaring p.1 p.2.1 p.2.2]).length ≤ 1 ∧
      ∀ s, ∃ f, (body [] (typeOf []) "Pet" [sampleDeclaring p.1 p.2.1 p.2.2] .null s).1 = .error f) ∧
    Tree.same .null sampleString = false ∧
    ∀ s, ∃ b s', body [] (typeOf []) "Pet"
      [sampleDeclaring (.text "a") .null [], sampleDeclaring (.text "a") sampleString []] .null s = (.ok b, s') := by
  refine ⟨⟨fun address visited u hmeets => ?_, _, rfl⟩, ?_, by decide +kernel, fun s => ⟨_, s, rfl⟩⟩
  · obtain ⟨rfl, -, -⟩ := Meets.of_end rfl (fun _ _ _ h => by cases h) hmeets
    exact ⟨_, _, rfl, rfl, rfl⟩
  · simp only [sampleFailing, List.forall_mem_cons]
    refine ⟨?_, ?_, ?_, ?_, nofun⟩ <;>
    exact ⟨fun s => ⟨_, s, rfl⟩, rfl, by decide, fun s => ⟨_, rfl⟩⟩

end Compile

end ApiContract
