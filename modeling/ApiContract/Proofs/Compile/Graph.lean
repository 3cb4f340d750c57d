import ApiContract.Proofs.Compile.Outcome
import ApiContract.Proofs.Compile.Schema
import ApiContract.Proofs.Lists
import ApiContract.Proofs.Tree.Same
import Mathlib.Logic.Relation

/-!
# The graph of references

An entry of a table leads to another one (`Edge`) if its schema refers to it where types are read: as a
type expression or within one (`Mentions`), among the properties of an object schema or as what further
properties may be (`Contains`), as a part of a composition (`Composes`), and in what the branches of a union
contain but for the property that tells them apart.

Collecting the object schemas of a composition fails over a schema at hand, or over a cycle, and then entries of
the table lead around one (`error_of_leaves`).

Two schemas that stand for the same value mention the same references (`Mentions.of_same`), so that either may
be taken for a property that a composition has twice.
-/

namespace ApiContract

/-- The keys of every map stand for different scalars. -/
def Tree.Keyed : Tree → Prop :=
  Tree.para {
    scalar _ := True
    list _ items := ∀ i ∈ items, i.2
    map _ entries := Tree.Distinct (entries.map (·.1)) ∧ ∀ e ∈ entries, e.2.2
    set _ _ := True
    pair x y := x.2 ∧ y.2
    back _ _ := True }

theorem Scalar.null_iff_of_same {k l : Scalar} (h : k.same l = true) : k = .null ↔ l = .null := by
  have hcanonical : ∀ m : Scalar, m.canonical = .null ↔ m = .null := by
    intro m
    cases m with
    | float x =>
      simp only [canonical]
      cases Decimal.integer? x <;> simp
    | _ => simp [canonical]
  rw [← hcanonical k, ← hcanonical l, same_iff.1 h]

namespace Tree

@[simp] theorem keyed_scalar {s : Scalar} : Keyed (.scalar s) := trivial

@[simp] theorem keyed_list {a : Anchor} {ts : List Tree} : Keyed (.list a ts) ↔ ∀ t ∈ ts, Keyed t := by
  simp only [Keyed, para, paraItems_eq, List.forall_mem_map]

@[simp] theorem keyed_map {a : Anchor} {es : Entries} :
    Keyed (.map a es) ↔ Distinct (es.map (·.1)) ∧ ∀ e ∈ es, Keyed e.2 := by
  simp only [Keyed, para, paraEntries_eq, List.map_map, List.forall_mem_map]
  rfl

/-- Where one of two trees that are the same is a text, the other one is that text. -/
theorem eq_text_of_same {t u : Tree} {x : String} (h : t.same u = true) : t = .text x ↔ u = .text x := by
  cases t with
  | scalar s =>
    obtain ⟨s', rfl, hs⟩ := same_scalar.1 h
    simp only [scalar.injEq]
    constructor
    · rintro rfl
      rw [Scalar.same_comm] at hs
      exact Scalar.same_text.1 hs
    · rintro rfl
      exact Scalar.same_text.1 hs
  | _ => cases u <;> simp [same, para] at h ⊢

/-- A text key is found in both of two maps that are the same, with values that are the same, or in
neither. -/
theorem get?_of_same {a b : Anchor} {es fs : Entries} (h : same (.map a es) (.map b fs) = true)
    (hd : Distinct (es.map (·.1))) (key : String) :
    (es.get? key = none ∧ fs.get? key = none) ∨
      ∃ v w, es.get? key = some v ∧ fs.get? key = some w ∧ same v w = true := by
  simp only [Entries.get?, ← findSame?_text]
  cases hv : findSame? (.text key) es with
  | some v =>
    obtain ⟨w, hw, hvw⟩ := findSame?_of_same h hv
    exact .inr ⟨v, w, rfl, hw, hvw⟩
  | none =>
    refine .inl ⟨rfl, ?_⟩
    rw [findSame?_text, Entries.at?_eq_none] at hv ⊢
    obtain ⟨_, _, heq, hlen, hes⟩ := same_map.1 h
    cases heq
    have hkeys : ∀ k ∈ es.map (·.1), ∃ l ∈ fs.map (·.1), k.same l = true := by
      intro k hk
      obtain ⟨e, he, rfl⟩ := List.mem_map.1 hk
      obtain ⟨w, hw, -⟩ := hes e he
      obtain ⟨f, hf, hfe, -⟩ := findSame?_eq_some hw
      exact ⟨f.1, List.mem_map_of_mem hf, by rwa [Scalar.same_comm]⟩
    intro hmem
    obtain ⟨k, hk, hsame⟩ := exists_same_of_length_eq hd (by simpa using hlen) hkeys _ hmem
    exact hv (Scalar.same_text.1 hsame ▸ hk)

end Tree

namespace Schema

variable {a b : Anchor} {es fs : Entries}

theorem has_of_same (h : Tree.same (.map a es) (.map b fs) = true) (hd : Tree.Distinct (es.map (·.1)))
    (key : String) : es.has key = fs.has key := by
  unfold Entries.has
  rcases Tree.get?_of_same h hd key with ⟨hv, hw⟩ | ⟨v, w, hv, hw, -⟩
  · rw [hv, hw]
  · rw [hv, hw]
    rfl

theorem typedKind_of_same {t u : Tree} {k : SchemaKind} (h : t.same u = true)
    (hk : typedKind t = .ok k) : typedKind u = .ok k := by
  cases t with
  | scalar s =>
    obtain ⟨s', rfl, hs⟩ := Tree.same_scalar.1 h
    unfold typedKind at hk
    dsimp only at hk
    split at hk
    · rename_i k' hfind
      cases hk
      have htext : s = .text k.name := by simpa using List.find?_some hfind
      subst htext
      rw [Scalar.same_comm] at hs
      rw [Scalar.same_text.1 hs]
      unfold typedKind
      dsimp only
      rw [hfind]
    · cases hk
  | _ =>
    unfold typedKind at hk
    cases hk

theorem declaredKind_scalar {s : Scalar} (h : es.get? "type" = some (.scalar s)) (hs : s ≠ .null) :
    declaredKind es = some <$> typedKind (.scalar s) := by
  unfold declaredKind
  rw [h]
  cases s with
  | null => exact absurd rfl hs
  | _ => rfl

theorem declaredKind_of_same (h : Tree.same (.map a es) (.map b fs) = true)
    (hd : Tree.Distinct (es.map (·.1))) {k : Option SchemaKind} (hk : declaredKind es = .ok k) :
    declaredKind fs = .ok k := by
  have hmap : ∀ {t u : Tree}, t.same u = true → some <$> typedKind t = .ok k →
      some <$> typedKind u = .ok k := by
    intro t u hsame hk
    obtain ⟨k', hk', rfl⟩ := map_eq_ok.1 (show (typedKind t).map some = .ok k from hk)
    rw [typedKind_of_same hsame hk']
    rfl
  rcases Tree.get?_of_same h hd "type" with ⟨hv, hw⟩ | ⟨v, w, hv, hw, hsame⟩
  · unfold declaredKind at hk ⊢
    rw [hv] at hk
    rw [hw]
    exact hk
  · cases v with
    | scalar s =>
      obtain ⟨s', rfl, hs⟩ := Tree.same_scalar.1 hsame
      have hnull : s = .null ↔ s' = .null := Scalar.null_iff_of_same hs
      by_cases hs' : s = .null
      · unfold declaredKind at hk ⊢
        rw [hv, hs'] at hk
        rw [hw, hnull.1 hs']
        exact hk
      · rw [declaredKind_scalar hv hs'] at hk
        rw [declaredKind_scalar hw fun heq => hs' (hnull.2 heq)]
        exact hmap hsame hk
    | list c ts =>
      obtain ⟨d, us, rfl, hus⟩ := Tree.same_list.1 hsame
      have hfilter : List.Forall₂ (fun x y => Tree.same x y = true) (ts.filter (· ≠ .text "null"))
          (us.filter (· ≠ .text "null")) := by
        refine forall₂_filter hus fun x y hxy => ?_
        rw [decide_eq_decide, not_iff_not]
        exact Tree.eq_text_of_same hxy
      unfold declaredKind at hk ⊢
      rw [hv] at hk
      rw [hw]
      dsimp only at hk ⊢
      generalize ts.filter (· ≠ .text "null") = ts' at hk hfilter
      generalize us.filter (· ≠ .text "null") = us' at hfilter
      rcases hfilter with _ | ⟨hxy, _ | _⟩
      · cases hk
      · exact hmap hxy hk
      · cases hk
    | _ =>
      unfold declaredKind at hk
      rw [hv] at hk
      cases hk

/-- Schemas that are the same have the same kind. -/
theorem kind_of_same (h : Tree.same (.map a es) (.map b fs) = true) (hd : Tree.Distinct (es.map (·.1)))
    {k : SchemaKind} (hk : kind es = .ok k) : kind fs = .ok k := by
  obtain ⟨declared, hdeclared, hk⟩ := bind_eq_ok.1 hk
  unfold kind
  rw [declaredKind_of_same h hd hdeclared]
  simp only [has_of_same h hd] at hk
  exact hk

end Schema

namespace Compile

/-! ## Mentions -/

/-- Where a type expression is read, a schema refers to another one: it is the reference, or the schema of
its further entries or of its items does. -/
inductive Mentions : Tree → String → Prop
  | reference {t : Tree} {r : String} : Reference.ofTree? t = some r → Mentions t r
  | additional {a : Anchor} {es : Entries} {x : Tree} {r : String} : Reference.ofEntries? es = none →
      Schema.kind es = .ok .object → es.get? "additionalProperties" = some x → Mentions x r →
      Mentions (.map a es) r
  | item {a : Anchor} {es : Entries} {x : Tree} {r : String} : Reference.ofEntries? es = none →
      Schema.kind es = .ok .array → es.get? "items" = some x → Mentions x r → Mentions (.map a es) r

theorem Mentions.isMap {t : Tree} {r : String} (h : Mentions t r) : ∃ a es, t = .map a es := by
  cases h with
  | reference h =>
    cases t with
    | map a es => exact ⟨a, es, rfl⟩
    | _ => cases h
  | additional | item => exact ⟨_, _, rfl⟩

theorem ofEntries?_of_same {a b : Anchor} {es fs : Entries}
    (h : Tree.same (.map a es) (.map b fs) = true) (hd : Tree.Distinct (es.map (·.1))) :
    Reference.ofEntries? es = Reference.ofEntries? fs := by
  unfold Reference.ofEntries?
  rcases Tree.get?_of_same h hd "$ref" with ⟨hv, hw⟩ | ⟨v, w, hv, hw, hsame⟩
  · rw [hv, hw]
  · rw [hv, hw]
    show v.text? = w.text?
    cases hv' : v.text? with
    | some x =>
      have htext : v = .text x := by
        unfold Tree.text? at hv'
        split at hv'
        · cases hv'
          rfl
        · cases hv'
      rw [(Tree.eq_text_of_same hsame).1 htext]
      rfl
    | none =>
      cases hw' : w.text? with
      | none => rfl
      | some x =>
        have htext : w = .text x := by
          unfold Tree.text? at hw'
          split at hw'
          · cases hw'
            rfl
          · cases hw'
        rw [(Tree.eq_text_of_same hsame).2 htext] at hv'
        cases hv'

/-- Schemas that are the same mention the same references. -/
theorem Mentions.of_same {t u : Tree} {r : String} (h : Mentions t r) (ht : t.Keyed)
    (hsame : t.same u = true) : Mentions u r := by
  induction h generalizing u with
  | @reference t r href =>
    obtain ⟨a, es, rfl⟩ := (Mentions.reference href).isMap
    obtain ⟨b, fs, rfl, -⟩ := Tree.same_map.1 hsame
    have heq := ofEntries?_of_same hsame (Tree.keyed_map.1 ht).1
    exact .reference (heq.symm.trans href)
  | @additional a es x r href hkind hx _ ih =>
    obtain ⟨b, fs, rfl, -⟩ := Tree.same_map.1 hsame
    obtain ⟨hd, hes⟩ := Tree.keyed_map.1 ht
    rcases Tree.get?_of_same hsame hd "additionalProperties" with ⟨hnone, -⟩ | ⟨v, w, hv, hw, hvw⟩
    · cases hx.symm.trans hnone
    · cases hx.symm.trans hv
      exact .additional ((ofEntries?_of_same hsame hd).symm.trans href) (Schema.kind_of_same hsame hd hkind)
        hw (ih (hes _ (Entries.mem_of_at? hx)) hvw)
  | @item a es x r href hkind hx _ ih =>
    obtain ⟨b, fs, rfl, -⟩ := Tree.same_map.1 hsame
    obtain ⟨hd, hes⟩ := Tree.keyed_map.1 ht
    rcases Tree.get?_of_same hsame hd "items" with ⟨hnone, -⟩ | ⟨v, w, hv, hw, hvw⟩
    · cases hx.symm.trans hnone
    · cases hx.symm.trans hv
      exact .item ((ofEntries?_of_same hsame hd).symm.trans href) (Schema.kind_of_same hsame hd hkind)
        hw (ih (hes _ (Entries.mem_of_at? hx)) hvw)

/-! ## Edges -/

/-- Where a record is read, an object schema refers to another one: a property of it does, unless it is left
out, or what further properties may be. -/
inductive Contains (exclude : Tree) (object : Entries) (r : String) : Prop
  | property {a : Anchor} {properties : Entries} {key : String} {x : Tree} :
      object.get? "properties" = some (.map a properties) → (.text key, x) ∈ properties →
      .text key ≠ exclude → Mentions x r → Contains exclude object r
  | additional {x : Tree} : object.get? "additionalProperties" = some x → Mentions x r →
      Contains exclude object r

/-- A part of a composition, or of one that it is a part of, is a reference. -/
inductive Composes : Tree → String → Prop
  | reference {a b : Anchor} {es : Entries} {ts : List Tree} {t : Tree} {r : String} :
      Reference.ofEntries? es = none → Schema.kind es = .ok .allOf → es.get? "allOf" = some (.list b ts) →
      t ∈ ts → Reference.ofTree? t = some r → Composes (.map a es) r
  | part {a b : Anchor} {es : Entries} {ts : List Tree} {t : Tree} {r : String} :
      Reference.ofEntries? es = none → Schema.kind es = .ok .allOf → es.get? "allOf" = some (.list b ts) →
      t ∈ ts → Composes t r → Composes (.map a es) r

/-- The entry of a table that a reference names. -/
def Names (table : Entries) (r name : String) (schema : Tree) : Prop :=
  Reference.schemaName r = .ok name ∧ table.get? name = some schema

/-- The schema under a reference of the table is the one that it names. -/
theorem names_of_find {table : Entries} {r : String} {found : Found table} (h : find table r = .ok found) :
    Names table r found.name found.schema := by
  refine ⟨?_, found.found⟩
  obtain ⟨name, hname, h⟩ := ApiContract.bind_eq_ok.1 h
  rw [hname]
  split at h
  · cases h
  · cases h
  · split at h
    · cases h
    · cases h
      rfl

/-- An object schema that a schema is, or that it is composed of, through references too. -/
inductive Component (table : Entries) : Tree → Entries → Prop
  | object {a : Anchor} {es : Entries} : Reference.ofEntries? es = none →
      Schema.kind es = .ok .object → Component table (.map a es) es
  | part {a b : Anchor} {es : Entries} {ts : List Tree} {t : Tree} {object : Entries} :
      Reference.ofEntries? es = none → Schema.kind es = .ok .allOf → es.get? "allOf" = some (.list b ts) →
      t ∈ ts → Component table t object → Component table (.map a es) object
  | reference {t schema : Tree} {r name : String} {object : Entries} : Reference.ofTree? t = some r →
      Names table r name schema → Component table schema object → Component table t object

/-- The property that tells the branches of a union apart. -/
def tagOf (union : Entries) : Tree :=
  match union.get? "discriminator" with
  | some (.map _ discriminator) => Entries.orNull discriminator "propertyName"
  | _ => .null

/-- A schema refers to another one where types are read. -/
inductive Refers (table : Entries) (schema : Tree) (r : String) : Prop
  | mention : Mentions schema r → Refers table schema r
  | content {object : Entries} : Component table schema object → Contains .null object r →
      Refers table schema r
  | component : Composes schema r → Refers table schema r
  | branch {a b : Anchor} {union : Entries} {ts : List Tree} {t branch : Tree} {r' name : String}
      {object : Entries} : schema = .map a union → Reference.ofEntries? union = none →
      Schema.kind union = .ok .oneOf → union.get? "oneOf" = some (.list b ts) → t ∈ ts →
      Reference.ofTree? t = some r' → Names table r' name branch → Component table branch object →
      Contains (tagOf union) object r → Refers table schema r

/-- An entry leads to another one. -/
def Edge (table : Entries) (n m : String) : Prop :=
  ∃ schema r, table.get? n = some schema ∧ Refers table schema r ∧ Reference.schemaName r = .ok m

/-- No endless way leads on from an entry. -/
def Grounded (table : Entries) (n : String) : Prop := Acc (fun m n => Edge table n m) n

/-- No endless way leads on from where a reference leads to. -/
def Settles (table : Entries) (r : String) : Prop :=
  ∃ n, Reference.schemaName r = .ok n ∧ Grounded table n

variable {table : Entries}

theorem grounded_of_refers {n : String} {schema : Tree} (hn : table.get? n = some schema)
    (h : ∀ r, Refers table schema r → Settles table r) : Grounded table n := by
  refine Acc.intro _ fun m hm => ?_
  obtain ⟨schema', r, hn', hr, hname⟩ := hm
  cases hn.symm.trans hn'
  obtain ⟨m', hm', hgrounded⟩ := h r hr
  cases hname.symm.trans hm'
  exact hgrounded

theorem Grounded.of_reflTransGen {n m : String} (h : Grounded table n)
    (hnm : Relation.ReflTransGen (Edge table) n m) : Grounded table m := by
  induction hnm with
  | refl => exact h
  | tail _ hedge ih => exact ih.inv hedge

/-- No cycle is reached from where no endless way leads on. -/
theorem Grounded.not_transGen {n : String} (h : Grounded table n) :
    ¬ Relation.TransGen (Edge table) n n := by
  induction h with
  | intro n _ ih =>
    intro hcycle
    obtain ⟨m, hedge, hback⟩ := Relation.TransGen.head'_iff.1 hcycle
    exact ih m hedge (Relation.TransGen.trans_right hback (.single hedge))

/-! ## Compositions that lead back to themselves -/

section

open Tree

variable {owner : String} {f : Failure}

/-- Entries of the table lead around a cycle. -/
def Circular (table : Entries) : Prop := ∃ n, Relation.TransGen (Edge table) n n

section

variable {follow : String → Except Failure (List Entries)}

/-- A reference that collecting the object schemas of a part follows. -/
def Leads (t : Tree) (r : String) : Prop := Reference.ofTree? t = some r ∨ Composes t r

theorem error_of_leafCases_map {a : Anchor} {es : Entries}
    (hparts : ∀ x, es.get? "allOf" = some x → x.para (leafCases follow owner) .list = .error f →
      f.isLocal = true ∨ ∃ b ts, x = .list b ts ∧ ∃ u ∈ ts, ∃ r, Leads u r ∧ follow r = .error f)
    (h : (Tree.map a es).para (leafCases follow owner) .component = .error f) :
    f.isLocal = true ∨ ∃ r, Leads (.map a es) r ∧ follow r = .error f := by
  rw [leafCases_map] at h
  cases href : Reference.ofEntries? es with
  | some r =>
    rw [href] at h
    exact .inr ⟨r, .inl href, h⟩
  | none =>
    rw [href] at h
    dsimp only at h
    rcases bind_eq_error.1 h with h | ⟨kind, hkind, h⟩
    · exact .inl ((local_kind es).failure h)
    cases kind with
    | object => cases h
    | allOf =>
      rw [Entries.lookup_children (fun x => x.para (leafCases follow owner))] at h
      cases hallOf : Entries.at? (.text "allOf") es with
      | none =>
        rw [hallOf] at h
        cases h
      | some x =>
        rw [hallOf] at h
        refine (hparts x hallOf h).imp_right ?_
        rintro ⟨b, ts, rfl, u, hu, r, hr | hr, hfollow⟩
        · exact ⟨r, .inr (.reference href hkind hallOf hu hr), hfollow⟩
        · exact ⟨r, .inr (.part href hkind hallOf hu hr), hfollow⟩
    | _ =>
      cases h
      exact .inl rfl

/-- Collecting fails over a schema at hand, or where a reference is followed. -/
theorem error_of_leafCases (t : Tree) :
    ∀ (role : Role), t.para (leafCases follow owner) role = .error f → f.isLocal = true ∨
      match role with
      | .component => ∃ r, Leads t r ∧ follow r = .error f
      | .list => ∃ a ts, t = .list a ts ∧ ∃ u ∈ ts, ∃ r, Leads u r ∧ follow r = .error f := by
  induction t using Tree.induct with
  | map a es ih =>
    intro role h
    cases role with
    | component =>
      exact error_of_leafCases_map (fun x hx => ih _ (Entries.mem_of_at? hx) .list) h
    | list =>
      simp only [para, leafCases] at h
      split at h
      · cases h
      · cases h
        exact .inl rfl
  | list a ts ih =>
    intro role h
    cases role with
    | component =>
      cases h
      exact .inl rfl
    | list =>
      simp only [para, paraItems_eq, leafCases] at h
      rcases bind_eq_error.1 h with h | ⟨parts, -, h⟩
      · obtain ⟨p, hp, h⟩ := error_of_mapM h
        obtain ⟨u, hu, rfl⟩ := List.mem_map.1 hp
        refine (ih u hu .component h).imp_right ?_
        rintro ⟨r, hr, hfollow⟩
        exact ⟨a, ts, rfl, u, hu, r, hr, hfollow⟩
      · cases h
  | scalar s =>
    intro role h
    cases role with
    | component =>
      cases h
      exact .inl rfl
    | list =>
      have hlocal : Local ((Tree.scalar s).para (leafCases follow owner) .list) := by
        simp only [para, leafCases]
        refine Local.bind ?_ fun parts => (local_forIn (fun part _ => ?_) parts _).bind fun _ => trivial
        · split
          · exact local_iterate _
          · trivial
        · exact (local_kindOf part).bind fun _ => trivial
      exact .inl (hlocal.failure h)
  | set a ms =>
    intro role h
    cases role with
    | component =>
      cases h
      exact .inl rfl
    | list =>
      simp only [para, leafCases] at h
      split at h
      · cases h
      · cases h
        exact .inl rfl
  | pair | back =>
    intro role h
    cases role <;>
    · cases h
      exact .inl rfl

end

/-- Where references have led from the names of a path to this one, collecting what it stands for fails over a
schema at hand, or entries lead around a cycle. -/
theorem error_of_leavesOf (path : List String) (r : String)
    (hpath : ∀ n, Reference.schemaName r = .ok n → ∀ p ∈ path, Relation.TransGen (Edge table) p n)
    (h : leavesOf table owner path r = .error f) :
    f.isLocal = true ∨ (∃ stack, f = .dependencyCycle stack) ∧ Circular table := by
  rw [leavesOf] at h
  cases hfind : find table r with
  | error f' =>
    rw [hfind] at h
    cases h
    exact .inl ((local_find table r).failure hfind)
  | ok found =>
    rw [hfind] at h
    dsimp only at h
    have hname := (names_of_find hfind).1
    split at h
    · rename_i hmem
      cases h
      exact .inr ⟨⟨_, rfl⟩, found.name, hpath _ hname _ hmem⟩
    · rename_i hmem
      refine (error_of_leafCases found.schema .component h).elim .inl fun ⟨r', hr', hfollow⟩ => ?_
      have hedge : ∀ n, Reference.schemaName r' = .ok n → Edge table found.name n := by
        intro n hn
        rcases hr' with hr' | hr'
        · exact ⟨found.schema, r', found.found, .mention (.reference hr'), hn⟩
        · exact ⟨found.schema, r', found.found, .component hr', hn⟩
      refine error_of_leavesOf (path ++ [found.name]) r' (fun n hn => ?_) hfollow
      refine List.forall_mem_append.2 ⟨fun p hp => (hpath _ hname p hp).tail (hedge n hn), ?_⟩
      exact List.forall_mem_singleton.2 (.single (hedge n hn))
termination_by unvisited (names table) path
decreasing_by exact unvisited_append_lt (mem_names found.found) ‹_›

/-- Collecting what a composition is made of fails over a schema at hand, or entries lead around a cycle. -/
theorem error_of_leaves {t : Tree} (h : leaves table owner t = .error f) :
    f.isLocal = true ∨ (∃ stack, f = .dependencyCycle stack) ∧ Circular table :=
  (error_of_leafCases t .component h).elim .inl fun ⟨r, _, hr⟩ => error_of_leavesOf [] r (fun _ _ => nofun) hr

end

end Compile

end ApiContract
