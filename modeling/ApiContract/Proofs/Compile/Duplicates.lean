import ApiContract.Proofs.Compile.Composition
import ApiContract.Proofs.Compile.Origin
import ApiContract.Proofs.Naming.Restore

/-!
# Properties that a composition has twice

Object schemas of one composition may have a property in common if they have the same schema for it. When a
description has been named, that is asked of what naming has put in the place of these schemas: a schema that
needs a name has got a name of its own in each place, so that two that were the same no longer are. Only a
schema in which nothing needs a name stays what it was; and an object schema that a composition meets twice
is named once.

* `LeafAt`: the object schemas of a composition with the places where they stand.
* `LeafAt.before`: naming keeps the places.
* `entry_of_consistent`: a composition whose common properties are the same and need no name, but for object
  schemas that it meets twice, is merged without a conflict when the description has been named.
-/

namespace ApiContract.Compile

open Tree
open Naming (nameSchemas Prepared tableOf)

variable {table : Entries} {owner : String}

/-! ## Places -/

/-- A place in compositions: an entry, and the numbers of the parts that lead on from its schema. -/
structure Site where
  entry : String
  parts : List Nat

/-- The place of a part. -/
def Site.part (site : Site) (i : Nat) : Site := ⟨site.entry, site.parts ++ [i]⟩

/-- The object schemas that a schema at a place is composed of, each with its own place. -/
inductive LeafAt (table : Entries) : Site → Tree → Site → Entries → Prop
  | object {site : Site} {a : Anchor} {es : Entries} : Reference.ofEntries? es = none →
      Schema.kind es = .ok .object → LeafAt table site (.map a es) site es
  | part {site leaf : Site} {a b : Anchor} {es o : Entries} {ts : List Tree} {t : Tree} {i : Nat} :
      Reference.ofEntries? es = none → Schema.kind es = .ok .allOf → es.get? "allOf" = some (.list b ts) →
      ts[i]? = some t → LeafAt table (site.part i) t leaf o → LeafAt table site (.map a es) leaf o
  | reference {site leaf : Site} {t schema : Tree} {r name : String} {o : Entries} :
      Reference.ofTree? t = some r → Names table r name schema → LeafAt table ⟨name, []⟩ schema leaf o →
      LeafAt table site t leaf o

theorem Component.leafAt {t : Tree} {o : Entries} (h : Component table t o) :
    ∀ site, ∃ leaf, LeafAt table site t leaf o := by
  induction h with
  | object href hkind => exact fun site => ⟨site, .object href hkind⟩
  | part href hkind hparts hmem _ ih =>
    intro site
    obtain ⟨i, hi⟩ := List.mem_iff_getElem?.1 hmem
    obtain ⟨leaf, hleaf⟩ := ih (site.part i)
    exact ⟨leaf, .part href hkind hparts hi hleaf⟩
  | reference href hnames _ ih =>
    obtain ⟨leaf, hleaf⟩ := ih ⟨_, []⟩
    exact fun _ => ⟨leaf, .reference href hnames hleaf⟩

/-- The part of a composition with a number. -/
def part? (t : Tree) (i : Nat) : Option Tree :=
  match t.get? "allOf" with
  | some (.list _ ts) => ts[i]?
  | _ => none

theorem part?_of_list {a b : Anchor} {es : Entries} {ts : List Tree} {i : Nat}
    (h : es.get? "allOf" = some (.list b ts)) : part? (.map a es) i = ts[i]? := by
  unfold part?
  rw [show (Tree.map a es).get? "allOf" = some (.list b ts) from h]

/-- What stands at a place. -/
def Site.Holds (table : Entries) (site : Site) (t : Tree) : Prop :=
  ∃ schema, table.get? site.entry = some schema ∧ site.parts.foldlM part? schema = some t

theorem LeafAt.holds {site leaf : Site} {t : Tree} {o : Entries} (h : LeafAt table site t leaf o) :
    site.Holds table t → ∃ a, leaf.Holds table (.map a o) := by
  induction h with
  | object => exact fun ht => ⟨_, ht⟩
  | part _ _ hparts hi _ ih =>
    rintro ⟨schema, hschema, ht⟩
    refine ih ⟨schema, hschema, ?_⟩
    rw [Site.part, List.foldlM_append, ht, Option.bind_eq_bind, Option.bind_some, List.foldlM_cons,
      part?_of_list hparts, hi]
    rfl
  | reference _ hnames _ ih => exact fun _ => ih ⟨_, hnames.2, rfl⟩

/-- At one place there is one object schema. -/
theorem LeafAt.eq {site site' leaf : Site} {t t' : Tree} {o o' : Entries} (h : LeafAt table site t leaf o)
    (ht : site.Holds table t) (h' : LeafAt table site' t' leaf o') (ht' : site'.Holds table t') : o = o' := by
  obtain ⟨a, schema, hschema, ho⟩ := h.holds ht
  obtain ⟨a', schema', hschema', ho'⟩ := h'.holds ht'
  cases hschema.symm.trans hschema'
  cases ho.symm.trans ho'
  rfl

theorem LeafAt.kind {site leaf : Site} {t : Tree} {o : Entries} (h : LeafAt table site t leaf o) :
    Reference.ofEntries? o = none ∧ Schema.kind o = .ok .object := by
  induction h with
  | object href hkind => exact ⟨href, hkind⟩
  | part _ _ _ _ _ ih | reference _ _ _ ih => exact ih

/-- An object schema is composed of itself. -/
theorem LeafAt.of_object {site leaf : Site} {a : Anchor} {es o : Entries}
    (h : LeafAt table site (.map a es) leaf o) (href : Reference.ofEntries? es = none)
    (hkind : Schema.kind es = .ok .object) : leaf = site ∧ o = es := by
  cases h with
  | object => exact ⟨rfl, rfl⟩
  | part _ hallOf => cases hkind.symm.trans hallOf
  | reference hreference => cases href.symm.trans hreference

/-- A reference is composed of what its entry is. -/
theorem LeafAt.of_reference {site leaf : Site} {t schema : Tree} {r name : String} {o : Entries}
    (h : LeafAt table site t leaf o) (href : Reference.ofTree? t = some r)
    (hnames : Names table r name schema) : LeafAt table ⟨name, []⟩ schema leaf o := by
  cases h with
  | object hdirect | part hdirect => cases hdirect.symm.trans href
  | reference href' hnames' hleaf =>
    cases href.symm.trans href'
    cases hnames.1.symm.trans hnames'.1
    cases hnames.2.symm.trans hnames'.2
    exact hleaf

theorem LeafAt.plain (htable : Plain (.map none table)) {site leaf : Site} {t : Tree} {o : Entries}
    (h : LeafAt table site t leaf o) : Plain t → Plain (.map none o) := by
  induction h with
  | object =>
    intro h
    obtain ⟨rfl, -⟩ := plain_map.1 h
    exact h
  | part _ _ hparts hi _ ih =>
    intro h
    have hlist := ((plain_map.1 h).2.2 _ (Entries.mem_of_at? hparts)).2
    exact ih ((plain_list.1 hlist).2 _ (List.mem_of_getElem? hi))
  | reference _ hnames _ ih =>
    exact fun _ => ih ((plain_map.1 htable).2.2 _ (Entries.mem_of_at? hnames.2)).2

/-! ## Conflicts -/

/-- An object schema has a schema for a property. -/
def HasProperty (o : Entries) (key : Scalar) (x : Tree) : Prop :=
  ∃ a ps, o.get? "properties" = some (.map a ps) ∧ (key, x) ∈ ps

theorem HasProperty.plain {o : Entries} {key : Scalar} {x : Tree} (h : HasProperty o key x)
    (hp : Plain (.map none o)) : Plain x := by
  obtain ⟨a, ps, hget, hmem⟩ := h
  exact ((plain_map.1 ((plain_map.1 hp).2.2 _ (Entries.mem_of_at? hget)).2).2.2 _ hmem).2

theorem HasProperty.eq {o : Entries} {key : Scalar} {x y : Tree} (h : HasProperty o key x)
    (h' : HasProperty o key y) (hp : Plain (.map none o)) : x = y := by
  obtain ⟨a, ps, hget, hmem⟩ := h
  obtain ⟨a', ps', hget', hmem'⟩ := h'
  cases hget.symm.trans hget'
  have hd := (plain_map.1 ((plain_map.1 hp).2.2 _ (Entries.mem_of_at? hget)).2).2.1
  exact Option.some.inj ((Entries.at?_of_mem hd.nodup hmem).symm.trans (Entries.at?_of_mem hd.nodup hmem'))

/-- A conflict is between the schemas that two object schemas have for one property. -/
theorem exists_conflict {objects : List Entries} {p owner' : String}
    (h : merge owner objects = .error (.propertyConflict p owner')) :
    ∃ o₁ ∈ objects, ∃ o₂ ∈ objects, ∃ key x₁ x₂, HasProperty o₁ key x₁ ∧ HasProperty o₂ key x₂ ∧
      x₁.same x₂ = false := by
  -- Merged properties are those of some object schema.
  let Taken (m : Merged) : Prop := ∀ e ∈ m.properties, ∃ o ∈ objects, HasProperty o e.1 e.2
  have hall : ∀ {o properties}, o ∈ objects → entriesOf o "properties" = .ok properties →
      ∀ e ∈ properties, ∃ o ∈ objects, HasProperty o e.1 e.2 := by
    intro o properties ho hproperties e he
    rcases entriesOf_eq_ok hproperties with rfl | ⟨a, hget⟩
    · cases he
    · exact ⟨o, ho, a, properties, hget, he⟩
  have hput : ∀ {m : Merged} {key x}, Taken m → (∃ o ∈ objects, HasProperty o key x) →
      ∀ m', m.addProperty owner key x = .ok m' → Taken m' := by
    intro m key x hm hx m' h
    obtain ⟨rfl, -⟩ := Merged.addProperty_eq_ok h
    intro e he
    rcases Entries.mem_put he with rfl | he
    · exact hx
    · exact hm e he
  have hadd : ∀ m, ∀ o ∈ objects, ∀ m', Taken m → m.add owner o = .ok m' → Taken m' := by
    intro m o ho m' hm h
    obtain ⟨properties, m₁, -, -, hproperties, hm₁, -, -, hsame, -⟩ := Merged.add_eq_ok h
    have htaken : Taken m₁ := of_foldlM hm₁ hm fun m e he m' hm h =>
      hput hm (hall ho hproperties e he) m' h
    exact fun e he => htaken e (hsame ▸ he)
  obtain ⟨o₂, ho₂, m, hm, h⟩ := error_of_foldlM h (show Taken ⟨[], [], .null⟩ from nofun) hadd
  rcases Merged.add_eq_error (I := Taken) h hm fun properties hproperties m e he m' hm h =>
      hput hm (hall ho₂ hproperties e he) m' h with hlocal | ⟨properties, hproperties, e, he, m₁, hm₁, h⟩
  · cases hlocal
  · obtain ⟨-, existing, hexisting, hne⟩ := Merged.addProperty_eq_error h
    obtain ⟨o₁, ho₁, hx₁⟩ := hm₁ _ (Entries.mem_of_at? hexisting)
    obtain ⟨o₂, ho₂, hx₂⟩ := hall ho₂ hproperties e he
    exact ⟨o₁, ho₁, o₂, ho₂, e.1, existing, e.2, hx₁, hx₂, hne⟩

/-! ## Naming -/

/-- What becomes of the schema of an entry: it stays, or naming goes through it. -/
def Becomes (held : String → Tree → Prop) (t t' : Tree) : Prop := t' = t ∨ Naming.Names held .own t t'

variable {held : String → Tree → Prop} {old new : Entries} {t t' : Tree} {a : Anchor} {o o' : Entries}

/-- Naming keeps references as they are, and makes none. -/
theorem Becomes.ofTree? (h : Becomes held t t') : Reference.ofTree? t' = Reference.ofTree? t := by
  rcases h with rfl | h
  · rfl
  · cases h with
    | same => rfl
    | @map _ a es es' hst hk hes =>
      obtain ⟨kind, hfair⟩ := hst
      exact (Naming.alike_of_names hfair.kind (.inl rfl) hk hes).ofEntries?
    | list hst => exact hst.elim

/-- What an object or a composition has become keeps its kind. -/
theorem Becomes.of_map {es' : Entries} (h : Becomes held t (.map a es'))
    (href : Reference.ofEntries? es' = none) :
    ∃ es : Entries, t = .map a es ∧ Reference.ofEntries? es = none ∧ Schema.kind es = Schema.kind es' ∧
      ∀ key kind, Schema.kind es' = .ok kind → ∀ x', es'.get? key = some x' →
        ∃ x, es.get? key = some x ∧
          (x' = x ∨ Naming.Names held (Naming.Stand.within kind (.text key)) x x') := by
  have hdirect := h.ofTree?
  rcases h with h | h
  · subst h
    exact ⟨es', rfl, href, rfl, fun _ _ _ x' hx' => ⟨x', hx', .inl rfl⟩⟩
  · cases h with
    | same => exact ⟨es', rfl, href, rfl, fun _ _ _ x' hx' => ⟨x', hx', .inl rfl⟩⟩
    | @map _ _ es _ hst hk hes =>
      obtain ⟨kind, hfair⟩ := hst
      have halike := Naming.alike_of_names hfair.kind (.inl rfl) hk hes
      refine ⟨es, rfl, halike.ofEntries?.symm.trans href, halike.kind.symm, fun key kind' hkind x' hx' => ?_⟩
      cases hfair.kind.symm.trans (halike.kind.symm.trans hkind)
      obtain ⟨x, hx⟩ := Entries.exists_at?_of_keys_eq hk.symm hx'
      have hn := hes _ x x' hx hx'
      simp only [Naming.Stand.part, hfair.kind] at hn
      exact ⟨x, hx, .inr hn⟩

/-- A part of a composition has become a part of what the composition has become. -/
theorem Becomes.part {es' : Entries} {ts' : List Tree} {b : Anchor} {i : Nat}
    (h : Becomes held t (.map a es')) (href : Reference.ofEntries? es' = none)
    (hkind : Schema.kind es' = .ok .allOf) (hparts : es'.get? "allOf" = some (.list b ts'))
    (hi : ts'[i]? = some t') :
    ∃ (es : Entries) (ts : List Tree) (u : Tree), t = .map a es ∧ Reference.ofEntries? es = none ∧
      Schema.kind es = .ok .allOf ∧ es.get? "allOf" = some (.list b ts) ∧ ts[i]? = some u ∧
        Becomes held u t' := by
  obtain ⟨es, rfl, href', hkind', hkeep⟩ := h.of_map href
  obtain ⟨x, hx, hn⟩ := hkeep "allOf" .allOf hkind _ hparts
  rcases hn with rfl | hn
  · exact ⟨es, ts', t', rfl, href', hkind'.trans hkind, hx, hi, .inl rfl⟩
  · cases hn with
    | same => exact ⟨es, ts', t', rfl, href', hkind'.trans hkind, hx, hi, .inl rfl⟩
    | @list _ _ ts _ _ hl hts =>
      obtain ⟨hlt, -⟩ := List.getElem?_eq_some_iff.1 hi
      obtain ⟨u, hu⟩ : ∃ u, ts[i]? = some u := ⟨_, List.getElem?_eq_getElem (hl ▸ hlt)⟩
      exact ⟨es, ts, u, rfl, href', hkind'.trans hkind, hx, hu, .inr (hts i u t' hu hi)⟩

/-- A property of what an object schema has become was there before. -/
theorem Becomes.property {key : Scalar} {x' : Tree} (h : Becomes held (.map a o) (.map a o'))
    (href : Reference.ofEntries? o' = none) (hkind : Schema.kind o' = .ok .object)
    (hx' : HasProperty o' key x') (hp : Plain (.map none o')) :
    ∃ x, HasProperty o key x ∧ (x' = x ∨ Naming.Names held .inline x x') := by
  obtain ⟨es, heq, -, -, hkeep⟩ := h.of_map href
  cases heq
  obtain ⟨b, ps', hget, hmem⟩ := hx'
  obtain ⟨y, hy, hn⟩ := hkeep "properties" .object hkind _ hget
  rcases hn with rfl | hn
  · exact ⟨x', ⟨b, ps', hy, hmem⟩, .inl rfl⟩
  · cases hn with
    | same => exact ⟨x', ⟨b, ps', hy, hmem⟩, .inl rfl⟩
    | @map _ _ ps _ _ hk hes =>
      obtain ⟨-, hd, -⟩ := plain_map.1 ((plain_map.1 hp).2.2 _ (Entries.mem_of_at? hget)).2
      have hat' := Entries.at?_of_mem hd.nodup hmem
      obtain ⟨x, hx⟩ := Entries.exists_at?_of_keys_eq hk.symm hat'
      exact ⟨x, ⟨b, ps, hy, Entries.mem_of_at? hx⟩, .inr (hes key x x' hx hat')⟩

theorem Becomes.map {es : Entries} (h : Becomes held (.map a es) t') : ∃ es' : Entries, t' = .map a es' := by
  rcases h with rfl | h
  · exact ⟨es, rfl⟩
  · cases h with
    | same => exact ⟨es, rfl⟩
    | @map _ _ _ es' => exact ⟨es', rfl⟩

/-- An object schema of what a composition has become stood at the same place before, provided that the
composition could be taken apart then. -/
theorem LeafAt.before {site leaf : Site} (h : LeafAt new site t' leaf o')
    (htables : ∀ n x, old.get? n = some x → ∃ x', new.get? n = some x' ∧ Becomes held x x')
    {path : List String} {os : List Entries} (hb : Becomes held t t')
    (hok : leavesWith (leavesOf old owner path) owner t = .ok os) :
    ∃ a o, LeafAt old site t leaf o ∧ Becomes held (.map a o) (.map a o') := by
  induction h generalizing t path os with
  | @object _ a es' href hkind =>
    obtain ⟨es, rfl, href', hkind', -⟩ := hb.of_map href
    exact ⟨a, es, .object href' (hkind'.trans hkind), hb⟩
  | part href hkind hparts hi _ ih =>
    obtain ⟨es, ts, u, rfl, href', hkind', hparts', hu, hbu⟩ := hb.part href hkind hparts hi
    obtain ⟨part, hpart, -⟩ := leavesWith_part href' hkind' hparts' (List.mem_of_getElem? hu) hok
    obtain ⟨a, o, hleaf, hbo⟩ := ih hbu hpart
    exact ⟨a, o, .part href' hkind' hparts' hu hleaf, hbo⟩
  | reference href hnames _ ih =>
    rw [hb.ofTree?] at href
    rw [leavesWith_reference href] at hok
    obtain ⟨found, hfind, -, hok⟩ := leavesOf_eq_ok hok
    obtain ⟨hname, hget⟩ := names_of_find hfind
    cases hnames.1.symm.trans hname
    obtain ⟨x', hx', hbx⟩ := htables _ _ hget
    cases hnames.2.symm.trans hx'
    obtain ⟨a, o, hleaf, hbo⟩ := ih hbx hok
    exact ⟨a, o, .reference href ⟨hname, hget⟩ hleaf, hbo⟩

/-- The entries of a description are still there when it has been named, as what has become of them. -/
theorem becomes_of_ends {doc : Tree} {outcome : Naming.Outcome} {s : Naming.State}
    (he : Naming.Ends doc outcome s) (hp : Plain doc) (hold : Compilation.schemaTable doc = .ok old)
    (hnew : Compilation.schemaTable outcome.document = .ok new) :
    ∀ n x, old.get? n = some x → ∃ x', new.get? n = some x' ∧ Becomes s.Held x x' := by
  intro n x hx
  rcases Naming.schemaTable_eq_ok hold with rfl | ⟨a, hschemas⟩
  · cases hx
  have hentry : Naming.State.entry? (Naming.start doc) (.text n) = some x := by
    rw [Naming.State.entry?, show (Naming.start doc).table = some (.map a old) from hschemas]
    exact hx
  obtain ⟨x', hx', hb⟩ := he.later.entry _ _ hentry
  refine ⟨x', ?_, hb⟩
  obtain ⟨doc', -, hj⟩ := he.joined hp
  cases hj with
  | alone _ _ hno =>
    rw [hschemas] at hno
    cases hno
  | table _ htable _ hout =>
    rw [hout, Naming.schemaTable_of_schemas? (Naming.schemas?_withSchemas _ _ _)] at hnew
    cases hnew
    rwa [Naming.State.entry?, htable] at hx'

/-- Object schemas at different places of a composition have the same schema for a property that they have in
common, and nothing in it needs a name. -/
def Consistent (table : Entries) (n : String) (schema : Tree) : Prop :=
  ∀ leaf₁ leaf₂ o₁ o₂, LeafAt table ⟨n, []⟩ schema leaf₁ o₁ → LeafAt table ⟨n, []⟩ schema leaf₂ o₂ →
    leaf₁ ≠ leaf₂ → ∀ key x₁ x₂, HasProperty o₁ key x₁ → HasProperty o₂ key x₂ →
      x₁.same x₂ = true ∧ Prepared .inline x₁

section

variable {n : String} {schema schema' : Tree} (hpold : Plain (.map none old)) (hpnew : Plain (.map none new))
  (htables : ∀ n x, old.get? n = some x → ∃ x', new.get? n = some x' ∧ Becomes held x x')
  (hschema : old.get? n = some schema) (hschema' : new.get? n = some schema')
  (hb : Becomes held schema schema') (hconsistent : Consistent old n schema)
include hpold hpnew htables hschema hschema' hb hconsistent

/-- What has become of the object schemas of a consistent composition has no conflict. -/
theorem merge_of_consistent {os objects : List Entries} (hold : leaves old owner schema = .ok os)
    (hnew : leaves new owner schema' = .ok objects) (p owner' : String) :
    merge owner objects ≠ .error (.propertyConflict p owner') := by
  intro h
  obtain ⟨o₁', ho₁, o₂', ho₂, key, x₁', x₂', hx₁', hx₂', hne⟩ := exists_conflict h
  have hps := ((plain_map.1 hpold).2.2 _ (Entries.mem_of_at? hschema)).2
  have hps' := ((plain_map.1 hpnew).2.2 _ (Entries.mem_of_at? hschema')).2
  obtain ⟨leaf₁, hleaf₁'⟩ := (component_of_mem hnew ho₁).leafAt ⟨n, []⟩
  obtain ⟨leaf₂, hleaf₂'⟩ := (component_of_mem hnew ho₂).leafAt ⟨n, []⟩
  -- A schema in which nothing needs a name stays what it was.
  have hstays : ∀ {leaf o' x'}, LeafAt new ⟨n, []⟩ schema' leaf o' → HasProperty o' key x' →
      ∃ o x, LeafAt old ⟨n, []⟩ schema leaf o ∧ HasProperty o key x ∧ (Prepared .inline x → x' = x) := by
    intro leaf o' x' hleaf' hx'
    obtain ⟨a, o, hleaf, hbo⟩ := hleaf'.before htables hb hold
    obtain ⟨href, hkind⟩ := hleaf'.kind
    obtain ⟨x, hx, hn⟩ := hbo.property href hkind hx' (hleaf'.plain hpnew hps')
    refine ⟨o, x, hleaf, hx, fun hprepared => ?_⟩
    rcases hn with rfl | hn
    · rfl
    · exact hn.eq_of_prepared trivial (hx.plain (hleaf.plain hpold hps)) hprepared
  by_cases heq : leaf₁ = leaf₂
  · -- One object schema that the composition meets twice: its property does not conflict with itself.
    subst heq
    have hholds : Site.Holds new ⟨n, []⟩ schema' := ⟨schema', hschema', rfl⟩
    obtain rfl := hleaf₁'.eq hholds hleaf₂' hholds
    have hpo := hleaf₁'.plain hpnew hps'
    obtain rfl := hx₁'.eq hx₂' hpo
    rw [same_refl (hx₁'.plain hpo)] at hne
    cases hne
  · obtain ⟨o₁, x₁, hleaf₁, hx₁, hstays₁⟩ := hstays hleaf₁' hx₁'
    obtain ⟨o₂, x₂, hleaf₂, hx₂, hstays₂⟩ := hstays hleaf₂' hx₂'
    obtain ⟨hsame, hprepared₁⟩ := hconsistent _ _ _ _ hleaf₁ hleaf₂ heq key x₁ x₂ hx₁ hx₂
    obtain ⟨-, hprepared₂⟩ := hconsistent _ _ _ _ hleaf₂ hleaf₁ (Ne.symm heq) key x₂ x₁ hx₂ hx₁
    rw [hstays₁ hprepared₁, hstays₂ hprepared₂, hsame] at hne
    cases hne

end

/-- What can be taken apart is an object or a composition. -/
theorem kinds_of_leaves {schema : Tree} {os : List Entries} (hdirect : Reference.ofTree? schema = none)
    (h : leaves table owner schema = .ok os) : ∃ (a : Anchor) (es : Entries), schema = .map a es ∧
      (Schema.kind es = .ok .object ∨ Schema.kind es = .ok .allOf) := by
  cases schema with
  | map a es => exact ⟨a, es, rfl, kind_of_leavesWith hdirect h⟩
  | _ => cases h

section

variable {asked : String → Tree → Prop} {n : String} {es : Entries} (href : Reference.ofEntries? es = none)
  (hkind : Schema.kind es = .ok .object ∨ Schema.kind es = .ok .allOf)
include href hkind

/-- What compiling an object or a composition fails with is accounted for if the merging of its own object
schemas is. -/
theorem traces_schemaType_of_merge {path : List String} {typeOf : Tree → Run TypeExpr}
    (h : ∀ t, Traces table asked path (typeOf t)) {name schemaName : String}
    (hmerge : ∀ objects, leaves table name (.map a es) = .ok objects →
      ∀ f, merge name objects = .error f → f.Accounted asked path) :
    Traces table asked path (schemaType table typeOf name schemaName (.map a es)) := by
  have hrecord : ∀ objects, leaves table name (.map a es) = .ok objects →
      Traces table asked path (some <$> record table typeOf name schemaName es objects) :=
    fun objects hobjects => Traces.map some <|
      @CompatibleOn.record _ _ _ _ _ _ _ (compatible_traces table asked path) typeOf (fun _ _ => pure .any)
        table name schemaName es objects (hmerge objects hobjects) fun _ _ t _ => h t
  intro s hs
  refine (tracedRun_lift (P := fun kind _ => Schema.kind es = .ok kind) hs
    (fun f hf => .of_reading (.inl ((local_kind es).failure hf))) fun _ h => h).bind fun kind s _ hs h => ?_
  rcases hkind with hkind | hkind
  · cases hkind.symm.trans h
    dsimp only
    split
    · exact tracedRun_pure hs trivial
    · exact hrecord [es] (leavesWith_object href hkind) s hs
  · cases hkind.symm.trans h
    dsimp only
    rw [besideReference_of_direct (t := .map a es) href]
    exact (tracedRun_lift (P := fun objects _ => leaves table name (.map a es) = .ok objects) hs
      (fun _ => accounted_of_leaves) fun _ h => h).bind
        fun objects s _ hs hobjects => hrecord objects hobjects s hs

/-- Compiling an entry fails over no property of its own type if the merging of its own object schemas does
not: while it is compiled, nothing else makes that type. -/
theorem tracedRun_entry_of_merge {s : State}
    (hasked : ∀ n t, (Scalar.text n, t) ∈ table → Reference.ofTree? t = none → asked n t)
    (hs : Traced table asked s) (hn : asked n (.map a es))
    (hmerge : ∀ objects, leaves table (Text.typeIdentifier n) (.map a es) = .ok objects →
      ∀ p, merge (Text.typeIdentifier n) objects ≠ .error (.propertyConflict p (Text.typeIdentifier n))) :
    TracedRun table asked [Text.typeIdentifier n] (entry table n (.map a es)) s fun r s' =>
      ∀ t, r = some t → Recorded table asked n t s' := by
  refine tracedRun_named hs hn fun _ => traces_schemaType_of_merge href hkind
    (traces_typeWith fun r s hs =>
      (tracedRun_typeOfReference hasked ⟨[Text.typeIdentifier n], []⟩ r hs).mono fun _ _ _ => trivial)
    fun objects hobjects f hf => ?_
  rcases failure_of_merge hf with hlocal | ⟨p, rfl⟩
  · exact .of_reading (.inl hlocal)
  · exact absurd hf (hmerge objects hobjects p)

end

/-- An entry that is an object or a composition, and could be taken apart before a description was named, is
merged without a conflict when it has been named, whatever has been compiled, if its object schemas are
consistent: at different places they have the same schema for a property that they have in common, and nothing
in it needs a name. -/
theorem entry_of_consistent {doc schema : Tree} {n : String} {os : List Entries} (hp : Plain doc)
    (h : (nameSchemas doc).result = .ok ()) (hold : Compilation.schemaTable doc = .ok old)
    (hnew : Compilation.schemaTable (nameSchemas doc).document = .ok new) (hentry : IsEntry old n schema)
    (hleaves : leaves old (Text.typeIdentifier n) schema = .ok os) (hconsistent : Consistent old n schema) :
    ∃ schema', IsEntry new n schema' ∧ ∀ calls p,
      (entry new n schema' (after new calls)).1 ≠ .error (.propertyConflict p (Text.typeIdentifier n)) := by
  obtain ⟨s, he⟩ := Naming.ends_nameSchemas hp h
  have htables := becomes_of_ends he hp hold hnew
  have hpnew := (he.entry hp hnew).1
  have hpold : Plain (.map none old) := by
    rcases Naming.schemaTable_eq_ok hold with rfl | ⟨a, hschemas⟩
    · cases hentry.found
    · obtain ⟨rfl, hrest⟩ := plain_map.1 (Naming.plain_table hp hschemas)
      exact plain_map.2 ⟨rfl, hrest⟩
  obtain ⟨schema', hschema', hb⟩ := htables n schema hentry.found
  have hdirect : Reference.ofTree? schema' = none := hb.ofTree?.trans hentry.direct
  refine ⟨schema', ⟨hschema', hdirect⟩, fun calls p herror => ?_⟩
  obtain ⟨a, es, rfl, hkind⟩ := kinds_of_leaves hentry.direct hleaves
  obtain ⟨es', rfl⟩ := hb.map
  obtain ⟨es, heq, -, hsame, -⟩ := hb.of_map hdirect
  cases heq
  rw [hsame] at hkind
  have hmerge : ∀ objects, leaves new (Text.typeIdentifier n) (.map a es') = .ok objects →
      ∀ p, merge (Text.typeIdentifier n) objects ≠ .error (.propertyConflict p (Text.typeIdentifier n)) :=
    fun objects hobjects p => merge_of_consistent hpold hpnew htables hentry.found hschema' hb hconsistent
      hleaves hobjects p _
  have hrun := tracedRun_entry_of_merge hdirect hkind (fun _ _ _ _ => trivial) (traced_anything new calls)
    trivial hmerge
  exact hrun.accounted _ herror List.mem_cons_self

/-- An object schema with one property. -/
def sampleObject (name : String) (schema : Tree) : Entries :=
  [(.text "type", .text "object"), (.text "properties", Tree.object [(name, schema)])]
def sampleProperty (name : String) (schema : Tree) : Tree := .map none (sampleObject name schema)

/-- A string, and one of an enumeration. -/
def sampleText : Tree := Tree.object [("type", .text "string")]
def sampleColor : Tree := Tree.object [("type", .text "string"), ("enum", Tree.array [.text "red"])]

/-- A composition that meets an object schema twice and has a property twice. -/
def sampleMeeting : Tree :=
  Tree.object [("allOf", Tree.array [
    Reference.asTree "#/components/schemas/Base", Reference.asTree "#/components/schemas/Base",
    sampleProperty "name" sampleText, sampleProperty "name" sampleText])]

/-- A description with two schemas. -/
def sampleSchemas (base pet : Tree) : Tree :=
  Tree.object [("components", Tree.object [("schemas", Tree.object [("Base", base), ("Pet", pet)])])]

/-- The description of the composition. -/
def sampleTwice : Tree := sampleSchemas (sampleProperty "color" sampleColor) sampleMeeting

/-- The object schemas of the composition and their properties. -/
theorem leafAt_sampleMeeting {leaf : Site} {o : Entries}
    (h : LeafAt (tableOf sampleTwice) ⟨"Pet", []⟩ sampleMeeting leaf o) :
    (leaf = ⟨"Base", []⟩ ∧ ∀ key x, HasProperty o key x → key = .text "color") ∨
      (leaf.entry = "Pet" ∧ ∀ key x, HasProperty o key x → key = .text "name" ∧ x = sampleText) := by
  have hproperty : ∀ {site name schema},
      LeafAt (tableOf sampleTwice) site (sampleProperty name schema) leaf o →
        leaf = site ∧ ∀ key x, HasProperty o key x → key = .text name ∧ x = schema := by
    intro site name schema h
    obtain ⟨rfl, rfl⟩ := h.of_object rfl rfl
    refine ⟨rfl, fun key x ⟨b, ps, hget, hmem⟩ => ?_⟩
    cases hget
    cases List.mem_singleton.1 hmem
    exact ⟨rfl, rfl⟩
  have hbase : ∀ {site},
      LeafAt (tableOf sampleTwice) site (Reference.asTree "#/components/schemas/Base") leaf o →
        leaf = ⟨"Base", []⟩ ∧ ∀ key x, HasProperty o key x → key = .text "color" := by
    intro site h
    have hnames : Names (tableOf sampleTwice) "#/components/schemas/Base" "Base"
        (sampleProperty "color" sampleColor) := ⟨eq_ok_of_toOption (by decide +kernel), rfl⟩
    obtain ⟨hleaf, hx⟩ := hproperty (h.of_reference rfl hnames)
    exact ⟨hleaf, fun key x h => (hx key x h).1⟩
  cases h with
  | object _ hkind => cases hkind
  | @part _ _ _ _ _ _ ts t i _ _ hparts hi h =>
    cases hparts
    match i, hi with
    | 0, hi | 1, hi =>
      cases hi
      exact .inl (hbase h)
    | 2, hi | 3, hi =>
      cases hi
      obtain ⟨rfl, hx⟩ := hproperty h
      exact .inr ⟨rfl, hx⟩
  | reference href => cases href

theorem entry_sampleTwice : ∃ schema', IsEntry (tableOf (nameSchemas sampleTwice).document) "Pet" schema' ∧
    ∀ calls p, (entry (tableOf (nameSchemas sampleTwice).document) "Pet" schema'
      (after (tableOf (nameSchemas sampleTwice).document) calls)).1 ≠ .error (.propertyConflict p "Pet") := by
  have hp : Plain sampleTwice := by
    simp [sampleTwice, sampleSchemas, sampleMeeting, sampleProperty, sampleObject, sampleText, sampleColor,
      Reference.asTree, Tree.array, Scalar.anchor, Distinct, Scalar.same, Scalar.canonical]
  have hname : Text.typeIdentifier "Pet" = "Pet" := by decide +kernel
  have hprepared : Prepared .inline sampleText :=
    .map ⟨⟨.string, rfl, rfl, by decide, by decide⟩, rfl⟩ fun _ he => by
      cases List.mem_singleton.1 he
      exact .skip rfl
  have hconsistent : Consistent (tableOf sampleTwice) "Pet" sampleMeeting := by
    intro leaf₁ leaf₂ o₁ o₂ h₁ h₂ hne key x₁ x₂ hx₁ hx₂
    rcases leafAt_sampleMeeting h₁ with ⟨hleaf₁, hall₁⟩ | ⟨-, hall₁⟩ <;>
      rcases leafAt_sampleMeeting h₂ with ⟨hleaf₂, hall₂⟩ | ⟨-, hall₂⟩
    · exact absurd (hleaf₁.trans hleaf₂.symm) hne
    · exact absurd ((hall₁ key x₁ hx₁).symm.trans (hall₂ key x₂ hx₂).1) (by decide)
    · exact absurd ((hall₁ key x₁ hx₁).1.symm.trans (hall₂ key x₂ hx₂)) (by decide)
    · obtain ⟨-, rfl⟩ := hall₁ key x₁ hx₁
      obtain ⟨-, rfl⟩ := hall₂ key x₂ hx₂
      exact ⟨by decide +kernel, hprepared⟩
  have hleaves : leaves (tableOf sampleTwice) (Text.typeIdentifier "Pet") sampleMeeting = .ok
      [sampleObject "color" sampleColor, sampleObject "color" sampleColor, sampleObject "name" sampleText,
        sampleObject "name" sampleText] := eq_ok_of_toOption (by decide +kernel)
  have hold : Compilation.schemaTable sampleTwice = .ok (tableOf sampleTwice) :=
    eq_ok_of_toOption (by decide +kernel)
  have hnew : Compilation.schemaTable (nameSchemas sampleTwice).document =
      .ok (tableOf (nameSchemas sampleTwice).document) := eq_ok_of_toOption (by decide +kernel)
  have h := entry_of_consistent hp (eq_ok_of_toOption (by decide +kernel)) hold hnew ⟨rfl, rfl⟩ hleaves
    hconsistent
  rwa [hname] at h

/-- A composition of two object schemas that have the same schema for their only property. -/
def sampleBoth (schema : Tree) : Tree :=
  Tree.object [("allOf", Tree.array [sampleProperty "color" schema, sampleProperty "color" schema])]

/-- Its description, where the schema is an enumeration. -/
def sampleColors : Tree := sampleSchemas sampleText (sampleBoth sampleColor)

/-- The composition after naming. -/
def sampleBothNamed : Tree :=
  Tree.object [("allOf", Tree.array [
    sampleProperty "color" (Reference.asTree "#/components/schemas/PetColor"),
    sampleProperty "color" (Reference.asTree "#/components/schemas/PetColor2")])]

/-- Naming gives the enumeration two names, one in each place, and so the composition no longer merges. -/
theorem entry_sampleColors :
    leaves (tableOf sampleColors) "Pet" (sampleBoth sampleColor) =
        .ok [sampleObject "color" sampleColor, sampleObject "color" sampleColor] ∧
      sampleColor.same sampleColor = true ∧ (nameSchemas sampleColors).result = .ok () ∧
        (tableOf (nameSchemas sampleColors).document).get? "Pet" = some sampleBothNamed ∧
          (entry (tableOf (nameSchemas sampleColors).document) "Pet" sampleBothNamed .start).1 =
            .error (.propertyConflict "color" "Pet") :=
  ⟨eq_ok_of_toOption (by decide +kernel), by decide +kernel, eq_ok_of_toOption (by decide +kernel),
    by decide +kernel, by decide +kernel⟩

end ApiContract.Compile
