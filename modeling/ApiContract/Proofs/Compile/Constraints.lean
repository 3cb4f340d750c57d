import ApiContract.Proofs.Compile.Composition
import ApiContract.Proofs.Compile.Origin

/-!
# What records keep of their schemas

A record has a field for every property that one of its object schemas declares, and a required one where a
name is listed as required (`Body.Declares`). Its object schemas are all schemas that are reached from its own
one through `allOf`: what is reached is a reference that is followed, a composition of which only the parts
are read, or one of the object schemas (`entry_readInto`). Anything else makes compiling fail.

What stands beside the keyword that decides the kind of a schema is not read: properties beside `allOf` are
not, nor is `allOf` beside a `type`.

* `Merged.Declares`, `fieldsOf_declares`: merging loses no property, and every property becomes a field.
* `readInto_of_leavesWith`: collecting the leaves of a composition reads all that is reached.
-/

namespace ApiContract

/-- A record has what an object schema declares: a field for each property, and if a name that is listed as
required is a field's, a required field. -/
structure Body.Declares (b : Body) (object : Entries) : Prop where
  properties {a : Anchor} {ps : Entries} {n : String} {x : Tree} :
    object.get? "properties" = some (.map a ps) → (.text n, x) ∈ ps → ∃ f ∈ b.fields, f.wireName = n
  required {a : Anchor} {ts : List Tree} {n : String} :
    object.get? "required" = some (.list a ts) → .text n ∈ ts →
      ∀ f ∈ b.fields, f.wireName = n → f.required = true

namespace Compile

variable {table : Entries} {owner : String}

/-! ## Merging -/

/-- What an object schema declares is among merged properties. -/
structure Merged.Declares (m : Merged) (object : Entries) : Prop where
  properties {a : Anchor} {ps : Entries} {n : String} {x : Tree} :
    object.get? "properties" = some (.map a ps) → (.text n, x) ∈ ps → .text n ∈ m.properties.map (·.1)
  required {a : Anchor} {ts : List Tree} {n : String} :
    object.get? "required" = some (.list a ts) → .text n ∈ ts → n ∈ m.required

theorem mem_keys_put {es : Entries} {key k : Scalar} (t : Tree) :
    k ∈ (Entries.put key t es).map (·.1) ↔ k = key ∨ k ∈ es.map (·.1) := by
  by_cases hkey : key ∈ es.map (·.1)
  · rw [Entries.keys_put_of_mem t hkey]
    exact ⟨.inr, fun h => h.elim (fun h => h ▸ hkey) id⟩
  · rw [Entries.put_of_notMem t hkey, List.map_append, List.map_singleton, List.mem_append,
      List.mem_singleton, or_comm]

/-- Adding properties keeps those that are there, adds all of them, and changes nothing else. -/
theorem Merged.keys_of_addProperties : ∀ {properties : Entries} {m m' : Merged},
    properties.foldlM (fun m (key, schema) => m.addProperty owner key schema) m = .ok m' →
      m'.required = m.required ∧
        ∀ k, k ∈ m'.properties.map (·.1) ↔ k ∈ m.properties.map (·.1) ∨ k ∈ properties.map (·.1)
  | [], _, _, h => by
    cases h
    exact ⟨rfl, fun k => by simp⟩
  | (key, schema) :: properties, m, m', h => by
    rw [List.foldlM_cons] at h
    obtain ⟨m₁, hm₁, h⟩ := ApiContract.bind_eq_ok.1 h
    obtain ⟨rfl, -⟩ := addProperty_eq_ok hm₁
    obtain ⟨hrequired, hkeys⟩ := keys_of_addProperties h
    refine ⟨hrequired, fun k => ?_⟩
    rw [hkeys, mem_keys_put, List.map_cons, List.mem_cons]
    tauto

theorem mem_requiredNames {object : Entries} {a : Anchor} {ts parts : List Tree} {names : List String}
    {n : String} (hparts : partsOf object "required" = .ok parts)
    (hnames : requiredNames parts = .ok names) (h : object.get? "required" = some (.list a ts))
    (hn : .text n ∈ ts) : n ∈ names := by
  have hlist : parts = ts := by
    unfold partsOf Entries.orNull at hparts
    rw [h] at hparts
    cases ts with
    | nil => exact absurd hn List.not_mem_nil
    | cons t ts =>
      cases hparts
      rfl
  exact mem_filterMapM hnames (hlist ▸ hn) rfl

/-- Adding an object schema adds what it declares and loses nothing. -/
theorem Merged.Declares.of_add {m m' : Merged} {object : Entries} (h : m.add owner object = .ok m') :
    m'.Declares object ∧ ∀ o, m.Declares o → m'.Declares o := by
  obtain ⟨properties, m₁, parts, names, hproperties, hm₁, hparts, hnames, hsame, hrequired, -⟩ :=
    add_eq_ok h
  obtain ⟨hrequired₁, hkeys⟩ := keys_of_addProperties hm₁
  rw [hrequired₁] at hrequired
  refine ⟨⟨fun hget hmem => ?_, fun hget hmem => ?_⟩, fun o ho => ⟨fun hget hmem => ?_, fun hget hmem => ?_⟩⟩
  · rw [entriesOf_map hget] at hproperties
    cases hproperties
    rw [hsame, hkeys]
    exact .inr (List.mem_map_of_mem hmem)
  · rw [hrequired]
    exact List.mem_append_right _ (mem_requiredNames hparts hnames hget hmem)
  · rw [hsame, hkeys]
    exact .inl (ho.properties hget hmem)
  · rw [hrequired]
    exact List.mem_append_left _ (ho.required hget hmem)

theorem Merged.declares_of_merge {objects : List Entries} {m : Merged}
    (h : merge owner objects = .ok m) : ∀ o ∈ objects, m.Declares o :=
  forall_mem_of_foldlM (I := fun _ => True) h trivial fun _ _ _ _ _ hadd =>
    ⟨trivial, Declares.of_add hadd⟩

/-! ## Records -/

section

variable {σ : Type} {typeOf : Tree → RunOn σ TypeExpr} {s s' : σ}

/-- Every property that is not left out becomes a field, which is required if its name is. -/
theorem fieldsOf_declares {required taken : List String} {exclude : Tree}
    {properties : List (Scalar × Tree)} {fields : List Field}
    (h : fieldsOf table typeOf required exclude taken properties s = (.ok fields, s')) :
    (∀ n, .text n ∈ properties.map (·.1) → .text n ≠ exclude → ∃ f ∈ fields, f.wireName = n) ∧
      ∀ f ∈ fields, f.required = required.contains f.wireName := by
  have hmade := fieldsOf_eq_ok h
  constructor
  · intro n hn hne
    obtain ⟨p, hp, hkey⟩ := List.mem_map.1 hn
    have hkept : p ∈ properties.filter fun p => Tree.scalar p.1 != exclude :=
      List.mem_filter.2 ⟨hp, by rw [hkey]; simpa using hne⟩
    obtain ⟨f, hf, hwire, -⟩ := mem_of_forall₂_left hmade hkept
    exact ⟨f, hf, Scalar.text.inj (hwire.symm.trans hkey)⟩
  · intro f hf
    obtain ⟨-, -, -, hrequired⟩ := mem_of_forall₂_right hmade hf
    exact hrequired

/-- A record has what the object schemas that it is made of declare. -/
theorem declares_of_record {name schemaName : String} {schema : Entries} {objects : List Entries}
    {t : NamedType} {b : Body} (h : record table typeOf name schemaName schema objects s = (.ok t, s'))
    (hb : t.shape = .record b) : ∀ o ∈ objects, b.Declares o := by
  obtain ⟨b', _, hbody, rfl⟩ := record_eq_ok h
  cases hb
  obtain ⟨merged, _, hlift, hbody⟩ := bind_eq_ok.1 hbody
  obtain ⟨hmerged, rfl⟩ := lift_eq_ok.1 hlift
  obtain ⟨fields, _, hfields, hbody⟩ := bind_eq_ok.1 hbody
  obtain ⟨extra, _, -, hbody⟩ := bind_eq_ok.1 hbody
  obtain ⟨rfl, -⟩ := pure_eq_ok.1 hbody
  obtain ⟨hall, hrequired⟩ := fieldsOf_declares hfields
  intro o ho
  have hdeclares := Merged.declares_of_merge hmerged o ho
  refine ⟨fun hget hmem => hall _ (hdeclares.properties hget hmem) nofun, fun hget hmem f hf hname => ?_⟩
  rw [hrequired f hf, hname]
  exact List.contains_iff_mem.2 (hdeclares.required hget hmem)

end

/-! ## What is reached -/

/-- The schemas that are reached from a schema through `allOf`, by reference or inline. -/
inductive Reached (table : Entries) : Tree → Tree → Prop
  | self (t : Tree) : Reached table t t
  | part {a b : Anchor} {es : Entries} {ts : List Tree} {t u : Tree} : Reference.ofEntries? es = none →
      Schema.kind es = .ok .allOf → es.get? "allOf" = some (.list b ts) → t ∈ ts → Reached table t u →
      Reached table (.map a es) u
  | reference {t schema u : Tree} {r name : String} : Reference.ofTree? t = some r →
      Names table r name schema → Reached table schema u → Reached table t u

/-- What becomes of a schema that is reached: a reference leads to the entry that it names, a composition has
been read part by part, and what an object schema declares is in the record. -/
inductive ReadInto (table : Entries) (b : Body) : Tree → Prop
  | reference {t schema : Tree} {r name : String} : Reference.ofTree? t = some r →
      Names table r name schema → ReadInto table b t
  | composition {a : Anchor} {es : Entries} : Reference.ofEntries? es = none →
      Schema.kind es = .ok .allOf → ReadInto table b (.map a es)
  | object {a : Anchor} {es : Entries} : Reference.ofEntries? es = none →
      Schema.kind es = .ok .object → b.Declares es → ReadInto table b (.map a es)

/-- All that is reached from a composition has been read if its leaves are in the record. -/
theorem Reached.readInto {b : Body} {t u : Tree} (h : Reached table t u) {path : List String}
    {os : List Entries} (hok : leavesWith (leavesOf table owner path) owner t = .ok os)
    (hos : ∀ o ∈ os, b.Declares o) : ReadInto table b u := by
  induction h generalizing path os with
  | self t =>
    cases href : Reference.ofTree? t with
    | some r =>
      rw [leavesWith_reference href] at hok
      obtain ⟨found, hfind, -, -⟩ := leavesOf_eq_ok hok
      exact .reference href (names_of_find hfind)
    | none =>
      cases t with
      | map a es =>
        rcases kind_of_leavesWith href hok with hkind | hkind
        · rw [leavesWith_object href hkind] at hok
          cases hok
          exact .object href hkind (hos es List.mem_cons_self)
        · exact .composition href hkind
      | _ => cases hok
  | part href hkind hparts ht _ ih =>
    obtain ⟨part, hpart, hsub⟩ := leavesWith_part href hkind hparts ht hok
    exact ih hpart fun o ho => hos o (hsub o ho)
  | reference href hnames _ ih =>
    rw [leavesWith_reference href] at hok
    obtain ⟨found, hfind, -, hok⟩ := leavesOf_eq_ok hok
    obtain ⟨rfl, rfl⟩ := hnames.eq hfind
    exact ih hok hos

/-- From an object schema nothing else is reached. -/
theorem Reached.eq_of_object {a : Anchor} {es : Entries} {u : Tree} (href : Reference.ofEntries? es = none)
    (hkind : Schema.kind es = .ok .object) (h : Reached table (.map a es) u) : u = .map a es := by
  cases h with
  | self => rfl
  | part _ hallOf => cases hkind.symm.trans hallOf
  | reference hreference => cases href.symm.trans hreference

/-- A record that a schema gives has read all that is reached from the schema. -/
theorem Gave.readInto {n : String} {schema : Tree} {t : NamedType} {b : Body}
    (h : Gave table n schema t) (hdirect : Reference.ofTree? schema = none) (hb : t.shape = .record b) :
    ∀ u, Reached table schema u → ReadInto table b u := by
  obtain ⟨follow, s, s', h⟩ := h
  obtain ⟨es, m, hentries, hmakes, hm⟩ := makes_of_schemaType h
  obtain ⟨a, rfl⟩ : ∃ a, schema = .map a es := by
    cases schema <;> cases hentries
    exact ⟨_, rfl⟩
  obtain ⟨objects, hrecord, ⟨hkind, rfl⟩ | ⟨hkind, hleaves⟩⟩ := hmakes.record hm hb
  · intro u hu
    rw [hu.eq_of_object hdirect hkind]
    exact .object hdirect hkind (declares_of_record hrecord hb es List.mem_cons_self)
  · rw [besideReference_of_direct hdirect] at hleaves
    exact fun u hu => hu.readInto hleaves (declares_of_record hrecord hb)

/-- Whatever has been compiled before: if an entry compiles to a record, all that is reached from its schema
through `allOf` has been read into the record. -/
theorem entry_readInto {calls : List Call} {n : String} {schema : Tree} {t : NamedType} {s' : State}
    {b : Body} (hkeys : (table.map (·.1)).Nodup) (hcalls : ∀ call ∈ calls, call.Direct table)
    (hentry : IsEntry table n schema)
    (h : entry table n schema (after table calls) = (.ok (some t), s')) (hb : t.shape = .record b) :
    ∀ u, Reached table schema u → ReadInto table b u := by
  have hs := traced_direct hkeys hcalls
  have hrun := tracedRun_entry (fun _ _ => isEntry_of_mem hkeys) hs hentry
  obtain ⟨-, schema', hentry', hgave⟩ := hrun.gives (some t) (by rw [h]) t rfl
  cases hentry.found.symm.trans hentry'.found
  exact hgave.readInto hentry.direct hb

/-- An object schema with one property, which is required. -/
def sampleRequired (property : String) : Tree :=
  Tree.object [("type", .text "object"), ("required", Tree.array [.text property]),
    ("properties", Tree.object [(property, Tree.object [("type", .text "string")])])]

/-- A composition of a reference and of a composition that stands inline. -/
def sampleWhole : Tree :=
  Tree.object [("allOf", Tree.array [Reference.asTree "#/components/schemas/Base",
    Tree.object [("allOf", Tree.array [sampleRequired "name"])]])]

/-- A table in which a schema is composed by reference and inline. -/
def sampleComposed : Entries := [(.text "Base", sampleRequired "id"), (.text "Pet", sampleWhole)]

/-- The record that the composition compiles to. -/
def sampleBody : Body where
  fields := ["id", "name"].map fun n => ⟨n, n, .primitive .string none false, true, none⟩
  extra := none

theorem entry_readInto_sampleComposed : ReadInto sampleComposed sampleBody (sampleRequired "id") ∧
    ReadInto sampleComposed sampleBody (sampleRequired "name") := by
  have hcalls : ∀ call ∈ [Call.all], call.Direct sampleComposed := List.forall_mem_singleton.2 trivial
  have hentry : IsEntry sampleComposed "Pet" sampleWhole := ⟨rfl, rfl⟩
  have hread := entry_readInto (t := ⟨"Pet", "Pet", none, .record sampleBody⟩) (by decide) hcalls hentry
    (eq_ok_of_toOption_fst (by decide +kernel)) rfl
  have hnames : Names sampleComposed "#/components/schemas/Base" "Base" (sampleRequired "id") :=
    ⟨eq_ok_of_toOption (by decide +kernel), rfl⟩
  constructor
  · exact hread _ (.part rfl rfl rfl List.mem_cons_self (.reference rfl hnames (.self _)))
  · exact hread _ (.part rfl rfl rfl (List.mem_cons_of_mem _ List.mem_cons_self)
      (.part rfl rfl rfl List.mem_cons_self (.self _)))

/-- An object schema with a property, beside it a composition of another object schema. -/
def sampleBeside : Tree :=
  Tree.object [("type", .text "object"),
    ("properties", Tree.object [("name", Tree.object [("type", .text "string")])]),
    ("allOf", Tree.array [sampleRequired "tag"])]

/-- What stands beside a `type` is not read: the record has no field for a property that `allOf` declares. -/
theorem entry_sampleBeside : ∃ t b object,
    (entry [(.text "Pet", sampleBeside)] "Pet" sampleBeside .start).1 = .ok (some t) ∧
      t.shape = .record b ∧ sampleBeside.get? "allOf" = some (Tree.array [.map none object]) ∧
        ¬ b.Declares object := by
  let field : Field := ⟨"name", "name", .primitive .string none false, false, none⟩
  refine ⟨⟨"Pet", "Pet", none, .record ⟨[field], none⟩⟩, _, _, eq_ok_of_toOption (by decide +kernel), rfl,
    rfl, fun h => ?_⟩
  obtain ⟨f, hf, hname⟩ := h.properties rfl List.mem_cons_self
  cases List.mem_singleton.1 hf
  exact absurd hname (by decide)

end Compile

end ApiContract
