import ApiContract.Proofs.Compile.Graph
import ApiContract.Proofs.Compile.Order
import ApiContract.Proofs.Compile.Type

/-!
# What compositions are made of

The object schemas that a composition is made of are collected, all of them and no others (`Component.mem`,
`component_of_mem`), and what any of them contains is still mentioned after they have been merged
(`Merged.covers_of_merge`). A part of a composition that is a reference leads on only to what its object
schemas contain (`settles_of_leavesOf`).
-/

namespace ApiContract.Compile

open Tree

variable {table : Entries} {owner : String}

/-! ## Compositions -/

section

variable {follow : String → Except Failure (List Entries)}

theorem leafCases_list (a : Anchor) (ts : List Tree) :
    (Tree.list a ts).para (leafCases follow owner) .list =
      (do return (← ts.mapM (leavesWith follow owner)).flatten) := by
  simp only [para, paraItems_eq, leafCases, List.mapM_map]
  rfl

/-- Of a composition what stands under `allOf` is collected. -/
theorem leavesWith_parts {a : Anchor} {es : Entries} (href : Reference.ofEntries? es = none)
    (hkind : Schema.kind es = .ok .allOf) : leavesWith follow owner (.map a es) =
      (es.orNull "allOf").para (leafCases follow owner) .list := by
  rw [leavesWith, leafCases_map, href]
  dsimp only
  rw [hkind, Entries.lookup_children (fun x => x.para (leafCases follow owner)),
    ← Entries.get?_eq_at?, Entries.orNull]
  cases es.get? "allOf" <;> rfl

/-- A composition is collected part by part. -/
theorem leavesWith_list {a b : Anchor} {es : Entries} {ts : List Tree}
    (href : Reference.ofEntries? es = none) (hkind : Schema.kind es = .ok .allOf)
    (hparts : es.get? "allOf" = some (.list b ts)) : leavesWith follow owner (.map a es) =
      (do return (← ts.mapM (leavesWith follow owner)).flatten) := by
  rw [leavesWith_parts href hkind, Entries.orNull, hparts]
  exact leafCases_list b ts

/-- What a composition is made of, part by part. -/
theorem leavesWith_allOf {a b : Anchor} {es : Entries} {ts : List Tree} {os : List Entries}
    (href : Reference.ofEntries? es = none) (hkind : Schema.kind es = .ok .allOf)
    (hparts : es.get? "allOf" = some (.list b ts)) (h : leavesWith follow owner (.map a es) = .ok os) :
    ∃ parts, ts.mapM (leavesWith follow owner) = .ok parts ∧ os = parts.flatten := by
  rw [leavesWith_list href hkind hparts] at h
  obtain ⟨parts, hparts, h⟩ := ApiContract.bind_eq_ok.1 h
  cases h
  exact ⟨parts, hparts, rfl⟩

/-- What a part of a composition is made of is part of what the composition is made of. -/
theorem leavesWith_part {a b : Anchor} {es : Entries} {ts : List Tree} {t : Tree} {os : List Entries}
    (href : Reference.ofEntries? es = none) (hkind : Schema.kind es = .ok .allOf)
    (hparts : es.get? "allOf" = some (.list b ts)) (ht : t ∈ ts)
    (h : leavesWith follow owner (.map a es) = .ok os) :
    ∃ part, leavesWith follow owner t = .ok part ∧ ∀ o ∈ part, o ∈ os := by
  obtain ⟨parts, hmap, rfl⟩ := leavesWith_allOf href hkind hparts h
  obtain ⟨part, hpart, hmem⟩ := exists_of_mapM hmap ht
  exact ⟨part, hpart, fun o ho => List.mem_flatten.2 ⟨part, hmem, ho⟩⟩

theorem leavesWith_reference {t : Tree} {r : String} (h : Reference.ofTree? t = some r) :
    leavesWith follow owner t = follow r := by
  obtain ⟨a, es, rfl⟩ := (Mentions.reference h).isMap
  unfold leavesWith
  rw [leafCases_map, show Reference.ofEntries? es = some r from h]

/-- A composition that ends well has followed the references among its parts. -/
theorem Composes.followed {t : Tree} {r : String} (h : Composes t r) {os : List Entries}
    (hok : leavesWith follow owner t = .ok os) : ∃ part, follow r = .ok part ∧ ∀ o ∈ part, o ∈ os := by
  induction h generalizing os with
  | reference href hkind hparts ht htarget =>
    obtain ⟨part, hpart, hsub⟩ := leavesWith_part href hkind hparts ht hok
    rw [leavesWith_reference htarget] at hpart
    exact ⟨part, hpart, hsub⟩
  | part href hkind hparts ht _ ih =>
    obtain ⟨part, hpart, hsub⟩ := leavesWith_part href hkind hparts ht hok
    obtain ⟨leaves, hleaves, hsub'⟩ := ih hpart
    exact ⟨leaves, hleaves, fun o ho => hsub o (hsub' o ho)⟩

theorem leavesWith_object {a : Anchor} {es : Entries} (href : Reference.ofEntries? es = none)
    (hkind : Schema.kind es = .ok .object) : leavesWith follow owner (.map a es) = .ok [es] := by
  unfold leavesWith
  rw [leafCases_map, href]
  dsimp only
  rw [hkind]
  rfl

/-- A part of a composition is a reference, an object or a composition. -/
theorem kind_of_leavesWith {a : Anchor} {es : Entries} {os : List Entries}
    (href : Reference.ofEntries? es = none) (h : leavesWith follow owner (.map a es) = .ok os) :
    Schema.kind es = .ok .object ∨ Schema.kind es = .ok .allOf := by
  unfold leavesWith at h
  rw [leafCases_map, href] at h
  dsimp only at h
  obtain ⟨kind, hkind, h⟩ := ApiContract.bind_eq_ok.1 h
  cases kind with
  | object => exact .inl hkind
  | allOf => exact .inr hkind
  | _ => cases h

/-- What is gone through of a scalar are scalars again. -/
theorem iterate_scalar (x : Scalar) (h : x.truthy = true) :
    (∃ f, iterate (.scalar x) = .error f) ∨ ∃ y ys, iterate (.scalar x) = .ok (.scalar y :: ys) := by
  cases x with
  | text s =>
    obtain ⟨c, cs, hs⟩ : ∃ c cs, s.toList = c :: cs := by
      refine List.exists_cons_of_ne_nil fun hnil => ?_
      rw [String.toList_eq_nil_iff] at hnil
      subst hnil
      cases h
    refine .inr ⟨.text (String.ofList [c]), cs.map fun d => .text (String.ofList [d]), ?_⟩
    rw [iterate, hs]
    rfl
  | bytes bs =>
    cases bs with
    | nil => cases h
    | cons b bs => exact .inr ⟨_, _, rfl⟩
  | _ => exact .inl ⟨_, rfl⟩

/-- Where no list stands, what is empty has no parts, and anything else is refused. -/
theorem leafCases_not_list {t : Tree} (hnot : ∀ b ts, t ≠ .list b ts) :
    (t.truthy = false → t.para (leafCases follow owner) .list = .ok []) ∧
      (t.truthy = true → ∃ f, t.para (leafCases follow owner) .list = .error f) := by
  cases t with
  | list b ts => exact absurd rfl (hnot b ts)
  | map a es =>
    cases es with
    | nil => exact ⟨fun _ => rfl, nofun⟩
    | cons e es => exact ⟨nofun, fun _ => ⟨_, rfl⟩⟩
  | set a ms =>
    cases ms with
    | nil => exact ⟨fun _ => rfl, nofun⟩
    | cons m ms => exact ⟨nofun, fun _ => ⟨_, rfl⟩⟩
  | pair x y => exact ⟨nofun, fun _ => ⟨_, rfl⟩⟩
  | back a m => exact ⟨nofun, fun _ => ⟨_, rfl⟩⟩
  | scalar x =>
    simp only [para, leafCases, truthy]
    constructor
    · intro h
      rw [if_neg (by rw [h]; decide)]
      rfl
    · intro h
      rw [if_pos h]
      obtain ⟨f, hf⟩ | ⟨y, ys, hys⟩ := iterate_scalar x h
      · rw [hf]
        exact ⟨f, rfl⟩
      · rw [hys]
        exact ⟨_, rfl⟩

/-- Only a list has parts from which anything is collected. -/
theorem eq_nil_of_not_list {t : Tree} {os : List Entries} (hlist : ∀ a ts, t ≠ .list a ts)
    (h : t.para (leafCases follow owner) .list = .ok os) : os = [] := by
  obtain ⟨hempty, hrefused⟩ := leafCases_not_list hlist
  cases htruthy : t.truthy with
  | false => exact (Except.ok.inj ((hempty htruthy).symm.trans h)).symm
  | true =>
    obtain ⟨f, hf⟩ := hrefused htruthy
    cases hf.symm.trans h

section

variable (hf : ∀ r os, follow r = .ok os →
  ∃ name schema, Names table r name schema ∧ ∀ o ∈ os, Component table schema o)
include hf

theorem component_leafCases_map {a : Anchor} {es : Entries} {os : List Entries}
    (hparts : ∀ x, es.get? "allOf" = some x → ∀ os, x.para (leafCases follow owner) .list = .ok os →
      ∀ o ∈ os, ∃ b ts, x = .list b ts ∧ ∃ u ∈ ts, Component table u o)
    (h : (Tree.map a es).para (leafCases follow owner) .component = .ok os) :
    ∀ o ∈ os, Component table (.map a es) o := by
  rw [leafCases_map] at h
  cases href : Reference.ofEntries? es with
  | some r =>
    rw [href] at h
    obtain ⟨name, schema, hnames, hos⟩ := hf r os h
    exact fun o ho => .reference href hnames (hos o ho)
  | none =>
    rw [href] at h
    dsimp only at h
    obtain ⟨kind, hkind, h⟩ := ApiContract.bind_eq_ok.1 h
    cases kind with
    | object =>
      cases h
      exact List.forall_mem_singleton.2 (.object href hkind)
    | allOf =>
      rw [Entries.lookup_children (fun x => x.para (leafCases follow owner))] at h
      cases hallOf : Entries.at? (.text "allOf") es with
      | none =>
        rw [hallOf] at h
        cases h
        exact nofun
      | some x =>
        rw [hallOf] at h
        intro o ho
        obtain ⟨b, ts, rfl, u, hu, hcomponent⟩ := hparts x hallOf os h o ho
        exact .part href hkind hallOf hu hcomponent
    | _ => cases h

/-- What is collected are object schemas that the composition is made of, if what is behind references is. -/
theorem component_leafCases (t : Tree) :
    ∀ (role : Role) (os : List Entries), t.para (leafCases follow owner) role = .ok os → ∀ o ∈ os,
      match role with
      | .component => Component table t o
      | .list => ∃ a ts, t = .list a ts ∧ ∃ u ∈ ts, Component table u o := by
  induction t using Tree.induct with
  | map a es ih =>
    intro role os h
    cases role with
    | component =>
      exact component_leafCases_map hf (fun x hx => ih _ (Entries.mem_of_at? hx) .list) h
    | list =>
      obtain rfl := eq_nil_of_not_list (by rintro _ _ ⟨⟩) h
      exact nofun
  | list a ts ih =>
    intro role os h
    cases role with
    | component => cases h
    | list =>
      rw [leafCases_list] at h
      obtain ⟨parts, hparts, h⟩ := ApiContract.bind_eq_ok.1 h
      cases h
      intro o ho
      obtain ⟨part, hpart, ho⟩ := List.mem_flatten.1 ho
      obtain ⟨u, hu, hleaves⟩ := mem_of_mapM hparts hpart
      exact ⟨a, ts, rfl, u, hu, ih u hu .component part hleaves o ho⟩
  | scalar | set | pair | back =>
    intro role os h
    cases role with
    | component => cases h
    | list =>
      obtain rfl := eq_nil_of_not_list (by rintro _ _ ⟨⟩) h
      exact nofun

end

end

/-! ## Compositions through references -/

theorem leavesOf_eq_ok {path : List String} {r : String} {os : List Entries}
    (h : leavesOf table owner path r = .ok os) : ∃ found, find table r = .ok found ∧ found.name ∉ path ∧
      leavesWith (leavesOf table owner (path ++ [found.name])) owner found.schema = .ok os := by
  rw [leavesOf] at h
  cases hfind : find table r with
  | error f =>
    rw [hfind] at h
    cases h
  | ok found =>
    rw [hfind] at h
    dsimp only at h
    split at h
    · cases h
    · rename_i hpath
      exact ⟨found, rfl, hpath, h⟩

theorem Names.eq {r n : String} {schema : Tree} (h : Names table r n schema) {found : Found table}
    (hfind : find table r = .ok found) : n = found.name ∧ schema = found.schema := by
  obtain ⟨hname, hget⟩ := h
  obtain ⟨hname', hget'⟩ := names_of_find hfind
  cases hname.symm.trans hname'
  cases hget.symm.trans hget'
  exact ⟨rfl, rfl⟩

/-- All object schemas that a composition is made of are collected. -/
theorem Component.mem {t : Tree} {o : Entries} (h : Component table t o) {path : List String}
    {os : List Entries} (hok : leavesWith (leavesOf table owner path) owner t = .ok os) : o ∈ os := by
  induction h generalizing path os with
  | object href hkind =>
    rw [leavesWith_object href hkind] at hok
    cases hok
    exact List.mem_cons_self
  | part href hkind hparts ht _ ih =>
    obtain ⟨part, hpart, hsub⟩ := leavesWith_part href hkind hparts ht hok
    exact hsub _ (ih hpart)
  | reference href hnames _ ih =>
    rw [leavesWith_reference href] at hok
    obtain ⟨found, hfind, -, hok⟩ := leavesOf_eq_ok hok
    obtain ⟨rfl, rfl⟩ := hnames.eq hfind
    exact ih hok

theorem component_leavesOf (path : List String) (r : String) {os : List Entries}
    (h : leavesOf table owner path r = .ok os) :
    ∃ name schema, Names table r name schema ∧ ∀ o ∈ os, Component table schema o := by
  obtain ⟨found, hfind, hpath, hleaves⟩ := leavesOf_eq_ok h
  exact ⟨_, _, names_of_find hfind, component_leafCases
    (fun r _ hos => component_leavesOf (path ++ [found.name]) r hos) found.schema .component os hleaves⟩
termination_by unvisited (names table) path
decreasing_by exact unvisited_append_lt (mem_names found.found) ‹_›

/-- Only object schemas that the composition is made of are collected. -/
theorem component_of_mem {t : Tree} {path : List String} {os : List Entries}
    (h : leavesWith (leavesOf table owner path) owner t = .ok os) {o : Entries} (ho : o ∈ os) :
    Component table t o :=
  component_leafCases (fun r _ hos => component_leavesOf path r hos) t .component os h o ho

/-- The keys of all schemas of a table differ. -/
def KeyedTable (table : Entries) : Prop := ∀ e ∈ table, e.2.Keyed

theorem KeyedTable.found (h : KeyedTable table) (found : Found table) : found.schema.Keyed :=
  h _ (Entries.mem_of_at? found.found)

theorem Component.keyed (ht : KeyedTable table) {t : Tree} {o : Entries} (h : Component table t o) :
    t.Keyed → Keyed (.map none o) := by
  induction h with
  | object => exact fun h => keyed_map.2 (keyed_map.1 h)
  | part _ _ hparts hmem _ ih =>
    exact fun h => ih (keyed_list.1 ((keyed_map.1 h).2 _ (Entries.mem_of_at? hparts)) _ hmem)
  | reference _ hnames _ ih => exact fun _ => ih (ht _ (Entries.mem_of_at? hnames.2))

theorem keyed_leaves (ht : KeyedTable table) {schema : Tree} (hs : schema.Keyed) {os : List Entries}
    (h : leaves table owner schema = .ok os) : ∀ o ∈ os, Keyed (.map none o) :=
  fun _ ho => (component_of_mem h ho).keyed ht hs

/-- A part of a composition leads nowhere without end if what the composition is made of does not. -/
theorem settles_of_leavesOf (path : List String) (r : String) {os : List Entries}
    (h : leavesOf table owner path r = .ok os)
    (hos : ∀ o ∈ os, ∀ x, Contains .null o x → Settles table x) : Settles table r := by
  obtain ⟨found, hfind, hpath, hleaves⟩ := leavesOf_eq_ok h
  have hdirect := find_eq_ok hfind
  refine ⟨found.name, (names_of_find hfind).1, grounded_of_refers found.found fun x hx => ?_⟩
  have hkind : ∀ {a es}, found.schema = .map a es →
      Schema.kind es = .ok .object ∨ Schema.kind es = .ok .allOf := by
    intro a es heq
    rw [heq] at hleaves hdirect
    exact kind_of_leavesWith hdirect hleaves
  cases hx with
  | mention hmention =>
    generalize hschema : found.schema = schema at hmention
    cases hmention with
    | reference href => cases (hschema ▸ hdirect).symm.trans href
    | additional href hobject hadditional hmention =>
      rw [hschema, leavesWith_object href hobject] at hleaves
      cases hleaves
      exact hos _ List.mem_cons_self x (.additional hadditional hmention)
    | item href harray =>
      rcases hkind hschema with h | h
      · cases harray.symm.trans h
      · cases harray.symm.trans h
  | content hcomponent hcontains => exact hos _ (hcomponent.mem hleaves) x hcontains
  | component hcomposes =>
    obtain ⟨part, hpart, hsub⟩ := hcomposes.followed hleaves
    exact settles_of_leavesOf (path ++ [found.name]) x hpart fun o ho => hos o (hsub o ho)
  | branch hschema _ honeOf =>
    rcases hkind hschema with h | h
    · cases honeOf.symm.trans h
    · cases honeOf.symm.trans h
termination_by unvisited (names table) path
decreasing_by exact unvisited_append_lt (mem_names found.found) ‹_›

/-! ## Unions -/

/-- The object schemas of a branch are what it is composed of. -/
theorem component_of_branchObjects {union branch : String} {t : Tree} {objects : List Entries}
    (hdirect : Reference.ofTree? t = none) (h : branchObjects table union branch t = .ok objects) :
    ∀ object ∈ objects, Component table t object := by
  obtain ⟨kind, hkind, h⟩ := ApiContract.bind_eq_ok.1 h
  cases kind with
  | object =>
    cases h
    cases t with
    | map a es => exact List.forall_mem_singleton.2 (.object hdirect hkind)
    | _ => exact nofun
  | allOf => exact fun object hobject => component_of_mem h hobject
  | _ => cases h

/-- The branches of a union are those that its parts refer to. -/
theorem names_of_branchesFrom {union : String} : ∀ {ts : List Tree} {done bs : List (String × Tree)},
    branchesFrom table union done ts = .ok bs → ∀ b ∈ bs,
      b ∈ done ∨ ∃ t ∈ ts, ∃ r, Reference.ofTree? t = some r ∧ Names table r b.1 b.2
  | [], _, _, h => by
    cases h
    exact fun b hb => .inl hb
  | t :: ts, done, bs, h => by
    unfold branchesFrom at h
    cases href : Reference.ofTree? t with
    | none =>
      rw [href] at h
      cases h
    | some r =>
      rw [href] at h
      obtain ⟨found, hfind, h⟩ := ApiContract.bind_eq_ok.1 h
      intro b hb
      rcases names_of_branchesFrom h b hb with hb | ⟨u, hu, hnames⟩
      · split at hb
        · exact .inl hb
        · refine (List.mem_append.1 hb).imp_right fun hb => ⟨t, List.mem_cons_self, r, href, ?_⟩
          rw [List.mem_singleton.1 hb]
          exact names_of_find hfind
      · exact .inr ⟨u, List.mem_cons_of_mem _ hu, hnames⟩

/-- Parts are scalars, or they stand in a list or in a pair. -/
theorem mem_of_partsOf {es : Entries} {key : String} {ts : List Tree} {t : Tree}
    (h : partsOf es key = .ok ts) (ht : t ∈ ts) :
    (∃ x, t = .scalar x) ∨ (∃ a, es.get? key = some (.list a ts)) ∨
      ∃ x y, es.get? key = some (.pair x y) ∧ (t = x ∨ t = y) := by
  unfold partsOf Entries.orNull at h
  cases hget : es.get? key with
  | none =>
    rw [hget] at h
    cases h
    cases ht
  | some parts =>
    rw [hget] at h
    dsimp only [Option.getD_some] at h
    split_ifs at h
    · unfold iterate at h
      split at h <;> cases h
      · exact .inr (.inl ⟨_, rfl⟩)
      · obtain ⟨e, -, rfl⟩ := List.mem_map.1 ht
        exact .inl ⟨_, rfl⟩
      · obtain ⟨x, -, rfl⟩ := List.mem_map.1 ht
        exact .inl ⟨_, rfl⟩
      · exact .inr (.inr ⟨_, _, rfl, by simpa using ht⟩)
      · obtain ⟨c, -, rfl⟩ := List.mem_map.1 ht
        exact .inl ⟨_, rfl⟩
      · obtain ⟨b, -, rfl⟩ := List.mem_map.1 ht
        exact .inl ⟨_, rfl⟩
    · cases h
      cases ht

/-! ## Merged properties -/

theorem not_mentions_scalar {x : Scalar} {r : String} : ¬ Mentions (.scalar x) r := by
  intro h
  obtain ⟨a, es, heq⟩ := h.isMap
  cases heq

/-- What a property mentions is still mentioned under its key. -/
def Merged.Within (m m' : Merged) : Prop :=
  ∀ k x r, Entries.at? (.text k) m.properties = some x → Mentions x r →
    ∃ y, Entries.at? (.text k) m'.properties = some y ∧ Mentions y r

theorem Merged.Within.refl (m : Merged) : m.Within m := fun _ x _ hx hr => ⟨x, hx, hr⟩

theorem Merged.Within.trans {m m' m'' : Merged} (h : m.Within m') (h' : m'.Within m'') : m.Within m'' := by
  intro k x r hx hr
  obtain ⟨y, hy, hr⟩ := h k x r hx hr
  exact h' k y r hy hr

/-- The keys of the properties' schemas differ. -/
def Merged.Keyed (m : Merged) : Prop := ∀ e ∈ m.properties, e.2.Keyed

/-- A property is there after it has been added. One that it replaces is the same schema. -/
theorem Merged.of_addProperty {m m' : Merged} {key : Scalar} {schema : Tree}
    (h : m.addProperty owner key schema = .ok m') (hm : m.Keyed) (hs : schema.Keyed) :
    m'.Keyed ∧ m.Within m' ∧ m'.additional = m.additional ∧
      Entries.at? key m'.properties = some schema := by
  obtain ⟨rfl, hexisting⟩ := addProperty_eq_ok h
  refine ⟨fun e he => ?_, fun k x r hx hr => ?_, rfl, Entries.at?_put_self key schema _⟩
  · rcases Entries.mem_put he with rfl | he
    · exact hs
    · exact hm e he
  · by_cases hkey : key = .text k
    · subst hkey
      refine ⟨schema, Entries.at?_put_self _ _ _, ?_⟩
      rcases hexisting x hx with rfl | hsame
      · exact absurd hr not_mentions_scalar
      · exact hr.of_same (hm _ (Entries.mem_of_at? hx)) hsame
    · exact ⟨x, (Entries.at?_put_ne (Ne.symm hkey) schema _).trans hx, hr⟩

theorem Merged.of_addProperties : ∀ {properties : Entries} {m m' : Merged},
    properties.foldlM (fun m (key, schema) => m.addProperty owner key schema) m = .ok m' →
      m.Keyed → (∀ e ∈ properties, e.2.Keyed) →
        m'.Keyed ∧ m.Within m' ∧ m'.additional = m.additional ∧
          ∀ k x r, (Scalar.text k, x) ∈ properties → Mentions x r →
            ∃ y, Entries.at? (.text k) m'.properties = some y ∧ Mentions y r
  | [], m, _, h, hm, _ => by
    cases h
    exact ⟨hm, .refl m, rfl, nofun⟩
  | (key, schema) :: properties, m, m', h, hm, hproperties => by
    obtain ⟨hschema, hproperties⟩ := List.forall_mem_cons.1 hproperties
    rw [List.foldlM_cons] at h
    obtain ⟨m₁, hm₁, h⟩ := ApiContract.bind_eq_ok.1 h
    obtain ⟨hkeyed, hwithin, hadditional, hadded⟩ := of_addProperty hm₁ hm hschema
    obtain ⟨hkeyed', hwithin', hadditional', hall⟩ := of_addProperties h hkeyed hproperties
    refine ⟨hkeyed', hwithin.trans hwithin', hadditional'.trans hadditional, fun k x r hmem hr => ?_⟩
    rcases List.mem_cons.1 hmem with heq | hmem
    · cases heq
      exact hwithin' k schema r hadded hr
    · exact hall k x r hmem hr

/-- What an object schema contains is mentioned among merged properties, or as what further ones may be. -/
def Merged.Covers (m : Merged) (object : Entries) : Prop :=
  ∀ exclude r, Contains exclude object r →
    (∃ k x, Entries.at? (.text k) m.properties = some x ∧ .text k ≠ exclude ∧ Mentions x r) ∨
      Mentions m.additional r

theorem entriesOf_map {object properties : Entries} {key : String} {a : Anchor}
    (h : object.get? key = some (.map a properties)) : entriesOf object key = .ok properties := by
  unfold entriesOf Entries.orNull
  rw [h]
  cases properties <;> rfl

/-- What has entries under a key is a map, or nothing is there. -/
theorem entriesOf_eq_ok {object properties : Entries} {key : String}
    (h : entriesOf object key = .ok properties) :
    properties = [] ∨ ∃ a, object.get? key = some (.map a properties) := by
  cases hget : object.get? key with
  | none =>
    unfold entriesOf Entries.orNull at h
    rw [hget] at h
    cases h
    exact .inl rfl
  | some t =>
    cases t with
    | map a ps =>
      rw [entriesOf_map hget] at h
      cases h
      exact .inr ⟨a, rfl⟩
    | _ =>
      unfold entriesOf Entries.orNull at h
      rw [hget] at h
      simp only [Option.getD_some, Tree.entries?] at h
      split at h
      · cases h
        exact .inl rfl
      · cases h

theorem keyed_entriesOf {object properties : Entries} {key : String}
    (hobject : Tree.Keyed (.map none object)) (h : entriesOf object key = .ok properties) :
    ∀ e ∈ properties, e.2.Keyed := by
  rcases entriesOf_eq_ok h with rfl | ⟨a, hget⟩
  · exact nofun
  · exact (keyed_map.1 ((keyed_map.1 hobject).2 _ (Entries.mem_of_at? hget))).2

theorem Merged.of_add {m m' : Merged} {object : Entries} (h : m.add owner object = .ok m')
    (hm : m.Keyed) (hobject : Tree.Keyed (.map none object)) :
    m'.Keyed ∧ m'.Covers object ∧ ∀ o, m.Covers o → m'.Covers o := by
  obtain ⟨properties, m₁, -, -, hproperties, hm₁, -, -, hproperties', -, hadd⟩ := add_eq_ok h
  obtain ⟨hkeyed, hwithin, hsame, hall⟩ := of_addProperties hm₁ hm (keyed_entriesOf hobject hproperties)
  have hadditional : ∀ r, Mentions m.additional r → Mentions m'.additional r := by
    intro r hr
    rw [← hsame] at hr
    rcases hadd with ⟨-, hadd⟩ | ⟨hnull, -⟩
    · exact hadd ▸ hr
    · rw [hnull] at hr
      exact absurd hr not_mentions_scalar
  have hadditional' : ∀ x r, object.get? "additionalProperties" = some x → Mentions x r →
      Mentions m'.additional r := by
    intro x r hx hr
    have hread : object.orNull "additionalProperties" = x := by rw [Entries.orNull, hx, Option.getD_some]
    rw [hread] at hadd
    rcases hadd with ⟨hnull, -⟩ | ⟨-, hadd⟩
    · rw [hnull] at hr
      exact absurd hr not_mentions_scalar
    · exact hadd ▸ hr
  refine ⟨fun e he => hkeyed e (hproperties' ▸ he), fun exclude r hr => ?_, fun o ho exclude r hr => ?_⟩
  · cases hr with
    | property hget hmem hexclude hmention =>
      rw [entriesOf_map hget] at hproperties
      cases hproperties
      obtain ⟨y, hy, hmention⟩ := hall _ _ r hmem hmention
      exact .inl ⟨_, y, hproperties' ▸ hy, hexclude, hmention⟩
    | additional hget hmention => exact .inr (hadditional' _ r hget hmention)
  · rcases ho exclude r hr with ⟨k, x, hx, hexclude, hmention⟩ | hmention
    · obtain ⟨y, hy, hmention⟩ := hwithin k x r hx hmention
      exact .inl ⟨k, y, hproperties' ▸ hy, hexclude, hmention⟩
    · exact .inr (hadditional r hmention)

theorem Merged.covers_of_merge {objects : List Entries} {m : Merged} (h : merge owner objects = .ok m)
    (hobjects : ∀ o ∈ objects, Tree.Keyed (.map none o)) : ∀ o ∈ objects, m.Covers o :=
  forall_mem_of_foldlM (I := Merged.Keyed) h nofun fun _ o ho _ hm hadd =>
    of_add hadd hm (hobjects o ho)

end ApiContract.Compile
