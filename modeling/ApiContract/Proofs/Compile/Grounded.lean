import ApiContract.Proofs.Compile.Anew
import ApiContract.Proofs.Compile.Composition

/-!
# What is read is grounded

Whatever has been compiled is grounded (`Acyclic`). If following a reference keeps that and ends well only
where no endless way leads on (`Follows`), then so does reading a schema: its type expression has followed all
references that the schema mentions (`reads_typeWith`), and its named type all those that it refers to
(`refers_of_schemaType`). Arrays and maps have no named type, and are read where they are referred to.
-/

namespace ApiContract.Compile

open Tree

variable {table : Entries} {s s' : State}

/-- The entries of what has been compiled are grounded. -/
structure Acyclic (table : Entries) (s : State) : Prop where
  types : ∀ t ∈ s.types, ∃ n, s.owners.lookup t.name = some n ∧ Grounded table n
  inlines : ∀ e ∈ s.inlines, Grounded table e.1

theorem acyclic_start (table : Entries) : Acyclic table .start := ⟨nofun, nofun⟩

/-- A run for a reference that leads nowhere without end. -/
def Follows (table : Entries) (m : Run TypeExpr) (r : String) : Prop :=
  ∀ ⦃s e s'⦄, Acyclic table s → m s = (.ok e, s') → Acyclic table s' ∧ Settles table r

/-- A run for a schema that mentions no reference which leads on without end. -/
def Reads (table : Entries) (m : Run TypeExpr) (t : Tree) : Prop :=
  ∀ ⦃s e s'⦄, Acyclic table s → m s = (.ok e, s') →
    Acyclic table s' ∧ ∀ r, Mentions t r → Settles table r

/-! ## Type expressions -/

theorem reads_additionalType {m : Run TypeExpr} {t : Tree} {e : Option TypeExpr} (h : Reads table m t)
    (hs : Acyclic table s) (hrun : additionalType (some (t, m)) s = (.ok e, s')) :
    Acyclic table s' ∧ ∀ r, Mentions t r → Settles table r := by
  rcases additionalType_some t with ⟨x, _, rfl, hr⟩ | hr
  · rw [hr] at hrun
    obtain ⟨-, rfl⟩ := pure_eq_ok.1 hrun
    exact ⟨hs, fun r hr => absurd hr not_mentions_scalar⟩
  · rw [hr, map_eq_pure_bind] at hrun
    obtain ⟨e', s₁, he', hrun⟩ := bind_eq_ok.1 hrun
    obtain ⟨-, rfl⟩ := pure_eq_ok.1 hrun
    exact h hs he'

section

variable {typeOf : Tree → Run TypeExpr} {es : Entries} (h : ∀ p ∈ es, Reads table (typeOf p.2) p.2)
include h

/-- The values of a map have been read if it is clear what they are. -/
theorem reads_values {value : Option TypeExpr} (hs : Acyclic table s)
    (hrun : additionalType ((es.at? (.text "additionalProperties")).map fun x => (x, typeOf x)) s =
      (.ok value, s')) :
    Acyclic table s' ∧ ∀ x r, es.get? "additionalProperties" = some x → Mentions x r →
      Settles table r := by
  rw [Entries.get?_eq_at?]
  cases hx : es.at? (.text "additionalProperties") with
  | none =>
    rw [hx] at hrun
    obtain ⟨-, rfl⟩ := pure_eq_ok.1 hrun
    exact ⟨hs, by simp⟩
  | some x =>
    rw [hx] at hrun
    obtain ⟨hs', hsettles⟩ := reads_additionalType (h _ (Entries.mem_of_at? hx)) hs hrun
    refine ⟨hs', fun x' r hx' hr => ?_⟩
    cases hx'
    exact hsettles r hr

/-- The type expression of a schema without a named type, given those of its parts. -/
theorem reads_inlineSchema {a : Anchor} {e : TypeExpr} (href : Reference.ofEntries? es = none)
    (hs : Acyclic table s)
    (hrun : inlineSchema es (.map a es) (es.map fun p => (p.1, p.2, typeOf p.2)) s = (.ok e, s')) :
    Acyclic table s' ∧ ∀ r, Mentions (.map a es) r → Settles table r := by
  obtain ⟨kind, _, hlift, hrun⟩ := bind_eq_ok.1 hrun
  obtain ⟨hkind, rfl⟩ := lift_eq_ok.1 hlift
  simp only [Entries.lookup_children] at hrun
  -- Without parts that are read nothing is mentioned.
  have hnone : kind ≠ .object → kind ≠ .array → ∀ r, Mentions (.map a es) r → Settles table r := by
    intro hobject harray r hr
    cases hr with
    | reference hr => cases href.symm.trans hr
    | additional _ hk => exact absurd (Except.ok.inj (hkind.symm.trans hk)) hobject
    | item _ hk => exact absurd (Except.ok.inj (hkind.symm.trans hk)) harray
  cases kind with
  | string | number | integer | boolean =>
    dsimp only at hrun
    split at hrun
    · cases hrun
    · obtain ⟨-, rfl⟩ := lift_eq_ok.1 hrun
      exact ⟨hs, hnone nofun nofun⟩
  | object =>
    dsimp only at hrun
    split at hrun
    · cases hrun
    · obtain ⟨value, s₁, hvalue, hrun⟩ := bind_eq_ok.1 hrun
      obtain ⟨hs₁, hsettles⟩ := reads_values h hs hvalue
      have hstate : s₁ = s' := by
        cases value with
        | none => exact (pure_eq_ok.1 hrun).2
        | some value => exact (pure_eq_ok.1 hrun).2
      refine ⟨hstate ▸ hs₁, fun r hr => ?_⟩
      cases hr with
      | reference hr => cases href.symm.trans hr
      | additional _ _ hx hr => exact hsettles _ r hx hr
      | item _ hk => cases hkind.symm.trans hk
  | array =>
    dsimp only at hrun
    obtain ⟨hs', hsettles⟩ : Acyclic table s' ∧ ∀ x r, es.get? "items" = some x → Mentions x r →
        Settles table r := by
      rw [Entries.get?_eq_at?]
      have hany : (pure (.array .any (es.orNull "uniqueItems").truthy (Schema.isNullable es)) :
          Run TypeExpr) s = (.ok e, s') → s = s' := fun hrun => (pure_eq_ok.1 hrun).2
      cases hx : es.at? (.text "items") with
      | none =>
        rw [hx] at hrun
        exact ⟨hany hrun ▸ hs, by simp⟩
      | some x =>
        rw [hx] at hrun
        cases x with
        | map b fs =>
          obtain ⟨item, s₁, hitem, hrun⟩ := bind_eq_ok.1 hrun
          obtain ⟨-, rfl⟩ := pure_eq_ok.1 hrun
          obtain ⟨hs₁, hsettles⟩ := h _ (Entries.mem_of_at? hx) hs hitem
          refine ⟨hs₁, fun x' r hx' hr => ?_⟩
          cases hx'
          exact hsettles r hr
        | _ =>
          refine ⟨hany hrun ▸ hs, fun x' r hx' hr => ?_⟩
          cases hx'
          obtain ⟨b, fs, heq⟩ := hr.isMap
          cases heq
    refine ⟨hs', fun r hr => ?_⟩
    cases hr with
    | reference hr => cases href.symm.trans hr
    | additional _ hk => cases hkind.symm.trans hk
    | item _ _ hx hr => exact hsettles _ r hx hr
  | any =>
    obtain ⟨trivially, _, htrivially, hrun⟩ := bind_eq_ok.1 hrun
    obtain ⟨-, rfl⟩ := lift_eq_ok.1 htrivially
    split at hrun
    · cases hrun
    · obtain ⟨-, rfl⟩ := pure_eq_ok.1 hrun
      exact ⟨hs, hnone nofun nofun⟩
  | _ => cases hrun

end

/-- A type expression has followed every reference that its schema mentions. -/
theorem reads_typeWith {follow : String → Run TypeExpr} (hf : ∀ r, Follows table (follow r) r) (t : Tree) :
    Reads table (typeWith follow t) t := by
  induction t using Tree.induct with
  | map a es ih =>
    intro s e s' hs hrun
    rw [typeWith_map] at hrun
    cases href : Reference.ofEntries? es with
    | none =>
      rw [href] at hrun
      exact reads_inlineSchema ih href hs hrun
    | some reference =>
      rw [href] at hrun
      obtain ⟨hs', hsettles⟩ := hf reference hs hrun
      refine ⟨hs', fun r hr => ?_⟩
      cases hr with
      | reference hr =>
        cases href.symm.trans hr
        exact hsettles
      | additional hnone | item hnone => cases href.symm.trans hnone
  | _ =>
    intro s e s' _ hrun
    cases hrun

/-! ## Records -/

section

variable {typeOf : Tree → Run TypeExpr} (htype : ∀ t, Reads table (typeOf t) t)
include htype

/-- Fields have followed every reference that their properties mention. -/
theorem reads_fieldsOf {required : List String} {exclude : Tree} :
    ∀ {taken : List String} {properties : List (Scalar × Tree)} {fields : List Field} {s s' : State},
      Acyclic table s → fieldsOf table typeOf required exclude taken properties s = (.ok fields, s') →
        Acyclic table s' ∧ ∀ key x r, (Scalar.text key, x) ∈ properties → .text key ≠ exclude →
          Mentions x r → Settles table r
  | taken, [], _, _, _, hs, h => by
    obtain ⟨-, rfl⟩ := pure_eq_ok.1 h
    exact ⟨hs, nofun⟩
  | taken, (key, schema) :: rest, fields, s, s', hs, h => by
    rw [fieldsOf.eq_def] at h
    dsimp only at h
    split at h
    · rename_i hexcluded
      obtain ⟨hs', hall⟩ := reads_fieldsOf hs h
      refine ⟨hs', fun key' x r hmem hexclude hr => ?_⟩
      rcases List.mem_cons.1 hmem with heq | hmem
      · cases heq
        exact absurd (beq_iff_eq.1 hexcluded) hexclude
      · exact hall key' x r hmem hexclude hr
    · cases key with
      | text wireName =>
        obtain ⟨type, s₁, htyped, h⟩ := bind_eq_ok.1 h
        obtain ⟨target, _, htarget, h⟩ := bind_eq_ok.1 h
        obtain ⟨-, rfl⟩ := lift_eq_ok.1 htarget
        split at h
        · cases h
        · obtain ⟨description, _, hdescription, h⟩ := bind_eq_ok.1 h
          obtain ⟨-, rfl⟩ := lift_eq_ok.1 hdescription
          obtain ⟨fields, _, hfields, h⟩ := bind_eq_ok.1 h
          obtain ⟨-, rfl⟩ := pure_eq_ok.1 h
          obtain ⟨hs₁, hsettles⟩ := htype _ hs htyped
          obtain ⟨hs', hall⟩ := reads_fieldsOf hs₁ hfields
          refine ⟨hs', fun key' x r hmem hexclude hr => ?_⟩
          rcases List.mem_cons.1 hmem with heq | hmem
          · cases heq
            exact hsettles r hr
          · exact hall key' x r hmem hexclude hr
      | _ => cases h

/-- A record has followed every reference that its object schemas contain. -/
theorem reads_body {owner : String} {objects : List Entries} {exclude : Tree} {b : Body}
    (hobjects : ∀ o ∈ objects, Tree.Keyed (.map none o)) (hs : Acyclic table s)
    (h : body table typeOf owner objects exclude s = (.ok b, s')) :
    Acyclic table s' ∧ ∀ o ∈ objects, ∀ r, Contains exclude o r → Settles table r := by
  obtain ⟨merged, _, h₁, h⟩ := bind_eq_ok.1 h
  obtain ⟨hmerged, rfl⟩ := lift_eq_ok.1 h₁
  obtain ⟨fields, s₁, hfields, h⟩ := bind_eq_ok.1 h
  obtain ⟨extra, s₂, hextra, h⟩ := bind_eq_ok.1 h
  obtain ⟨-, rfl⟩ := pure_eq_ok.1 h
  obtain ⟨hs₁, hproperties⟩ := reads_fieldsOf htype hs hfields
  obtain ⟨hs₂, hadditional⟩ := reads_additionalType (htype _) hs₁ hextra
  refine ⟨hs₂, fun o ho r hr => ?_⟩
  rcases Merged.covers_of_merge hmerged hobjects o ho exclude r hr with ⟨k, x, hx, hexclude, hr⟩ | hr
  · exact hproperties k x r (Entries.mem_of_at? hx) hexclude hr
  · exact hadditional r hr

/-! ## Unions -/

variable (ht : KeyedTable table)
include ht

omit htype in
theorem of_branchObjects {union branch : String} {schema : Tree} {objects : List Entries}
    (hschema : schema.Keyed) (hdirect : Reference.ofTree? schema = none)
    (h : branchObjects table union branch schema = .ok objects) :
    (∀ o ∈ objects, Tree.Keyed (.map none o)) ∧ ∀ o, Component table schema o → o ∈ objects := by
  obtain ⟨kind, hkind, h⟩ := ApiContract.bind_eq_ok.1 h
  unfold Schema.kindOf at hkind
  cases schema with
  | map a es =>
    replace hkind : Schema.kind es = .ok kind := hkind
    cases kind with
    | object =>
      cases h
      refine ⟨List.forall_mem_singleton.2 (keyed_map.2 (keyed_map.1 hschema)), fun o ho => ?_⟩
      cases ho with
      | object => exact List.mem_cons_self
      | part _ hk => cases hkind.symm.trans hk
      | reference href => cases hdirect.symm.trans href
    | allOf => exact ⟨keyed_leaves ht hschema h, fun o ho => ho.mem h⟩
    | _ => cases h
  | _ => cases hkind

/-- Variants have followed every reference that their branches contain. -/
theorem reads_variantsFrom {union : String} {exclude : Tree} :
    ∀ {taken : List String} {l : List (Option String × String × Tree)} {vs : List Variant}
      {s s' : State}, (∀ b ∈ l, b.2.2.Keyed ∧ Reference.ofTree? b.2.2 = none) → Acyclic table s →
        variantsFrom table typeOf union exclude taken l s = (.ok vs, s') →
          Acyclic table s' ∧ ∀ b ∈ l, ∀ o, Component table b.2.2 o → ∀ r, Contains exclude o r →
            Settles table r
  | _, [], _, _, _, _, hs, h => by
    obtain ⟨-, rfl⟩ := pure_eq_ok.1 h
    exact ⟨hs, nofun⟩
  | _, (tag, branch, schema) :: rest, _, _, _, hl, hs, h => by
    obtain ⟨⟨hschema, hdirect⟩, hrest⟩ := List.forall_mem_cons.1 hl
    obtain ⟨v, s₁, hv, h⟩ := bind_eq_ok.1 h
    obtain ⟨vs, _, hvs, h⟩ := bind_eq_ok.1 h
    obtain ⟨-, rfl⟩ := pure_eq_ok.1 h
    obtain ⟨objects, _, h₁, hv⟩ := bind_eq_ok.1 hv
    obtain ⟨hobjects, rfl⟩ := lift_eq_ok.1 h₁
    obtain ⟨b, _, hb, hv⟩ := bind_eq_ok.1 hv
    obtain ⟨description, _, hdescription, hv⟩ := bind_eq_ok.1 hv
    obtain ⟨-, rfl⟩ := lift_eq_ok.1 hdescription
    obtain ⟨-, rfl⟩ := pure_eq_ok.1 hv
    obtain ⟨hkeyed, hmem⟩ := of_branchObjects ht hschema hdirect hobjects
    obtain ⟨hs₁, hbody⟩ := reads_body htype hkeyed hs hb
    obtain ⟨hs', hall⟩ := reads_variantsFrom hrest hs₁ hvs
    refine ⟨hs', List.forall_mem_cons.2 ⟨fun o ho r hr => ?_, hall⟩⟩
    exact hbody o (hmem o ho) r hr

omit htype ht in
/-- The branches of a union are the entries that its parts refer to, each once. -/
theorem of_branchesFrom {union : String} : ∀ {ts : List Tree} {done bs : List (String × Tree)},
    branchesFrom table union done ts = .ok bs → (∀ b ∈ done, IsEntry table b.1 b.2) →
      (done.map (·.1)).Nodup →
        (∀ b ∈ bs, IsEntry table b.1 b.2) ∧ (bs.map (·.1)).Nodup ∧ (∀ b ∈ done, b ∈ bs) ∧
          ∀ t ∈ ts, ∀ r n schema, Reference.ofTree? t = some r → Names table r n schema →
            (n, schema) ∈ bs
  | [], done, bs, h, hdone, hnodup => by
    cases h
    exact ⟨hdone, hnodup, fun _ hb => hb, nofun⟩
  | t :: ts, done, bs, h, hdone, hnodup => by
    unfold branchesFrom at h
    cases href : Reference.ofTree? t with
    | none =>
      rw [href] at h
      cases h
    | some reference =>
      rw [href] at h
      obtain ⟨found, hfind, h⟩ := ApiContract.bind_eq_ok.1 h
      have hadd : ∃ next, branchesFrom table union next ts = .ok bs ∧
          (∀ b ∈ next, IsEntry table b.1 b.2) ∧ (next.map (·.1)).Nodup ∧ (∀ b ∈ done, b ∈ next) ∧
            (found.name, found.schema) ∈ next := by
        refine ⟨_, h, ?_⟩
        split
        · rename_i hany
          refine ⟨hdone, hnodup, fun _ hb => hb, ?_⟩
          obtain ⟨b, hb, hname⟩ := List.any_eq_true.1 hany
          have hname : b.1 = found.name := beq_iff_eq.1 hname
          have hschema := (hdone b hb).found
          rw [hname, found.found] at hschema
          cases b
          cases hname
          cases hschema
          exact hb
        · rename_i hany
          refine ⟨List.forall_mem_append.2 ⟨hdone, List.forall_mem_singleton.2 (Found.isEntry hfind)⟩, ?_,
            fun _ hb => List.mem_append_left _ hb, List.mem_append_right _ List.mem_cons_self⟩
          rw [List.map_append, List.map_singleton]
          refine hnodup.append (List.nodup_singleton _) (List.disjoint_singleton.2 fun hmem => ?_)
          obtain ⟨b, hb, hname⟩ := List.mem_map.1 hmem
          exact hany (List.any_eq_true.2 ⟨b, hb, beq_iff_eq.2 hname⟩)
      obtain ⟨next, h, hnext, hnodup', hsub, hmem⟩ := hadd
      obtain ⟨hentries, hdistinct, hsub', hall⟩ := of_branchesFrom h hnext hnodup'
      refine ⟨hentries, hdistinct, fun b hb => hsub' b (hsub b hb), fun t' ht' r n schema hr hnames => ?_⟩
      rcases List.mem_cons.1 ht' with rfl | ht'
      · cases href.symm.trans hr
        obtain ⟨rfl, rfl⟩ := hnames.eq hfind
        exact hsub' _ hmem
      · exact hall t' ht' r n schema hr hnames

/-- What the branches of a union contain, but for the property that tells them apart, leads on to no end. -/
def SettlesBranches (table : Entries) (exclude : Tree) (union : Entries) : Prop :=
  ∀ b ts t r' name branch o r, union.get? "oneOf" = some (.list b ts) → t ∈ ts →
    Reference.ofTree? t = some r' → Names table r' name branch → Component table branch o →
      Contains exclude o r → Settles table r

omit htype ht in
theorem partsOf_list {es : Entries} {key : String} {a : Anchor} {ts : List Tree}
    (h : es.get? key = some (.list a ts)) : partsOf es key = .ok ts := by
  unfold partsOf Entries.orNull
  rw [h]
  cases ts <;> rfl

omit htype ht in
theorem of_branches {union : String} {schema : Entries} {bs : List (String × Tree)}
    (h : branches table union schema = .ok bs) :
    (∀ b ∈ bs, IsEntry table b.1 b.2) ∧ (bs.map (·.1)).Nodup ∧
      ∀ a ts t r n branch, schema.get? "oneOf" = some (.list a ts) → t ∈ ts →
        Reference.ofTree? t = some r → Names table r n branch → (n, branch) ∈ bs := by
  obtain ⟨parts, hparts, h⟩ := ApiContract.bind_eq_ok.1 h
  obtain ⟨hentries, hnodup, -, hall⟩ := of_branchesFrom h nofun List.nodup_nil
  refine ⟨hentries, hnodup, fun a ts t r n branch hget htmem hr hnames => ?_⟩
  cases hparts.symm.trans (partsOf_list hget)
  exact hall t htmem r n branch hr hnames

omit htype in
theorem keyed_of_isEntry {n : String} {schema : Tree} (h : IsEntry table n schema) : schema.Keyed :=
  ht _ (Entries.mem_of_at? h.found)

/-- Variants that stand for all branches have followed what the branches contain. -/
theorem reads_branches {union : String} {schema : Entries} {exclude : Tree}
    {bs : List (String × Tree)} {l : List (Option String × String × Tree)} {vs : List Variant}
    (hbs : branches table union schema = .ok bs) (hl : ∀ b ∈ l, ∃ n, (n, b.2.2) ∈ bs)
    (hall : ∀ b ∈ bs, ∃ tag, (tag, b.1, b.2) ∈ l) (hs : Acyclic table s)
    (h : variantsFrom table typeOf union exclude [] l s = (.ok vs, s')) :
    Acyclic table s' ∧ SettlesBranches table exclude schema := by
  obtain ⟨hentries, -, hbranches⟩ := of_branches hbs
  have hschemas : ∀ b ∈ l, b.2.2.Keyed ∧ Reference.ofTree? b.2.2 = none := by
    intro b hb
    obtain ⟨n, hmem⟩ := hl b hb
    have hentry : IsEntry table n b.2.2 := hentries _ hmem
    exact ⟨keyed_of_isEntry ht hentry, hentry.direct⟩
  obtain ⟨hs', hvariants⟩ := reads_variantsFrom htype ht hschemas hs h
  refine ⟨hs', fun a ts t r' n branch o r hget htmem hr' hnames ho hr => ?_⟩
  obtain ⟨tag, hmem⟩ := hall _ (hbranches a ts t r' n branch hget htmem hr' hnames)
  exact hvariants _ hmem o ho r hr

omit htype ht in
/-- Every branch has a tag, and every tag is one of a branch. -/
theorem mem_tagBranches {mapped : List (String × String)} {bs : List (String × Tree)}
    {b : String × Tree} (hb : b ∈ bs) : ∃ tag, (tag, b.1) ∈ tagBranches mapped bs := by
  unfold tagBranches
  by_cases hmapped : mapped.any (·.2 == b.1) = true
  · obtain ⟨m, hm, hname⟩ := List.any_eq_true.1 hmapped
    have hname : m.2 = b.1 := beq_iff_eq.1 hname
    exact ⟨m.1, List.mem_append_left _ (hname ▸ hm)⟩
  · refine ⟨b.1, List.mem_append_right _ (List.mem_map.2 ⟨b, List.mem_filter.2 ⟨hb, ?_⟩, rfl⟩)⟩
    rw [Bool.not_eq_true] at hmapped
    rw [hmapped]
    rfl

omit htype ht in
/-- A tag that a mapping gives is one of a branch. -/
theorem mem_of_mappedTags {union : String} {bs : List (String × Tree)} {mapping : Entries}
    {mapped : List (String × String)} (h : mappedTags union bs mapping = .ok mapped) :
    ∀ m ∈ mapped, m.2 ∈ bs.map (·.1) := by
  intro m hm
  obtain ⟨⟨tag, target⟩, -, h⟩ := mem_of_mapM h hm
  obtain ⟨name, -, h⟩ := ApiContract.bind_eq_ok.1 h
  split at h
  · rename_i hany
    cases h
    obtain ⟨b, hb, hname⟩ := List.any_eq_true.1 hany
    exact List.mem_map.2 ⟨b, hb, beq_iff_eq.1 hname⟩
  · cases h

omit htype ht in
theorem mem_of_mem_tagBranches {mapped : List (String × String)} {bs : List (String × Tree)}
    (hmapped : ∀ m ∈ mapped, m.2 ∈ bs.map (·.1)) : ∀ m ∈ tagBranches mapped bs, m.2 ∈ bs.map (·.1) := by
  refine List.forall_mem_append.2 ⟨hmapped, List.forall_mem_map.2 fun b hb => ?_⟩
  exact List.mem_map_of_mem (List.mem_of_mem_filter hb)

theorem reads_untaggedUnion {name schemaName : String} {schema : Entries} {t : NamedType}
    (hs : Acyclic table s) (h : untaggedUnion table typeOf name schemaName schema s = (.ok t, s')) :
    Acyclic table s' ∧ SettlesBranches table .null schema := by
  obtain ⟨bs, _, h₁, h⟩ := bind_eq_ok.1 h
  obtain ⟨hbs, rfl⟩ := lift_eq_ok.1 h₁
  obtain ⟨variants, s₁, hvariants, h⟩ := bind_eq_ok.1 h
  obtain ⟨_, s₂, hnotices, h⟩ := bind_eq_ok.1 h
  obtain ⟨description, _, hdescription, h⟩ := bind_eq_ok.1 h
  obtain ⟨-, rfl⟩ := lift_eq_ok.1 hdescription
  obtain ⟨-, rfl⟩ := pure_eq_ok.1 h
  have hl : ∀ b ∈ bs.map fun b => ((none : Option String), b.1, b.2), ∃ n, (n, b.2.2) ∈ bs :=
    List.forall_mem_map.2 fun b hb => ⟨b.1, hb⟩
  obtain ⟨hs₁, hbranches⟩ := reads_branches htype ht hbs hl
    (fun b hb => ⟨none, List.mem_map_of_mem hb⟩) hs hvariants
  cases hnotices
  exact ⟨⟨hs₁.types, hs₁.inlines⟩, hbranches⟩

theorem reads_taggedUnion {name schemaName : String} {schema discriminator : Entries} {t : NamedType}
    (hs : Acyclic table s)
    (h : taggedUnion table typeOf name schemaName schema discriminator s = (.ok t, s')) :
    Acyclic table s' ∧ SettlesBranches table (discriminator.orNull "propertyName") schema := by
  obtain ⟨_, _, variants, bs, mapping, mapped, -, hbs, -, hmapped, hvariants, rfl⟩ := taggedUnion_eq_ok h
  obtain ⟨-, hnodup, -⟩ := of_branches hbs
  refine reads_branches htype ht hbs ?_ (fun b hb => ?_) hs hvariants
  · refine List.forall_mem_map.2 fun m hm => ?_
    obtain ⟨b, hb, hname⟩ := List.mem_map.1 (mem_of_mem_tagBranches (mem_of_mappedTags hmapped) m hm)
    refine ⟨b.1, ?_⟩
    rw [← hname, lookup_of_mem hnodup hb]
    exact hb
  · obtain ⟨tag, htag⟩ := mem_tagBranches hb
    refine ⟨some tag, List.mem_map.2 ⟨_, htag, ?_⟩⟩
    rw [lookup_of_mem hnodup hb]
    rfl

end

/-! ## Named types -/

/-- What a schema refers to where it is an array or a map is read only where it is referred to itself. -/
def ReadAlone (schema : Tree) : Prop :=
  ∀ (a : Anchor) (es : Entries), schema = .map a es → Schema.kind es ≠ .ok .array ∧
    (Schema.kind es = .ok .object → (es.orNull "properties").truthy = true)

section

variable {a : Anchor} {es : Entries} {r : String} (href : Reference.ofEntries? es = none)
include href

theorem Refers.object (hkind : Schema.kind es = .ok .object) (h : Refers table (.map a es) r) :
    Contains .null es r := by
  cases h with
  | mention h =>
    cases h with
    | reference h => cases href.symm.trans h
    | additional _ _ hx h => exact .additional hx h
    | item _ harray => cases hkind.symm.trans harray
  | content hcomponent h =>
    cases hcomponent with
    | object => exact h
    | part _ hallOf => cases hkind.symm.trans hallOf
    | reference h => cases href.symm.trans h
  | component h =>
    cases h with
    | reference _ hallOf | part _ hallOf => cases hkind.symm.trans hallOf
  | branch heq _ honeOf =>
    cases heq
    cases hkind.symm.trans honeOf

theorem Refers.array (hkind : Schema.kind es = .ok .array) (h : Refers table (.map a es) r) :
    Mentions (.map a es) r := by
  cases h with
  | mention h => exact h
  | content hcomponent h =>
    cases hcomponent with
    | object _ hobject => cases hkind.symm.trans hobject
    | part _ hallOf => cases hkind.symm.trans hallOf
    | reference h => cases href.symm.trans h
  | component h =>
    cases h with
    | reference _ hallOf | part _ hallOf => cases hkind.symm.trans hallOf
  | branch heq _ honeOf =>
    cases heq
    cases hkind.symm.trans honeOf

theorem Refers.allOf (hkind : Schema.kind es = .ok .allOf) (h : Refers table (.map a es) r) :
    Composes (.map a es) r ∨ ∃ o, Component table (.map a es) o ∧ Contains .null o r := by
  cases h with
  | mention h =>
    cases h with
    | reference h => cases href.symm.trans h
    | additional _ hobject => cases hkind.symm.trans hobject
    | item _ harray => cases hkind.symm.trans harray
  | content hcomponent h => exact .inr ⟨_, hcomponent, h⟩
  | component h => exact .inl h
  | branch heq _ honeOf =>
    cases heq
    cases hkind.symm.trans honeOf

theorem Refers.oneOf (hkind : Schema.kind es = .ok .oneOf) (h : Refers table (.map a es) r)
    (hbranches : SettlesBranches table (tagOf es) es) : Settles table r := by
  cases h with
  | mention h =>
    cases h with
    | reference h => cases href.symm.trans h
    | additional _ hobject => cases hkind.symm.trans hobject
    | item _ harray => cases hkind.symm.trans harray
  | content hcomponent h =>
    cases hcomponent with
    | object _ hobject => cases hkind.symm.trans hobject
    | part _ hallOf => cases hkind.symm.trans hallOf
    | reference h => cases href.symm.trans h
  | component h =>
    cases h with
    | reference _ hallOf | part _ hallOf => cases hkind.symm.trans hallOf
  | branch heq _ _ hget ht href' hnames hcomponent h =>
    cases heq
    exact hbranches _ _ _ _ _ _ _ _ hget ht href' hnames hcomponent h

/-- A schema of any other kind refers to nothing. -/
theorem not_refers {kind : SchemaKind} (hkind : Schema.kind es = .ok kind) (hobject : kind ≠ .object)
    (harray : kind ≠ .array) (hallOf : kind ≠ .allOf) (honeOf : kind ≠ .oneOf) :
    ¬ Refers table (.map a es) r := by
  have hne : ∀ {k}, kind ≠ k → Schema.kind es ≠ .ok k :=
    fun hk heq => hk (Except.ok.inj (hkind.symm.trans heq))
  intro h
  cases h with
  | mention h =>
    cases h with
    | reference h => cases href.symm.trans h
    | additional _ h => exact hne hobject h
    | item _ h => exact hne harray h
  | content hcomponent =>
    cases hcomponent with
    | object _ h => exact hne hobject h
    | part _ h => exact hne hallOf h
    | reference h => cases href.symm.trans h
  | component h =>
    cases h with
    | reference _ h | part _ h => exact hne hallOf h
  | branch heq _ h =>
    cases heq
    exact hne honeOf h

end

/-- An object schema without properties contains what it mentions. -/
theorem Contains.mentions {a : Anchor} {es : Entries} {r : String} (h : Contains .null es r)
    (href : Reference.ofEntries? es = none) (hkind : Schema.kind es = .ok .object)
    (hproperties : (es.orNull "properties").truthy = false) : Mentions (.map a es) r := by
  cases h with
  | @property _ properties _ _ hget hmem =>
    unfold Entries.orNull at hproperties
    rw [hget] at hproperties
    cases properties with
    | nil => cases hmem
    | cons => cases hproperties
  | additional hget h => exact .additional href hkind hget h

section

variable {typeOf : Tree → Run TypeExpr} (htype : ∀ t, Reads table (typeOf t) t)
include htype

theorem reads_record {name schemaName : String} {schema : Entries} {objects : List Entries} {t : NamedType}
    (hobjects : ∀ o ∈ objects, Tree.Keyed (.map none o)) (hs : Acyclic table s)
    (h : record table typeOf name schemaName schema objects s = (.ok t, s')) :
    Acyclic table s' ∧ ∀ o ∈ objects, ∀ r, Contains .null o r → Settles table r := by
  obtain ⟨b, s₁, hb, h⟩ := bind_eq_ok.1 h
  obtain ⟨description, _, hdescription, h⟩ := bind_eq_ok.1 h
  obtain ⟨-, rfl⟩ := lift_eq_ok.1 hdescription
  obtain ⟨-, rfl⟩ := pure_eq_ok.1 h
  exact reads_body htype hobjects hs hb

/-- A named type has followed every reference of its schema. Without one only an array or a map refers to
anything, and mentions it. -/
theorem refers_of_schemaType (ht : KeyedTable table) {name schemaName : String} {schema : Tree}
    {o : Option NamedType} (hschema : schema.Keyed) (hdirect : Reference.ofTree? schema = none)
    (hs : Acyclic table s) (h : schemaType table typeOf name schemaName schema s = (.ok o, s')) :
    Acyclic table s' ∧ ((∀ r, Refers table schema r → Settles table r) ∨
      (o = none ∧ ¬ ReadAlone schema ∧ ∀ r, Refers table schema r → Mentions schema r)) := by
  unfold schemaType at h
  cases schema with
  | map a es =>
    have href : Reference.ofEntries? es = none := hdirect
    obtain ⟨kind, _, hlift, h⟩ := bind_eq_ok.1 h
    obtain ⟨hkind, rfl⟩ := lift_eq_ok.1 hlift
    -- The named type is the one of the step that makes it.
    have hsome : ∀ {m : Run NamedType}, (some <$> m) s = (.ok o, s') → ∃ t, m s = (.ok t, s') := by
      intro m h
      rw [map_eq_pure_bind] at h
      obtain ⟨t, s₁, ht, h⟩ := bind_eq_ok.1 h
      obtain ⟨-, rfl⟩ := pure_eq_ok.1 h
      exact ⟨t, ht⟩
    have hother : kind ≠ .object → kind ≠ .array → kind ≠ .allOf → kind ≠ .oneOf →
        ∀ r, Refers table (.map a es) r → Settles table r :=
      fun h₁ h₂ h₃ h₄ r hr => absurd hr (not_refers href hkind h₁ h₂ h₃ h₄)
    cases kind with
    | object =>
      dsimp only at h
      split at h
      · rename_i hproperties
        rw [Bool.not_eq_true'] at hproperties
        obtain ⟨rfl, rfl⟩ := pure_eq_ok.1 h
        refine ⟨hs, .inr ⟨rfl, fun halone => ?_, fun r hr => ?_⟩⟩
        · exact Bool.false_ne_true (hproperties.symm.trans ((halone a es rfl).2 hkind))
        · exact (hr.object href hkind).mentions href hkind hproperties
      · obtain ⟨t, ht⟩ := hsome h
        obtain ⟨hs', hall⟩ := reads_record htype
          (List.forall_mem_singleton.2 (keyed_map.2 (keyed_map.1 hschema))) hs ht
        exact ⟨hs', .inl fun r hr => hall es List.mem_cons_self r (hr.object href hkind)⟩
    | array =>
      obtain ⟨rfl, rfl⟩ := pure_eq_ok.1 h
      exact ⟨hs, .inr ⟨rfl, fun halone => (halone a es rfl).1 hkind, fun r hr => hr.array href hkind⟩⟩
    | oneOf =>
      have hbranches : Acyclic table s' ∧ SettlesBranches table (tagOf es) es := by
        have huntagged : (some <$> untaggedUnion table typeOf name schemaName es) s = (.ok o, s') →
            Acyclic table s' ∧ SettlesBranches table .null es := fun h => by
          obtain ⟨t, h⟩ := hsome h
          exact reads_untaggedUnion htype ht hs h
        unfold tagOf
        dsimp only at h
        cases hdiscriminator : Entries.get? es "discriminator" with
        | none =>
          rw [hdiscriminator] at h
          exact huntagged h
        | some x =>
          rw [hdiscriminator] at h
          cases x with
          | map b discriminator =>
            obtain ⟨t, h⟩ := hsome h
            exact reads_taggedUnion htype ht hs h
          | _ => exact huntagged h
      exact ⟨hbranches.1, .inl fun r hr => hr.oneOf href hkind hbranches.2⟩
    | allOf =>
      obtain ⟨objects, _, hlift, h⟩ := bind_eq_ok.1 h
      obtain ⟨hleaves, rfl⟩ := lift_eq_ok.1 hlift
      rw [besideReference_of_direct hdirect] at hleaves
      obtain ⟨t, h⟩ := hsome h
      obtain ⟨hs', hall⟩ := reads_record htype (keyed_leaves ht hschema hleaves) hs h
      refine ⟨hs', .inl fun r hr => ?_⟩
      rcases hr.allOf href hkind with hcomposes | ⟨object, hcomponent, hcontains⟩
      · obtain ⟨part, hpart, hsub⟩ := hcomposes.followed hleaves
        exact settles_of_leavesOf [] r hpart fun object hobject => hall object (hsub object hobject)
      · exact hall object (hcomponent.mem hleaves) r hcontains
    | anyOf | not => cases h
    | any =>
      obtain ⟨trivially, _, htrivially, h⟩ := bind_eq_ok.1 h
      obtain ⟨-, rfl⟩ := lift_eq_ok.1 htrivially
      split at h
      · cases h
      · obtain ⟨rfl, rfl⟩ := pure_eq_ok.1 h
        exact ⟨hs, .inl (hother nofun nofun nofun nofun)⟩
    | string | number | integer | boolean =>
      obtain ⟨-, rfl⟩ := lift_eq_ok.1 h
      exact ⟨hs, .inl (hother nofun nofun nofun nofun)⟩
  | _ => cases h

end

end ApiContract.Compile
