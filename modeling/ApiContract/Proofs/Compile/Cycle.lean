import ApiContract.Proofs.Compile.Grounded
import ApiContract.Proofs.Compile.Session

/-!
# Cycles are refused

A run of the compiler that ends well has shown of every entry that it has compiled that no endless way leads
on from it (`grounds_named`, `follows_typeOfReference`). So a table does not compile if an entry that is
compiled for itself leads to a cycle (`all_refuses_cycles`); and compiling any table ends, since a session that
follows references only to a depth gives the same.
-/

namespace ApiContract.Compile

open Tree

variable {table : Entries} {s s' : State}

/-! ## Named types -/

theorem acyclic_claim {name n : String} {u : Unit} (hs : Acyclic table s)
    (h : claim name n s = (.ok u, s')) :
    Acyclic table s' ∧ s'.owners.lookup name = some n ∧ s'.types = s.types := by
  rw [claim_eq] at h
  cases howner : s.owners.lookup name with
  | none =>
    rw [howner] at h
    cases h
    refine ⟨⟨fun t ht => ?_, hs.inlines⟩, ?_, rfl⟩
    · obtain ⟨m, hm, hgrounded⟩ := hs.types t ht
      refine ⟨m, ?_, hgrounded⟩
      rw [List.lookup_append, hm]
      rfl
    · rw [List.lookup_append, howner, Option.none_or, List.lookup_cons_self]
  | some owner =>
    rw [howner] at h
    dsimp only at h
    split at h
    · cases h
    · rename_i howns
      cases h
      exact ⟨hs, not_not.1 howns ▸ howner, rfl⟩

/-- What a compiled schema refers to has been followed, unless it is an array or a map. -/
def Grounds (table : Entries) (n : String) (schema : Tree) (o : Option NamedType) : Prop :=
  Grounded table n ∨
    (o = none ∧ ¬ ReadAlone schema ∧ ∀ r, Refers table schema r → Mentions schema r)

theorem Grounds.grounded {n : String} {schema : Tree} {o : Option NamedType}
    (h : Grounds table n schema o) (halone : ReadAlone schema) : Grounded table n := by
  rcases h with h | ⟨-, hnot, -⟩
  · exact h
  · exact absurd halone hnot

section

variable (ht : KeyedTable table)
include ht

/-- Compiling the schema of a name has followed what the schema refers to, unless it is an array or a map. -/
theorem grounds_named {n : String} {schema : Tree} {o : Option NamedType} {path : List String}
    {follow : Text.typeIdentifier n ∉ path → String → Run TypeExpr}
    (hf : ∀ h r, Follows table (follow h r) r) (hentry : IsEntry table n schema) (hs : Acyclic table s)
    (h : named table path n schema follow s = (.ok o, s')) :
    Acyclic table s' ∧ Grounds table n schema o := by
  unfold named at h
  rw [bind_eq, get_eq] at h
  dsimp only at h
  cases hfind : s.types.find? (·.name == Text.typeIdentifier n) with
  | some t =>
    rw [hfind] at h
    obtain ⟨_, s₁, hclaim, h⟩ := bind_eq_ok.1 h
    obtain ⟨-, rfl⟩ := pure_eq_ok.1 h
    obtain ⟨hs₁, howner, htypes⟩ := acyclic_claim hs hclaim
    -- The type belongs to the entry that owns its name, and that is this one.
    have hname : t.name = Text.typeIdentifier n := by simpa using List.find?_some hfind
    obtain ⟨m, hm, hgrounded⟩ := hs₁.types t (htypes ▸ List.mem_of_find?_eq_some hfind)
    rw [hname, howner] at hm
    cases hm
    exact ⟨hs₁, .inl hgrounded⟩
  | none =>
    rw [hfind] at h
    dsimp only at h
    split at h
    · rename_i hinline
      obtain ⟨-, rfl⟩ := pure_eq_ok.1 h
      obtain ⟨e, he⟩ := Option.isSome_iff_exists.1 hinline
      exact ⟨hs, .inl (hs.inlines _ (mem_of_lookup he))⟩
    · split at h
      · cases h
      · rename_i hpath
        obtain ⟨made, s₁, hmade, h⟩ := bind_eq_ok.1 h
        obtain ⟨hs₁, hrefers⟩ := refers_of_schemaType (reads_typeWith (hf hpath)) ht
          (keyed_of_isEntry ht hentry) hentry.direct hs hmade
        cases made with
        | none =>
          obtain ⟨rfl, rfl⟩ := pure_eq_ok.1 h
          refine ⟨hs₁, ?_⟩
          rcases hrefers with hall | hmentions
          · exact .inl (grounded_of_refers hentry.found hall)
          · exact .inr hmentions
        | some t =>
          have hgrounded : Grounded table n := by
            rcases hrefers with hall | ⟨hnone, -⟩
            · exact grounded_of_refers hentry.found hall
            · cases hnone
          obtain ⟨_, s₂, hclaim, h⟩ := bind_eq_ok.1 h
          obtain ⟨_, s₃, hmodify, h⟩ := bind_eq_ok.1 h
          obtain ⟨rfl, rfl⟩ := pure_eq_ok.1 h
          cases hmodify
          obtain ⟨hs₂, howner, -⟩ := acyclic_claim hs₁ hclaim
          refine ⟨⟨List.forall_mem_append.2 ⟨hs₂.types, ?_⟩, hs₂.inlines⟩, .inl hgrounded⟩
          rw [List.forall_mem_singleton, name_of_schemaType hmade]
          exact ⟨n, howner, hgrounded⟩

/-! ## References -/

/-- A reference that is followed leads nowhere without end. -/
theorem follows_typeOfReference (path : Path) (reference : String) :
    Follows table (typeOfReference table path reference) reference := by
  intro s e s' hs h
  rw [typeOfReference] at h
  obtain ⟨found, _, hlift, h⟩ := bind_eq_ok.1 h
  obtain ⟨hfind, rfl⟩ := lift_eq_ok.1 hlift
  obtain ⟨type, s₁, hnamed, h⟩ := bind_eq_ok.1 h
  obtain ⟨hs₁, hgrounds⟩ := grounds_named ht (fun _ r => follows_typeOfReference
    ⟨path.types ++ [Text.typeIdentifier found.name], path.inlines⟩ r) (Found.isEntry hfind) hs hnamed
  have hsettles : Grounded table found.name → Settles table reference :=
    fun hgrounded => ⟨found.name, (names_of_find hfind).1, hgrounded⟩
  cases type with
  | some t =>
    obtain ⟨-, rfl⟩ := pure_eq_ok.1 h
    refine ⟨hs₁, hsettles ?_⟩
    rcases hgrounds with hgrounded | ⟨hnone, -⟩
    · exact hgrounded
    · cases hnone
  | none =>
    rw [if_neg (by simp), bind_eq, get_eq] at h
    dsimp only at h
    cases hlookup : s₁.inlines.lookup found.name with
    | some e' =>
      rw [hlookup] at h
      obtain ⟨-, rfl⟩ := pure_eq_ok.1 h
      exact ⟨hs₁, hsettles (hs₁.inlines _ (mem_of_lookup hlookup))⟩
    | none =>
      rw [hlookup] at h
      dsimp only at h
      split at h
      · cases h
      · rename_i hpath
        obtain ⟨e', s₂, htype, h⟩ := bind_eq_ok.1 h
        obtain ⟨_, s₃, hmodify, h⟩ := bind_eq_ok.1 h
        obtain ⟨-, rfl⟩ := pure_eq_ok.1 h
        cases hmodify
        obtain ⟨hs₂, hmentions⟩ := reads_typeWith (fun r => follows_typeOfReference
          ⟨path.types, path.inlines ++ [found.name]⟩ r) found.schema hs₁ htype
        have hgrounded : Grounded table found.name := by
          rcases hgrounds with hgrounded | ⟨-, -, hrefers⟩
          · exact hgrounded
          · exact grounded_of_refers found.found fun r hr => hmentions r (hrefers r hr)
        refine ⟨⟨hs₂.types, List.forall_mem_append.2 ⟨hs₂.inlines, ?_⟩⟩, hsettles hgrounded⟩
        rwa [List.forall_mem_singleton]
termination_by path.rest table
decreasing_by
  · exact found.rest_type_lt ‹_›
  · exact found.rest_inline_lt ‹_›

end

/-! ## The table -/

theorem keyedTable_of_keyed {a : Anchor} (h : Tree.Keyed (.map a table)) : KeyedTable table :=
  (keyed_map.1 h).2

theorem get?_of_keyed {a : Anchor} (h : Tree.Keyed (.map a table)) {n : String} {schema : Tree}
    (hmem : (Scalar.text n, schema) ∈ table) : table.get? n = some schema := by
  have hfind := findSame?_of_mem (keyed_map.1 h).1 hmem (Scalar.same_text.2 rfl)
  rw [Entries.get?_eq_at?, ← findSame?_text]
  exact hfind

theorem grounds_entries {a : Anchor} (hkeys : Tree.Keyed (.map a table)) :
    ∀ {es : Entries} {u : Unit} {s s' : State}, (∀ e ∈ es, e ∈ table) → Acyclic table s →
      entries table es s = (.ok u, s') →
        ∀ n schema, (Scalar.text n, schema) ∈ es → Reference.ofTree? schema = none → ReadAlone schema →
          Grounded table n
  | [], _, _, _, _, _, _ => nofun
  | (key, schema) :: es, u, s, s', hes, hs, h => by
    obtain ⟨hmem, hrest⟩ := List.forall_mem_cons.1 hes
    rw [entries.eq_def] at h
    dsimp only at h
    intro n schema' hn hdirect halone
    split at h
    · rename_i hreference
      cases key with
      | text name =>
        obtain ⟨o, s₁, ho, h⟩ := bind_eq_ok.1 h
        have hdirect' : Reference.ofTree? schema = none := by
          simpa [Reference.isReference] using hreference
        obtain ⟨hs₁, hgrounds⟩ := grounds_named (keyedTable_of_keyed hkeys)
          (fun _ r => follows_typeOfReference (keyedTable_of_keyed hkeys) _ r)
          ⟨get?_of_keyed hkeys hmem, hdirect'⟩ hs ho
        rcases List.mem_cons.1 hn with heq | hn
        · cases heq
          exact hgrounds.grounded halone
        · exact grounds_entries hkeys hrest hs₁ h n schema' hn hdirect halone
      | _ => cases h
    · rename_i hreference
      rcases List.mem_cons.1 hn with heq | hn
      · cases heq
        simp [Reference.isReference, hdirect] at hreference
      · exact grounds_entries hkeys hrest hs h n schema' hn hdirect halone

theorem mem_of_get? {n : String} {schema : Tree} (h : table.get? n = some schema) :
    (Scalar.text n, schema) ∈ table :=
  Entries.mem_of_at? (by rwa [← Entries.get?_eq_at?])

/-- If a table compiles, no endless way leads on from an entry that is compiled for itself. -/
theorem grounded_of_all {a : Anchor} (hkeys : Tree.Keyed (.map a table)) {types : List NamedType}
    (h : all table .start = (.ok types, s)) {n : String} {schema : Tree} (hentry : IsEntry table n schema)
    (halone : ReadAlone schema) : Grounded table n := by
  obtain ⟨u, s₁, hentries, -⟩ := bind_eq_ok.1 h
  exact grounds_entries hkeys (fun _ he => he) (acyclic_start table) hentries n schema
    (mem_of_get? hentry.found) hentry.direct halone

/-- The object schemas behind a reference in a composition, with references followed to a depth. -/
def leavesWithin (table : Entries) (owner : String) (cut : Except Failure (List Entries)) :
    Nat → List String → String → Except Failure (List Entries)
  | 0, _, _ => cut
  | depth + 1, path, reference =>
    match find table reference with
    | .error f => .error f
    | .ok found =>
      if found.name ∈ path then .error (.dependencyCycle (owner :: path ++ [found.name]))
      else leavesWith (leavesWithin table owner cut depth (path ++ [found.name])) owner found.schema

/-- To a depth above the number of names that have not been met, compositions are followed to their end. -/
theorem leavesWithin_eq {owner : String} {cut : Except Failure (List Entries)} {depth : Nat}
    {path : List String} (hdepth : unvisited (names table) path < depth) (reference : String) :
    leavesWithin table owner cut depth path reference = leavesOf table owner path reference := by
  induction depth generalizing path reference with
  | zero => omega
  | succ depth ih =>
    rw [leavesOf, leavesWithin]
    cases find table reference with
    | error f => rfl
    | ok found =>
      dsimp only
      split
      · rfl
      · rename_i hpath
        have hless := unvisited_append_lt (mem_names found.found) hpath
        have hsame : leavesWithin table owner cut depth (path ++ [found.name]) =
            leavesOf table owner (path ++ [found.name]) := funext fun r => ih (by omega) r
        rw [hsame]

/-- Compiling a table ends: neither references nor compositions are ever followed deeper than there are names,
twice over, so that it does not matter what would be done there. And a table does not compile if an entry that
is compiled for itself, no array and no map, leads to a cycle. -/
theorem all_refuses_cycles {a : Anchor} (hkeys : Tree.Keyed (.map a table)) :
    (∀ (cut : RunOn Session TypeExpr) (depth : Nat), 2 * (names table).length < depth →
      Session.all table (Session.typeOfReference table cut depth) .start =
        ((all table .start).1, ⟨(all table .start).2, ⟨[], []⟩⟩)) ∧
    (∀ (cut : Except Failure (List Entries)) (depth : Nat), (names table).length < depth →
      ∀ owner schema, leavesWith (leavesWithin table owner cut depth []) owner schema =
        leaves table owner schema) ∧
    ∀ n schema m, IsEntry table n schema → ReadAlone schema →
      Relation.ReflTransGen (Edge table) n m → Relation.TransGen (Edge table) m m →
        ∃ f, (all table .start).1 = .error f := by
  refine ⟨fun cut depth hdepth => mirrors_all hdepth .start, fun cut depth hdepth owner schema => ?_,
    fun n schema m hentry halone hreach hcycle => ?_⟩
  · have hle : unvisited (names table) [] ≤ (names table).length := List.countP_le_length
    exact congrArg (leavesWith · owner schema) (funext fun r => leavesWithin_eq (hle.trans_lt hdepth) r)
  · rcases hall : all table .start with ⟨f | types, s⟩
    · exact ⟨f, rfl⟩
    · have hgrounded := (grounded_of_all hkeys hall hentry halone).of_reflTransGen hreach
      exact absurd hcycle hgrounded.not_transGen

/-- A composition that leads to a circle: a record, and a list of that record that the record mentions. -/
def sampleCircle : Entries := [
  (.text "Home", Tree.object [("allOf", Tree.array [Reference.asTree "#/components/schemas/Owner"])]),
  (.text "Owner", Tree.object [
    ("type", .text "object"),
    ("properties", Tree.object [("pets", Reference.asTree "#/components/schemas/Pets")])]),
  (.text "Pets", Tree.object [
    ("type", .text "array"),
    ("items", Reference.asTree "#/components/schemas/Owner")])]

theorem all_refuses_sampleCircle : ∃ f, (all sampleCircle .start).1 = .error f := by
  have hkeys : Tree.Keyed (.map none sampleCircle) := by
    simp [sampleCircle, Tree.object, Tree.array, Reference.asTree, Tree.Distinct, Scalar.same,
      Scalar.canonical]
  have hhome : Edge sampleCircle "Home" "Owner" :=
    ⟨_, _, rfl, .component (.reference rfl rfl rfl List.mem_cons_self rfl), by decide +kernel⟩
  have howner : Edge sampleCircle "Owner" "Pets" :=
    ⟨_, _, rfl, .content (.object rfl rfl) (.property rfl List.mem_cons_self (by simp) (.reference rfl)),
      by decide +kernel⟩
  have hpets : Edge sampleCircle "Pets" "Owner" :=
    ⟨_, _, rfl, .mention (.item rfl rfl rfl (.reference rfl)), by decide +kernel⟩
  have halone : ReadAlone (Tree.object
      [("allOf", Tree.array [Reference.asTree "#/components/schemas/Owner"])]) := by
    intro a es heq
    cases heq
    exact ⟨by decide, by decide⟩
  exact (all_refuses_cycles hkeys).2.2 "Home" _ "Owner" ⟨rfl, rfl⟩ halone (.single hhome)
    (.tail (.single howner) hpets)

/-- A list of itself. -/
def sampleLoop : Entries := [
  (.text "Tags", Tree.object [
    ("type", .text "array"),
    ("items", Reference.asTree "#/components/schemas/Tags")])]

/-- A list that nothing refers to but itself stands for no type, and is never read. -/
theorem all_sampleLoop : (∃ schema, IsEntry sampleLoop "Tags" schema) ∧ Edge sampleLoop "Tags" "Tags" ∧
    (all sampleLoop .start).1 = .ok [] := by
  refine ⟨⟨_, rfl, rfl⟩, ⟨_, _, rfl, .mention (.item rfl rfl rfl (.reference rfl)), by decide +kernel⟩, ?_⟩
  rfl

end ApiContract.Compile
