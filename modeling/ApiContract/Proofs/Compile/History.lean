import ApiContract.Proofs.Compile.Agreement
import ApiContract.Proofs.Compile.Session

/-!
# Calls on one compiler

A compiler remembers what it has compiled, also where a call has failed. Still every call is answered as if
it were the first (`Call.agree`), and nothing is in progress between calls (`session_after`). The order of the
table makes no difference to what the whole of it compiles to (`all_perm`).
-/

namespace ApiContract.Compile

/-- What a compiler can be asked. -/
inductive Call where
  | compile (name : String) (schema : Tree)
  | inlineType (t : Tree)
  | resolve (t : Tree)
  | all

/-- What it answers. -/
inductive Answer where
  | compiled (type : Option NamedType)
  | expression (type : TypeExpr)
  | schema (t : Tree)
  | types (types : List NamedType)
deriving DecidableEq

namespace Call

/-- A call on a compiler. -/
def run (table : Entries) : Call → Run Answer
  | .compile name schema => .compiled <$> entry table name schema
  | .inlineType t => .expression <$> typeOf table t
  | .resolve t => .schema <$> lift (Compile.resolve table t)
  | .all => .types <$> Compile.all table

/-- A call in a session. -/
def session (table : Entries) (follow : String → RunOn Session TypeExpr) : Call → RunOn Session Answer
  | .compile name schema => .compiled <$> Session.named table follow name schema
  | .inlineType t => .expression <$> typeWith follow t
  | .resolve t => .schema <$> lift (Compile.resolve table t)
  | .all => .types <$> Session.all table follow

/-- Only entries that are no references are compiled by name. -/
def Direct (table : Entries) : Call → Prop
  | .compile name schema => IsEntry table name schema
  | _ => True

end Call

/-- The state after calls, any of which may have failed. -/
def after (table : Entries) (calls : List Call) : State :=
  calls.foldl (fun s call => (call.run table s).2) .start

/-- The session after calls. -/
def Session.after (table : Entries) (follow : String → RunOn Session TypeExpr) (calls : List Call) :
    Session :=
  calls.foldl (fun s call => (call.session table follow s).2) .start

/-- The same answer; lists of types may be in another order. -/
def Answer.Alike : Answer → Answer → Prop
  | .types ts, .types ts' => ts.Perm ts'
  | a, b => a = b

/-- The same answer or the same error. -/
def Agree : Except Failure Answer → Except Failure Answer → Prop
  | .ok a, .ok b => a.Alike b
  | .error f, .error g => f = g
  | _, _ => False

variable {α : Type} {table : Entries} {s s' : State}

theorem Agree.refl : ∀ r : Except Failure Answer, Agree r r
  | .error _ => rfl
  | .ok (.types ts) => List.Perm.refl ts
  | .ok (.compiled _) | .ok (.expression _) | .ok (.schema _) => rfl

/-! ## One call -/

theorem map_run {σ β : Type} (f : α → β) (m : RunOn σ α) (x : σ) :
    (f <$> m) x = ((m x).1.map f, (m x).2) := by
  rw [map_eq_pure_bind, bind_eq]
  rcases m x with ⟨_ | _, _⟩ <;> rfl

theorem Faithful.value_eq {r : Except Failure α} {anew : Path → RunOn Unit α}
    (h : Faithful table ⟨[], []⟩ s r s' anew) : r = value (anew ⟨[], []⟩) := by
  cases r with
  | error f => exact (h.error f rfl).symm
  | ok a => exact (h.ok a rfl _ (free_nil s')).symm

section

variable (hsep : Separate table)
include hsep

/-- Compiling an entry gives its type as it is anew. -/
theorem entry_anew {name : String} {schema : Tree} (hs : Settled table s)
    (hentry : IsEntry table name schema) :
    Settled table (entry table name schema s).2 ∧ Later s (entry table name schema s).2 ∧
      (entry table name schema s).1 = value (entryAnew table ⟨[], []⟩ name schema) ∧
      ∀ t, (entry table name schema s).1 = .ok (some t) → t ∈ (entry table name schema s).2.types := by
  have hrun : NamedRun table ⟨[], []⟩ s name schema (entry table name schema s).1
      (entry table name schema s).2 :=
    namedRun_named hsep (fun _ r => remembers_typeOfReference hsep ⟨[Text.typeIdentifier name], []⟩ r)
      hs (free_nil s) hentry rfl
  refine ⟨hrun.settled, hrun.later, ?_, fun t ht => (hrun.mem t ht).1⟩
  cases hr : (entry table name schema s).1 with
  | error f => exact (hrun.error f hr).symm
  | ok o => exact (hrun.anew o hr _ (free_nil _) List.not_mem_nil).symm

/-- The type expression of a schema is what it is anew. -/
theorem faithful_typeOf (hs : Settled table s) (t : Tree) :
    Faithful table ⟨[], []⟩ s (typeOf table t s).1 (typeOf table t s).2 fun q =>
      typeWith (typeAnew table q) t :=
  remembers_typeWith (remembers_typeOfReference hsep ⟨[], []⟩) t s hs (free_nil s)

end

/-! ## The whole table -/

/-- Compiles every entry that is no reference anew. -/
def entriesAnew (table : Entries) : Entries → Except Failure Unit
  | [] => return ()
  | (key, schema) :: rest => do
    if !Reference.isReference schema then
      let .text name := key | throw .malformed
      let _ ← value (entryAnew table ⟨[], []⟩ name schema)
    entriesAnew table rest

/-- The types that entries of the table compile to anew. -/
def IsType (table : Entries) (t : NamedType) : Prop :=
  ∃ n schema, IsEntry table n schema ∧ value (entryAnew table ⟨[], []⟩ n schema) = .ok (some t)

theorem Settled.isType {t : NamedType} (hs : Settled table s) (ht : t ∈ s.types) : IsType table t := by
  obtain ⟨n, schema, hentry, -, hanew⟩ := hs.types t ht
  exact ⟨n, schema, hentry, hanew _ (free_nil s)⟩

section

variable (hsep : Separate table)
include hsep

/-- Compiling entries fails as it does anew, and if it ends well all their types are there. -/
theorem entries_anew : ∀ {es : Entries} {s : State},
    (∀ n t, (Scalar.text n, t) ∈ es → table.get? n = some t) → Settled table s →
      Settled table (entries table es s).2 ∧ Later s (entries table es s).2 ∧
        (entries table es s).1 = entriesAnew table es ∧
        (entriesAnew table es = .ok () → ∀ n schema t, (Scalar.text n, schema) ∈ es →
          Reference.ofTree? schema = none → value (entryAnew table ⟨[], []⟩ n schema) = .ok (some t) →
            t ∈ (entries table es s).2.types)
  | [], s, _, hs => ⟨hs, .refl s, rfl, fun _ _ _ _ hmem => absurd hmem List.not_mem_nil⟩
  | (key, schema) :: es, s, hes, hs => by
    have hrest : ∀ n t, (Scalar.text n, t) ∈ es → table.get? n = some t :=
      fun n t hmem => hes n t (List.mem_cons_of_mem _ hmem)
    rw [entries.eq_def, entriesAnew.eq_def]
    dsimp only
    cases href : Reference.ofTree? schema with
    | some reference =>
      have hskip : (!Reference.isReference schema) = false := by
        simp [Reference.isReference, href]
      rw [hskip]
      obtain ⟨hsettled, hlater, hresult, htypes⟩ := entries_anew hrest hs
      refine ⟨hsettled, hlater, hresult, fun hok n schema' t hmem hdirect => ?_⟩
      rcases List.mem_cons.1 hmem with heq | hmem
      · cases heq
        cases href.symm.trans hdirect
      · exact htypes hok n schema' t hmem hdirect
    | none =>
      have hcompile : (!Reference.isReference schema) = true := by
        simp [Reference.isReference, href]
      rw [hcompile, if_pos rfl, if_pos rfl]
      cases key with
      | text name =>
        have hentry : IsEntry table name schema := ⟨hes name schema List.mem_cons_self, href⟩
        obtain ⟨hsettled, hlater, hresult, hmade⟩ := entry_anew hsep hs hentry
        dsimp only
        rw [bind_eq, ← hresult]
        rcases hrun : entry table name schema s with ⟨f | made, s₁⟩
        · rw [hrun] at hsettled hlater
          exact ⟨hsettled, hlater, rfl, fun h => by cases h⟩
        · rw [hrun] at hsettled hlater hmade hresult
          obtain ⟨hsettled', hlater', hresult', htypes⟩ := entries_anew hrest hsettled
          refine ⟨hsettled', hlater.trans hlater', hresult', fun hok n schema' t hmem hdirect ht => ?_⟩
          rcases List.mem_cons.1 hmem with heq | hmem
          · cases heq
            exact hlater'.types t (hmade t (hresult.trans ht))
          · exact htypes hok n schema' t hmem hdirect ht
      | _ => exact ⟨hs, .refl s, rfl, fun h => by cases h⟩

omit hsep in
theorem all_eq (table : Entries) (s : State) :
    all table s = ((entries table table s).1.map fun _ => (entries table table s).2.types,
      (entries table table s).2) := by
  unfold all
  rw [bind_eq]
  rcases entries table table s with ⟨_ | _, s'⟩ <;> rfl

variable (hkeys : (table.map (·.1)).Nodup)
include hkeys

/-- Compiling the whole table fails as it does anew, else it gives the types of all entries. -/
theorem all_anew (hs : Settled table s) :
    Settled table (all table s).2 ∧
      (all table s).1 = (entriesAnew table table).map (fun _ => (all table s).2.types) ∧
      (entriesAnew table table = .ok () → ∀ t, t ∈ (all table s).2.types ↔ IsType table t) := by
  obtain ⟨hsettled, -, hresult, htypes⟩ :=
    entries_anew hsep (fun n t hmem => Entries.at?_of_mem hkeys hmem) hs
  rw [all_eq]
  refine ⟨hsettled, by rw [hresult], fun hok t => ⟨hsettled.isType, ?_⟩⟩
  rintro ⟨n, schema, hentry, ht⟩
  exact htypes hok n schema t (Entries.mem_of_at? hentry.found) hentry.direct ht

/-! ## Many calls -/

omit hsep hkeys in
/-- What every call keeps holds after calls. -/
theorem of_after {I : State → Prop} {calls : List Call} (hstart : I .start)
    (hcalls : ∀ call ∈ calls, ∀ s, I s → I (call.run table s).2) : I (after table calls) := by
  have hfold : ∀ (calls : List Call) (s : State), (∀ call ∈ calls, ∀ s, I s → I (call.run table s).2) →
      I s → I (calls.foldl (fun s call => (call.run table s).2) s) := by
    intro calls
    induction calls with
    | nil => exact fun s _ hs => hs
    | cons call calls ih =>
      intro s hcalls hs
      obtain ⟨hcall, hcalls⟩ := List.forall_mem_cons.1 hcalls
      exact ih _ hcalls (hcall s hs)
  exact hfold calls .start hcalls hstart

/-- A call is answered alike in all states that remember what compiling anew gives. -/
theorem Call.answered {call : Call} (hcall : call.Direct table) (hs : Settled table s)
    (hs' : Settled table s') :
    Settled table (call.run table s).2 ∧ Agree (call.run table s).1 (call.run table s').1 := by
  cases call with
  | compile name schema =>
    obtain ⟨hsettled, -, hresult, -⟩ := entry_anew hsep hs hcall
    obtain ⟨-, -, hresult', -⟩ := entry_anew hsep hs' hcall
    simp only [run, map_run]
    refine ⟨hsettled, ?_⟩
    rw [hresult, hresult']
    exact .refl _
  | inlineType t =>
    have hrun := faithful_typeOf hsep hs t
    simp only [run, map_run]
    refine ⟨hrun.settled, ?_⟩
    rw [hrun.value_eq, (faithful_typeOf hsep hs' t).value_eq]
    exact .refl _
  | resolve t =>
    simp only [run, map_run]
    exact ⟨hs, .refl _⟩
  | all =>
    obtain ⟨hsettled, hresult, htypes⟩ := all_anew hsep hkeys hs
    obtain ⟨hsettled', hresult', htypes'⟩ := all_anew hsep hkeys hs'
    simp only [run, map_run]
    refine ⟨hsettled, ?_⟩
    rw [hresult, hresult']
    cases hok : entriesAnew table table with
    | error f => exact rfl
    | ok u =>
      have hmem : ∀ t, t ∈ (Compile.all table s).2.types ↔ t ∈ (Compile.all table s').2.types :=
        fun t => (htypes hok t).trans (htypes' hok t).symm
      exact (List.perm_ext_iff_of_nodup hsettled.nodup.of_map hsettled'.nodup.of_map).2 hmem

theorem settled_after {calls : List Call} (hcalls : ∀ call ∈ calls, call.Direct table) :
    Settled table (after table calls) :=
  of_after (settled_start table) fun call hcall _ hs => (call.answered hsep hkeys (hcalls call hcall) hs hs).1

end

/-! ## Sessions -/

section

variable {cut : RunOn Session TypeExpr} {depth : Nat} (hdepth : 2 * (names table).length < depth)
include hdepth

theorem mirrors_call (call : Call) :
    Mirrors ⟨[], []⟩ (call.session table (Session.typeOfReference table cut depth)) (call.run table) := by
  cases call with
  | compile name schema => exact (mirrors_entry hdepth name schema).map _
  | inlineType t => exact (mirrors_typeWith (mirrors_follow hdepth _) t).map _
  | resolve t => exact (mirrors_lift _).map _
  | all => exact (mirrors_all hdepth).map _

/-- Nothing is in progress between calls, and the state is that of the compiler. -/
theorem session_after (calls : List Call) :
    Session.after table (Session.typeOfReference table cut depth) calls = ⟨after table calls, ⟨[], []⟩⟩ := by
  have hfold : ∀ (calls : List Call) (s : State),
      calls.foldl (fun s call => (call.session table (Session.typeOfReference table cut depth) s).2)
          ⟨s, ⟨[], []⟩⟩ =
        ⟨calls.foldl (fun s call => (call.run table s).2) s, ⟨[], []⟩⟩ := by
    intro calls
    induction calls with
    | nil => exact fun s => rfl
    | cons call calls ih =>
      intro s
      rw [List.foldl_cons, List.foldl_cons, mirrors_call hdepth call s]
      exact ih _
  exact hfold calls .start

end

/-! ## The order of the table -/

/-- Entries compile anew if each of them has a text as its key and compiles anew. -/
theorem entriesAnew_eq_ok : ∀ {es : Entries}, entriesAnew table es = .ok () ↔
    ∀ e ∈ es, Reference.ofTree? e.2 = none →
      ∃ n, e.1 = .text n ∧ ∃ o, value (entryAnew table ⟨[], []⟩ n e.2) = .ok o
  | [] => ⟨fun _ _ h => absurd h List.not_mem_nil, fun _ => rfl⟩
  | (key, schema) :: es => by
    rw [List.forall_mem_cons, ← entriesAnew_eq_ok, entriesAnew.eq_def]
    dsimp only
    cases href : Reference.ofTree? schema with
    | some reference =>
      have hskip : (!Reference.isReference schema) = false := by
        simp [Reference.isReference, href]
      rw [hskip]
      exact ⟨fun h => ⟨by simp, h⟩, fun h => h.2⟩
    | none =>
      have hcompile : (!Reference.isReference schema) = true := by
        simp [Reference.isReference, href]
      rw [hcompile, if_pos rfl]
      cases key with
      | text name =>
        dsimp only
        rw [ApiContract.bind_eq_ok]
        constructor
        · rintro ⟨o, ho, hrest⟩
          exact ⟨fun _ => ⟨name, rfl, o, ho⟩, hrest⟩
        · rintro ⟨hentry, hrest⟩
          obtain ⟨n, hn, o, ho⟩ := hentry rfl
          cases hn
          exact ⟨o, ho, hrest⟩
      | _ =>
        constructor
        · intro h
          cases h
        · rintro ⟨hentry, -⟩
          obtain ⟨n, hn, -⟩ := hentry rfl
          cases hn

theorem SameEntries.isType {table' : Entries} (h : SameEntries table table') {t : NamedType} :
    IsType table t ↔ IsType table' t := by
  unfold IsType
  simp only [h.isEntry, entryAnew_congr h]

theorem SameEntries.separate {table' : Entries} (h : SameEntries table table') (hsep : Separate table) :
    Separate table' :=
  fun n n' schema schema' hn hn' => hsep n n' schema schema' (h.isEntry.2 hn) (h.isEntry.2 hn')

section

/-- The names of the entries that are no references. -/
def directNames (table : Entries) : List String :=
  table.filterMap fun e => match e.1 with
    | .text n => if Reference.isReference e.2 then none else some n
    | _ => none

theorem mem_directNames {n : String} {schema : Tree} (h : IsEntry table n schema) :
    n ∈ directNames table := by
  refine List.mem_filterMap.2 ⟨(.text n, schema), Entries.mem_of_at? h.found, ?_⟩
  simp [Reference.isReference, h.direct]

/-- Entries whose type names are different can be told apart by them. -/
theorem separate_of_nodup (h : ((directNames table).map Text.typeIdentifier).Nodup) :
    Separate table :=
  fun _ _ _ _ hn hn' heq =>
    List.inj_on_of_nodup_map h (mem_directNames hn) (mem_directNames hn') heq

variable (hkeys : (table.map (·.1)).Nodup) (hsep : Separate table)
include hkeys hsep

/-- The whole table compiles to the types of its entries, if they all compile anew. -/
theorem all_eq_ok {types : List NamedType} (h : all table .start = (.ok types, s)) :
    entriesAnew table table = .ok () ∧ types.Nodup ∧ ∀ t, t ∈ types ↔ IsType table t := by
  obtain ⟨hsettled, hresult, htypes⟩ := all_anew hsep hkeys (settled_start table)
  rw [h] at hsettled hresult htypes
  cases hok : entriesAnew table table with
  | error f =>
    rw [hok] at hresult
    cases hresult
  | ok u =>
    rw [hok] at hresult
    have heq : types = s.types := Except.ok.inj hresult
    rw [heq]
    exact ⟨rfl, hsettled.nodup.of_map, htypes hok⟩

theorem exists_all_iff :
    (∃ types s, all table .start = (.ok types, s)) ↔ entriesAnew table table = .ok () := by
  constructor
  · rintro ⟨types, s, h⟩
    exact (all_eq_ok hkeys hsep h).1
  · intro hok
    obtain ⟨-, hresult, -⟩ := all_anew hsep hkeys (settled_start table)
    rw [hok] at hresult
    exact ⟨_, _, Prod.ext hresult rfl⟩

/-- The whole table compiles to the same types in every order. -/
theorem all_perm {table' : Entries} (hperm : table.Perm table') :
    ((∃ types s, all table .start = (.ok types, s)) ↔ ∃ types s, all table' .start = (.ok types, s)) ∧
      ∀ types types' s s', all table .start = (.ok types, s) → all table' .start = (.ok types', s') →
        types.Perm types' := by
  have hsame := sameEntries_of_perm hkeys hperm
  have hkeys' : (table'.map (·.1)).Nodup := (hperm.map _).nodup_iff.1 hkeys
  have hsep' := hsame.separate hsep
  constructor
  · rw [exists_all_iff hkeys hsep, exists_all_iff hkeys' hsep', entriesAnew_eq_ok, entriesAnew_eq_ok]
    simp only [entryAnew_congr hsame, hperm.mem_iff]
  · intro types types' s s' h h'
    obtain ⟨-, hnodup, hmem⟩ := all_eq_ok hkeys hsep h
    obtain ⟨-, hnodup', hmem'⟩ := all_eq_ok hkeys' hsep' h'
    refine (List.perm_ext_iff_of_nodup hnodup hnodup').2 fun t => ?_
    rw [hmem, hmem', hsame.isType]

end

/-- Whatever has been asked of a compiler before, and whether or not it failed, a call that compiles no
reference by name is answered as if it were the first, lists of types up to their order. In a session
nothing is in progress between calls, and its answers are the compiler's. What the table compiles to does
not depend on its order. -/
structure HistoryIndependent (table : Entries) : Prop where
  answers : ∀ (calls : List Call) (call : Call), (∀ c ∈ calls, c.Direct table) → call.Direct table →
    Agree (call.run table (after table calls)).1 (call.run table .start).1
  idle : ∀ cut depth (calls : List Call) (call : Call), 2 * (names table).length < depth →
    let follow := Session.typeOfReference table cut depth
    Session.after table follow calls = ⟨after table calls, ⟨[], []⟩⟩ ∧
      (call.session table follow (Session.after table follow calls)).1 =
        (call.run table (after table calls)).1
  order : ∀ table', table.Perm table' →
    ((∃ types s, all table .start = (.ok types, s)) ↔ ∃ types s, all table' .start = (.ok types, s)) ∧
      ∀ types types' s s', all table .start = (.ok types, s) → all table' .start = (.ok types', s') →
        types.Perm types'

/-- A compiler is independent of its history if the keys of the table are unique and the entries that are
no references have different type names. -/
theorem history_independent (hkeys : (table.map (·.1)).Nodup)
    (hnames : ((directNames table).map Text.typeIdentifier).Nodup) : HistoryIndependent table where
  answers calls call hcalls hcall := by
    have hsep := separate_of_nodup hnames
    exact (call.answered hsep hkeys hcall (settled_after hsep hkeys hcalls) (settled_start table)).2
  idle cut depth calls call hdepth := by
    have hafter : Session.after table (Session.typeOfReference table cut depth) calls =
        ⟨after table calls, ⟨[], []⟩⟩ := session_after hdepth calls
    refine ⟨hafter, ?_⟩
    rw [hafter, mirrors_call hdepth call]
  order _ hperm := all_perm hkeys (separate_of_nodup hnames) hperm

/-- A record with a field of another record and one that leads nowhere. -/
def sampleHistory : Entries := [
  (.text "Owner", Tree.object [
    ("type", .text "object"),
    ("properties", Tree.object [
      ("pet", Reference.asTree "#/components/schemas/Pet"),
      ("home", Reference.asTree "#/components/schemas/Home")])]),
  (.text "Pet", Tree.object [
    ("type", .text "object"),
    ("properties", Tree.object [("name", Tree.object [("type", .text "string")])])]),
  (.text "pet", Reference.asTree "#/components/schemas/Pet")]

/-- A call that fails leaves the type that was compiled on the way. -/
theorem history_independent_sampleHistory :
    (after sampleHistory [.inlineType (Reference.asTree "#/components/schemas/Owner")]).types.map
        (·.name) = ["Pet"] ∧
      ((Call.inlineType (Reference.asTree "#/components/schemas/Owner")).run sampleHistory .start).1 =
        .error (.schemaMissing "#/components/schemas/Home") ∧
      HistoryIndependent sampleHistory :=
  ⟨by decide +kernel, by decide +kernel, history_independent (by decide +kernel) (by decide +kernel)⟩

/-- A record, and a reference to it of which the name gives the same type name. -/
def sampleAlias : Entries := [
  (.text "pet", Reference.asTree "#/components/schemas/Pet"),
  (.text "Pet", Tree.object [
    ("type", .text "object"),
    ("properties", Tree.object [("name", Tree.object [("type", .text "string")])])])]

/-- The entry under a name compiled by that name. -/
def Call.ofName (table : Entries) (name : String) : Call :=
  .compile name ((table.get? name).getD .null)

/-- A reference compiled by its name is refused for another reason once the type name has an owner. -/
theorem not_agree_sampleAlias :
    (sampleAlias.map (·.1)).Nodup ∧ ((directNames sampleAlias).map Text.typeIdentifier).Nodup ∧
      (∀ name ∈ ["Pet", "pet"], (sampleAlias.get? name).isSome = true) ∧
      ¬ Agree ((Call.ofName sampleAlias "pet").run sampleAlias
          (after sampleAlias [.ofName sampleAlias "Pet"])).1
        ((Call.ofName sampleAlias "pet").run sampleAlias .start).1 := by
  have hlater : ((Call.ofName sampleAlias "pet").run sampleAlias
      (after sampleAlias [.ofName sampleAlias "Pet"])).1 =
        .error (.typeNameClash "Pet" "pet" "Pet") := by decide +kernel
  have hfirst : ((Call.ofName sampleAlias "pet").run sampleAlias .start).1 =
      .error (.anyNamed "pet" (Schema.brief (Reference.asTree "#/components/schemas/Pet"))) := by
    decide +kernel
  refine ⟨by decide +kernel, by decide +kernel, by decide +kernel, ?_⟩
  rw [hlater, hfirst]
  exact nofun

end ApiContract.Compile
