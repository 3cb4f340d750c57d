import ApiContract.Proofs.Compile.Anew

/-!
# Compiling again

Once every schema of a table has its type, following references adds to a state only what the references to
the other schemas stand for, and whose a type name is. What a run gives then follows from what is known
when it ends (`Learns`): the table of what has been found out is sourced, each of its entries in those
before it (`Learned`). So the same run gives the same from any state that knows less (`replays_typeOfReference`),
also if other runs came before it or were left out: it finds out again what it lacks, and since this takes
only what was known earlier, it meets no cycle.
-/

namespace ApiContract.Compile

variable {α β : Type} {table : Entries} {s s' s'' : State}

/-- The type expression of an entry that has a named type. -/
def Found.type (found : Found table) : TypeExpr :=
  .named (some (Text.typeIdentifier found.name))
    ((found.schema.entries?.map Schema.isNullable).getD false)

/-! ## Following references -/

/-- What following a reference does once every schema has its type. -/
theorem typeOfReference_eq (hc : Complete table s.types) {r : String} {found : Found table}
    (hfind : find table r = .ok found) (path : List String) :
    typeOfReference table ⟨[], path⟩ r s =
      if Text.typeIdentifier found.name ∈ s.types.map (·.name) then
        (claim (Text.typeIdentifier found.name) found.name >>= fun _ => pure found.type) s
      else match s.inlines.lookup found.name with
        | some e => (.ok e, s)
        | none =>
          if found.name ∈ path then (.error (.dependencyCycle (path ++ [found.name])), s)
          else (typeWith (typeOfReference table ⟨[], path ++ [found.name]⟩) found.schema >>= fun e =>
            modify (fun s => { s with inlines := s.inlines ++ [(found.name, e)] }) >>= fun _ =>
            pure e) s := by
  rw [typeOfReference, hfind, lift_ok_bind]
  by_cases hmem : Text.typeIdentifier found.name ∈ s.types.map (·.name)
  · rw [if_pos hmem, bind_eq]
    obtain ⟨t, ht⟩ := @named_of_mem table s [] found.name found.schema (fun _h r =>
      typeOfReference table ⟨[] ++ [Text.typeIdentifier found.name], path⟩ r) hmem
    rw [ht, bind_eq, bind_eq]
    rcases claim (Text.typeIdentifier found.name) found.name s with ⟨e | u, s'⟩
    · rfl
    · rfl
  · have hnamed := @named_of_nameless table s found.name found.schema (fun _h r =>
      typeOfReference table ⟨[] ++ [Text.typeIdentifier found.name], path⟩ r) hmem
      ((hc _ _ found.found (find_eq_ok hfind)).resolve_left hmem)
    rw [if_neg hmem, bind_eq, hnamed]
    simp only [Option.isSome_none, Bool.false_eq_true, if_false]
    rw [bind_eq, get_eq]
    cases hlookup : s.inlines.lookup found.name with
    | some e => simp only [hlookup]; rfl
    | none =>
      simp only [hlookup]
      split
      · rfl
      · rfl

/-! ## What a state knows -/

/-- What a reference stands for as far as a state knows. -/
def known (table : Entries) (s : State) (reference : String) : Except Failure TypeExpr := do
  let found ← find table reference
  let name := Text.typeIdentifier found.name
  if name ∈ s.types.map (·.name) then
    if s.owners.lookup name = some found.name then return found.type
    else throw (.schemaMissing reference)
  else match s.inlines.lookup found.name with
    | some type => return type
    | none => throw (.schemaMissing reference)

/-- The type expression of a schema as far as a state knows what its references stand for. -/
def readKnown (table : Entries) (s : State) (t : Tree) : Except Failure TypeExpr :=
  value (typeWith (fun r => lift (known table s r)) t)

/-- What an entry stands for. -/
inductive Stands (s : State) (found : Found table) : TypeExpr → Prop
  | named : Text.typeIdentifier found.name ∈ s.types.map (·.name) →
    s.owners.lookup (Text.typeIdentifier found.name) = some found.name → Stands s found found.type
  | inline {e : TypeExpr} : Text.typeIdentifier found.name ∉ s.types.map (·.name) →
    s.inlines.lookup found.name = some e → Stands s found e

theorem known_eq_ok {r : String} {e : TypeExpr} : known table s r = .ok e ↔
    ∃ found, find table r = .ok found ∧ Stands s found e := by
  constructor
  · intro h
    obtain ⟨found, hfind, h⟩ := ApiContract.bind_eq_ok.1 h
    refine ⟨found, hfind, ?_⟩
    dsimp only at h
    split at h
    · rename_i hmem
      split at h
      · rename_i howner
        cases h
        exact .named hmem howner
      · cases h
    · rename_i hmem
      split at h
      · rename_i hlookup
        cases h
        exact .inline hmem hlookup
      · cases h
  · rintro ⟨found, hfind, h⟩
    refine ApiContract.bind_eq_ok.2 ⟨found, hfind, ?_⟩
    cases h with
    | named hmem howner =>
      dsimp only
      rw [if_pos hmem, if_pos howner]
      rfl
    | inline hmem hlookup =>
      dsimp only
      rw [if_neg hmem, hlookup]
      rfl

/-- A later state, in which the types are the same. -/
structure Extends (s s' : State) : Prop where
  types : s'.types = s.types
  inlines : s.inlines <+: s'.inlines
  owners : s.owners <+: s'.owners

theorem Extends.refl (s : State) : Extends s s := ⟨rfl, List.prefix_rfl, List.prefix_rfl⟩

theorem Extends.trans (h : Extends s s') (h' : Extends s' s'') : Extends s s'' :=
  ⟨h'.types.trans h.types, h.inlines.trans h'.inlines, h.owners.trans h'.owners⟩

/-- One more inline schema has been found out. -/
theorem Extends.remember (s : State) (entry : String × TypeExpr) :
    Extends s { s with inlines := s.inlines ++ [entry] } :=
  ⟨rfl, List.prefix_append _ _, List.prefix_rfl⟩

theorem Stands.extends {found : Found table} {e : TypeExpr} (h : Stands s found e)
    (hext : Extends s s') : Stands s' found e := by
  cases h with
  | named hmem howner => exact .named (hext.types ▸ hmem) (lookup_extended hext.owners howner)
  | inline hmem hlookup => exact .inline (hext.types ▸ hmem) (lookup_extended hext.inlines hlookup)

theorem known_extends {r : String} {e : TypeExpr} (h : known table s r = .ok e) (hext : Extends s s') :
    known table s' r = .ok e := by
  obtain ⟨found, hfind, hstands⟩ := known_eq_ok.1 h
  exact known_eq_ok.2 ⟨found, hfind, hstands.extends hext⟩

/-- A run gives what another one gives where that ends well. -/
theorem compatible_implies : Compatible (σ := Unit) (τ := Unit) fun {α} m (d : Unit → RunOn Unit α) =>
    ∀ i a, value m = .ok a → value (d i) = .ok a where
  lift r := fun _ _ h => h
  bind hm hf := by
    intro i b h
    rw [value_bind] at h ⊢
    obtain ⟨a, ha, h⟩ := ApiContract.bind_eq_ok.1 h
    exact ApiContract.bind_eq_ok.2 ⟨a, hm i a ha, hf a i b h⟩
  note notices := fun _ _ h => h

theorem readKnown_extends {t : Tree} {e : TypeExpr} (h : readKnown table s t = .ok e)
    (hext : Extends s s') : readKnown table s' t = .ok e := by
  let later : Unit → String → RunOn Unit TypeExpr := fun _ r => lift (known table s' r)
  have hfollow : ∀ r i e, value (lift (known table s r)) = .ok e → value (later i r) = .ok e :=
    fun _ _ _ hr => known_extends hr hext
  exact compatible_implies.typeWith hfollow t () e h

/-! ## Learning -/

section

variable {base : State}

/-- What has been found out since a state, all of it from what was known before. -/
structure Learned (table : Entries) (base s : State) : Prop extends Extends base s where
  sourced : ∀ before n e after, s.inlines = before ++ (n, e) :: after →
    base.inlines.length ≤ before.length → ∃ schema, table.get? n = some schema ∧
      readKnown table { s with inlines := before } schema = .ok e

theorem Learned.refl (table : Entries) (s : State) : Learned table s s := by
  refine ⟨.refl s, fun before n e after heq hle => ?_⟩
  have hlength := congrArg List.length heq
  rw [List.length_append, List.length_cons] at hlength
  omega

/-- What has been found out about an entry follows from what was known before it was. -/
theorem Learned.exists_before (h : Learned table base s) {n : String} {e : TypeExpr} {schema : Tree}
    (hbase : base.inlines.lookup n = none) (hlookup : s.inlines.lookup n = some e)
    (hn : table.get? n = some schema) : ∃ before, before <+: s.inlines ∧ before.lookup n = none ∧
      readKnown table { s with inlines := before } schema = .ok e := by
  obtain ⟨before, after, heq, hfree⟩ := List.lookup_eq_some_iff.1 hlookup
  have hnone : before.lookup n = none := List.lookup_eq_none_iff.2 hfree
  have hle : base.inlines.length ≤ before.length := by
    by_contra hlt
    have hprefix : before ++ [(n, e)] <+: base.inlines := by
      refine List.prefix_of_prefix_length_le ?_ h.inlines (by simp; omega)
      exact ⟨after, by rw [heq, List.append_assoc]; rfl⟩
    have hsome : (before ++ [(n, e)]).lookup n = some e := by
      rw [List.lookup_append, hnone]
      simp
    cases hbase.symm.trans (lookup_extended hprefix hsome)
  obtain ⟨schema', hschema, hread⟩ := h.sourced before n e after heq hle
  cases hn.symm.trans hschema
  exact ⟨before, ⟨_, heq.symm⟩, hnone, hread⟩

theorem Learned.read (h : Learned table base s) {n : String} {e : TypeExpr} {schema : Tree}
    (hbase : base.inlines.lookup n = none) (hlookup : s.inlines.lookup n = some e)
    (hn : table.get? n = some schema) : readKnown table s schema = .ok e := by
  obtain ⟨before, hprefix, -, hread⟩ := h.exists_before hbase hlookup hn
  exact readKnown_extends hread ⟨rfl, hprefix, List.prefix_rfl⟩

theorem Learned.claim (h : Learned table base s) {name n : String} {u : Unit}
    (hrun : claim name n s = (.ok u, s')) : Learned table base s' ∧ Extends s s' ∧
      s'.owners.lookup name = some n := by
  rw [claim_eq] at hrun
  cases howner : s.owners.lookup name with
  | none =>
    rw [howner] at hrun
    cases hrun
    have hext : Extends s { s with owners := s.owners ++ [(name, n)] } :=
      ⟨rfl, List.prefix_rfl, List.prefix_append _ _⟩
    refine ⟨⟨h.toExtends.trans hext, fun before m e after heq hle => ?_⟩, hext, ?_⟩
    · obtain ⟨schema, hschema, hread⟩ := h.sourced before m e after heq hle
      exact ⟨schema, hschema, readKnown_extends hread ⟨rfl, List.prefix_rfl, List.prefix_append _ _⟩⟩
    · rw [List.lookup_append, howner]
      simp
  | some owner =>
    rw [howner] at hrun
    dsimp only at hrun
    split at hrun
    · cases hrun
    · rename_i heq
      cases hrun
      exact ⟨h, .refl s, howner.trans (congrArg some (not_not.1 heq))⟩

/-- A run finds out what it gives from what is known. -/
def Learns (table : Entries) (base : State) (m : Run α) (d : State → RunOn Unit α) : Prop :=
  ∀ ⦃s a s'⦄, Learned table base s → m s = (.ok a, s') →
    Learned table base s' ∧ Extends s s' ∧ ∀ last, Extends s' last → value (d last) = .ok a

theorem compatible_learns : Compatible (σ := State) (τ := Unit) fun {α} m (d : State → RunOn Unit α) =>
    Learns table base m d where
  lift r := by
    intro s a s' hs hrun
    obtain ⟨hr, rfl⟩ := lift_eq_ok.1 hrun
    exact ⟨hs, .refl s, fun _ _ => hr⟩
  bind hm hf := by
    intro s b s' hs hrun
    obtain ⟨a, s₁, ha, hrun⟩ := bind_eq_ok.1 hrun
    obtain ⟨hs₁, hext₁, hknown⟩ := hm hs ha
    obtain ⟨hs', hext, hknown'⟩ := hf a hs₁ hrun
    refine ⟨hs', hext₁.trans hext, fun last hlast => ?_⟩
    rw [value_bind, hknown last (hext.trans hlast)]
    exact hknown' last hlast
  note notices := by
    intro s a s' hs hrun
    cases hrun
    exact ⟨⟨⟨hs.types, hs.inlines, hs.owners⟩, hs.sourced⟩, ⟨rfl, List.prefix_rfl, List.prefix_rfl⟩, fun _ _ => rfl⟩

/-- What has been found out from what is known now may be remembered. -/
theorem Learned.remember {n : String} {e : TypeExpr} {schema : Tree} (h : Learned table base s)
    (hentry : table.get? n = some schema) (hread : readKnown table s schema = .ok e) :
    Learned table base { s with inlines := s.inlines ++ [(n, e)] } := by
  refine ⟨h.toExtends.trans (.remember s _), fun before m x after heq hle => ?_⟩
  rcases List.eq_nil_or_concat after with rfl | ⟨after, y, rfl⟩
  · obtain ⟨rfl, hlast⟩ := List.append_inj' heq rfl
    cases hlast
    exact ⟨schema, hentry, hread⟩
  · have hsplit : s.inlines ++ [(n, e)] = (before ++ (m, x) :: after) ++ [y] := by
      simpa using heq
    exact h.sourced before m x after (List.append_inj' hsplit rfl).1 hle

/-- Following a reference finds out what it stands for, once every schema has its type. -/
theorem learns_typeOfReference (hc : Complete table base.types) (path : List String) (r : String) :
    Learns table base (typeOfReference table ⟨[], path⟩ r) fun last => lift (known table last r) := by
  intro s e s' hs hrun
  cases hfind : find table r with
  | error f =>
    rw [typeOfReference, hfind] at hrun
    cases hrun
  | ok found =>
    have hcs : Complete table s.types := hs.types ▸ hc
    have hresult : ∀ last, Stands last found e → value (lift (known table last r)) = .ok e :=
      fun last h => known_eq_ok.2 ⟨found, hfind, h⟩
    rw [typeOfReference_eq hcs hfind] at hrun
    split at hrun
    · rename_i hmem
      obtain ⟨u, s₁, hclaim, hrun⟩ := bind_eq_ok.1 hrun
      obtain ⟨rfl, rfl⟩ := pure_eq_ok.1 hrun
      obtain ⟨hs₁, hext, howner⟩ := hs.claim hclaim
      refine ⟨hs₁, hext, fun last hlast => hresult last ?_⟩
      exact (Stands.named (hext.types ▸ hmem) howner).extends hlast
    · rename_i hmem
      cases hlookup : s.inlines.lookup found.name with
      | some known =>
        simp only [hlookup] at hrun
        cases hrun
        exact ⟨hs, .refl s, fun last hlast => hresult last ((Stands.inline hmem hlookup).extends hlast)⟩
      | none =>
        simp only [hlookup] at hrun
        split at hrun
        · cases hrun
        · rename_i hfree
          obtain ⟨expression, s₁, hread, hrun⟩ := bind_eq_ok.1 hrun
          obtain ⟨_, s₂, hmodify, hrun⟩ := bind_eq_ok.1 hrun
          obtain ⟨rfl, rfl⟩ := pure_eq_ok.1 hrun
          cases hmodify
          obtain ⟨hs₁, hext, hknown⟩ := compatible_learns.typeWith
            (fun r => learns_typeOfReference hc (path ++ [found.name]) r) found.schema hs hread
          have hexpression := hknown s₁ (.refl s₁)
          refine ⟨hs₁.remember found.found hexpression, hext.trans (.remember s₁ _),
            fun last hlast => hresult last (.extends (.inline ?_ ?_) hlast)⟩
          · rw [← hext.types] at hmem
            exact hmem
          · -- If it has been found out on the way, then from no less than is known now.
            cases hfound : s₁.inlines.lookup found.name with
            | none => simp [List.lookup_append, hfound]
            | some x =>
              have hx := hs₁.read (lookup_none_before hs.inlines hlookup) hfound found.found
              have hsame : expression = x := Except.ok.inj (hexpression.symm.trans hx)
              rw [List.lookup_append, hfound, hsame]
              rfl
termination_by unvisited (names table) path
decreasing_by
  exact unvisited_append_lt (mem_names found.found) ‹_›

theorem learns_typeOf (hc : Complete table base.types) (t : Tree) :
    Learns table base (typeOf table t) fun last => typeWith (fun r => lift (known table last r)) t :=
  compatible_learns.typeWith (fun r => learns_typeOfReference hc [] r) t

/-! ## Doing it again -/

/-- A state between two others: it knows no less than the first and nothing else than the second. -/
structure Within (base last s : State) : Prop where
  types : s.types = last.types
  base : base.inlines <+: s.inlines
  inlines : ∀ n e, s.inlines.lookup n = some e → last.inlines.lookup n = some e
  owners : ∀ n o, s.owners.lookup n = some o → last.owners.lookup n = some o

/-- A run ends well and gives what another one gives, wherever it starts between two states. -/
def Replays (base last : State) (m : Run α) (d : RunOn Unit α) : Prop :=
  ∀ ⦃s a⦄, Within base last s → value d = .ok a → ∃ s', m s = (.ok a, s') ∧ Within base last s'

variable {last : State}

theorem compatible_replays : Compatible (σ := State) (τ := Unit) fun {α} m (d : Unit → RunOn Unit α) =>
    ∀ i, Replays base last m (d i) where
  lift r := fun _ s _ hs h => ⟨s, lift_eq_ok.2 ⟨h, rfl⟩, hs⟩
  bind hm hf := by
    intro i s b hs h
    rw [value_bind] at h
    obtain ⟨a, ha, h⟩ := ApiContract.bind_eq_ok.1 h
    obtain ⟨s₁, hrun, hs₁⟩ := hm i hs ha
    obtain ⟨s', hrun', hs'⟩ := hf a i hs₁ h
    exact ⟨s', bind_eq_ok.2 ⟨a, s₁, hrun, hrun'⟩, hs'⟩
  note notices := by
    intro i s a hs h
    cases h
    exact ⟨_, rfl, hs.types, hs.base, hs.inlines, hs.owners⟩

theorem Within.claim (hs : Within base last s) {name n : String}
    (howner : last.owners.lookup name = some n) :
    ∃ s', claim name n s = (.ok (), s') ∧ Within base last s' := by
  rw [claim_eq]
  cases hlookup : s.owners.lookup name with
  | none =>
    refine ⟨_, rfl, hs.types, hs.base, hs.inlines, fun k o hk => ?_⟩
    rcases lookup_snoc hk with hk | ⟨rfl, rfl⟩
    · exact hs.owners k o hk
    · exact howner
  | some owner =>
    have hsame : owner = n := Option.some.inj ((hs.owners _ _ hlookup).symm.trans howner)
    refine ⟨s, ?_, hs⟩
    dsimp only
    rw [if_neg (not_not.2 hsame)]

/-- Following a reference again gives what has been found out. What is being followed has been found out
later than anything that is known, so that no cycle is met. -/
theorem replays_typeOfReference (hc : Complete table base.types) (hlast : Learned table base last)
    (before : List (String × TypeExpr)) (hbefore : before <+: last.inlines) (path : List String)
    (hpath : ∀ n ∈ path, before.lookup n = none) (r : String) :
    Replays base last (typeOfReference table ⟨[], path⟩ r)
      (lift (known table { last with inlines := before } r)) := by
  intro s e hs he
  obtain ⟨found, hfind, hstands⟩ := known_eq_ok.1 he
  have hcs : Complete table s.types := by
    rw [hs.types, hlast.types]
    exact hc
  rw [typeOfReference_eq hcs hfind, hs.types]
  cases hstands with
  | named hmem howner =>
    rw [if_pos hmem]
    obtain ⟨s', hclaim, hs'⟩ := hs.claim howner
    exact ⟨s', bind_eq_ok.2 ⟨(), s', hclaim, rfl⟩, hs'⟩
  | inline hmem hlookup =>
    have hfound : last.inlines.lookup found.name = some e := lookup_extended hbefore hlookup
    rw [if_neg hmem]
    cases hknown : s.inlines.lookup found.name with
    | some x =>
      have hsame : x = e := Option.some.inj ((hs.inlines _ _ hknown).symm.trans hfound)
      exact ⟨s, by rw [hsame], hs⟩
    | none =>
      obtain ⟨first, hfirst, hnone, hread⟩ :=
        hlast.exists_before (lookup_none_before hs.base hknown) hfound found.found
      have hlt : first.length < before.length := by
        by_contra hle
        have hprefix := List.prefix_of_prefix_length_le hbefore hfirst (Nat.le_of_not_lt hle)
        cases hnone.symm.trans (lookup_extended hprefix hlookup)
      have hfree : ∀ n ∈ path ++ [found.name], first.lookup n = none := by
        refine List.forall_mem_append.2 ⟨fun n hn => ?_, List.forall_mem_singleton.2 hnone⟩
        exact lookup_none_before
          (List.prefix_of_prefix_length_le hfirst hbefore (Nat.le_of_lt hlt)) (hpath n hn)
      have hnotMem : found.name ∉ path := fun hmem => by
        cases (hpath _ hmem).symm.trans hlookup
      let follows : Unit → String → RunOn Unit TypeExpr := fun _ r =>
        lift (known table { last with inlines := first } r)
      have hfollow : ∀ r i, Replays base last (typeOfReference table ⟨[], path ++ [found.name]⟩ r)
          (follows i r) := fun r _ =>
        replays_typeOfReference hc hlast first hfirst (path ++ [found.name]) hfree r
      obtain ⟨s', hrun, hs'⟩ := compatible_replays.typeWith hfollow found.schema () hs hread
      dsimp only
      rw [if_neg hnotMem]
      refine ⟨_, bind_eq_ok.2 ⟨e, s', hrun, rfl⟩, hs'.types, hs'.base.trans (List.prefix_append _ _),
        fun n x hx => ?_, hs'.owners⟩
      rcases lookup_snoc hx with hx | ⟨rfl, rfl⟩
      · exact hs'.inlines n x hx
      · exact hfound
termination_by before.length

theorem replays_typeOf (hc : Complete table base.types) (hlast : Learned table base last) (t : Tree) :
    Replays base last (typeOf table t) (typeWith (fun r => lift (known table last r)) t) := by
  let follows : Unit → String → RunOn Unit TypeExpr := fun _ r => lift (known table last r)
  have hfollow : ∀ r i, Replays base last (typeOfReference table ⟨[], []⟩ r) (follows i r) := fun r _ =>
    replays_typeOfReference hc hlast last.inlines List.prefix_rfl [] nofun r
  exact compatible_replays.typeWith hfollow t ()

end

end ApiContract.Compile
