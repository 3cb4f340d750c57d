import ApiContract.Proofs.Compile.Fields

/-!
# The types of a table

* `typed_typeOf`: the type expression of a schema mentions types that have been compiled.
* `all_run`: compiling a table gives types in order, one for every schema that makes one.

So what is compiled afterwards adds no types (`Grows.complete`).
-/

namespace ApiContract.Compile

open NamedType (Ordered)

variable {table : Entries} {path : List String} {s s' : State}

theorem find_eq_ok {reference : String} {found : Found table} (h : find table reference = .ok found) :
    Reference.ofTree? found.schema = none := by
  obtain ⟨name, -, h⟩ := ApiContract.bind_eq_ok.1 h
  split at h
  · cases h
  · cases h
  · split at h
    · cases h
    · rename_i href
      cases h
      exact href

theorem claim_run {name schemaName : String} {u : Unit} (hs : Good table s)
    (h : claim name schemaName s = (.ok u, s')) : Grows table path s s' := by
  obtain ⟨t, _, ht, h⟩ := bind_eq_ok.1 h
  cases ht
  cases howner : s.owners.lookup name with
  | none =>
    rw [howner] at h
    cases h
    exact .of_eq hs rfl rfl
  | some owner =>
    rw [howner] at h
    dsimp only at h
    split at h
    · cases h
    · obtain ⟨-, rfl⟩ := pure_eq_ok.1 h
      exact .refl hs

/-- A type whose name is on no path of the run that made it stands behind those that it mentions. -/
theorem Adds.snoc {name : String} {t : NamedType} {s₁ : State}
    (h : Adds table (path ++ [name]) s s₁) (ht : t.Sound s₁.types) (hname : t.name = name)
    (hfree : name ∉ s.types.map (·.name)) (hpath : name ∉ path) (htypes : s'.types = s₁.types ++ [t])
    (hinlines : s'.inlines = s₁.inlines) :
    Adds table path s s' ∧ name ∈ s'.types.map (·.name) := by
  obtain ⟨new, hnew, havoid⟩ := h.added
  have hfree' : t.name ∉ s₁.types.map (·.name) := by
    rw [hname, hnew, List.map_append, List.mem_append, not_or]
    refine ⟨hfree, fun hmem => ?_⟩
    obtain ⟨u, hu, hu'⟩ := List.mem_map.1 hmem
    exact havoid u hu (hu' ▸ List.mem_append_right _ List.mem_cons_self)
  refine ⟨⟨⟨?_, fun e he => ?_, ?_⟩, new ++ [t], ?_, fun u hu => ?_⟩, ?_⟩
  · rw [htypes]
    exact h.good.ordered.snoc ht hfree'
  · rw [htypes]
    exact (h.good.known e (hinlines ▸ he)).append
  · rw [hinlines]
    exact h.good.nameless
  · rw [htypes, hnew, List.append_assoc]
  · rcases List.mem_append.1 hu with hu | hu
    · exact fun hmem => havoid u hu (List.mem_append_left _ hmem)
    · rwa [List.mem_singleton.1 hu, hname]
  · rw [htypes, ← hname]
    exact List.mem_map_of_mem (List.mem_append_right _ List.mem_cons_self)

/-! ## Following references -/

/-- What compiling the schema of a name does. `hname` says that the schema is the one of that name. -/
theorem named_run {name : String} {schema : Tree} {r : Option NamedType}
    {follow : Text.typeIdentifier name ∉ path → String → Run TypeExpr}
    (hf : ∀ h r, Typed table (path ++ [Text.typeIdentifier name]) (follow h r)) (hs : Good table s)
    (h : named table path name schema follow s = (.ok r, s')) :
    Adds table path s s' ∧ (r.isSome = true → Text.typeIdentifier name ∈ s'.types.map (·.name)) ∧
      (table.get? name = some schema → (r = none → Nameless table schema) ∧
        (Reference.ofTree? schema = none → Complete table s.types → s'.types = s.types)) := by
  unfold named at h
  obtain ⟨_, _, hget, h⟩ := bind_eq_ok.1 h
  cases hget
  cases hfind : s.types.find? (·.name == Text.typeIdentifier name) with
  | some type =>
    rw [hfind] at h
    obtain ⟨_, _, hclaim, h⟩ := bind_eq_ok.1 h
    obtain ⟨rfl, rfl⟩ := pure_eq_ok.1 h
    have hgrows : Grows table path s _ := claim_run hs hclaim
    refine ⟨hgrows.toAdds, fun _ => hgrows.mem ?_, fun _ => ⟨nofun, fun _ => hgrows.complete⟩⟩
    have hname := List.find?_some hfind
    exact List.mem_map.2 ⟨type, List.mem_of_find?_eq_some hfind, by simpa using hname⟩
  | none =>
    have hfree : Text.typeIdentifier name ∉ s.types.map (·.name) := by
      intro hmem
      obtain ⟨t, ht, hname⟩ := List.mem_map.1 hmem
      exact List.find?_eq_none.1 hfind t ht (by simpa using hname)
    rw [hfind] at h
    dsimp only at h
    split at h
    · rename_i hinline
      obtain ⟨rfl, rfl⟩ := pure_eq_ok.1 h
      refine ⟨(Grows.refl hs).toAdds, nofun, fun hname => ⟨fun _ => ?_, fun _ _ => rfl⟩⟩
      obtain ⟨type, htype⟩ := Option.isSome_iff_exists.1 hinline
      exact hs.nameless _ (mem_of_lookup htype) _ hname
    · split at h
      · cases h
      · rename_i hpath
        obtain ⟨made, s₁, hmade, h⟩ := bind_eq_ok.1 h
        obtain ⟨hnone, hsome⟩ := schemaType_run (fun t => typed_typeWith (hf hpath) t) hs hmade
        cases made with
        | none =>
          obtain ⟨rfl, rfl⟩ := pure_eq_ok.1 h
          obtain ⟨rfl, hnameless⟩ := hnone rfl
          exact ⟨(Grows.refl hs).toAdds, nofun, fun _ => ⟨fun _ => hnameless, fun _ _ => rfl⟩⟩
        | some type =>
          obtain ⟨hgrows, hsound, hname⟩ := hsome type rfl
          obtain ⟨_, s₂, hclaim, h⟩ := bind_eq_ok.1 h
          obtain ⟨_, s₃, hmodify, h⟩ := bind_eq_ok.1 h
          obtain ⟨rfl, rfl⟩ := pure_eq_ok.1 h
          have hclaimed : Grows table (path ++ [Text.typeIdentifier name]) s₁ s₂ :=
            claim_run hgrows.good hclaim
          cases hmodify
          obtain ⟨hadds, hmem⟩ := (hgrows.trans hclaimed).toAdds.snoc (hclaimed.sound hsound) hname hfree
            hpath (rfl : ({ s₂ with types := s₂.types ++ [type] } : State).types = _) rfl
          refine ⟨hadds, fun _ => hmem, fun hentry => ⟨nofun, fun href hc => ?_⟩⟩
          rcases hc name schema hentry href with hmem | hnameless
          · exact absurd hmem hfree
          · cases (hnameless _ _ _ s).symm.trans hmade

/-- The type expression of a reference mentions the type that it leads to, or the one that is mentioned
there. -/
theorem typed_typeOfReference (path : Path) (reference : String) :
    Typed table path.types (typeOfReference table path reference) := by
  intro s e s' hs h
  rw [typeOfReference] at h
  obtain ⟨found, _, h₁, h⟩ := bind_eq_ok.1 h
  obtain ⟨hfound, rfl⟩ := lift_eq_ok.1 h₁
  obtain ⟨type, s₁, hnamed, h⟩ := bind_eq_ok.1 h
  obtain ⟨hadds, hmem, hentry⟩ := named_run (fun _ r => typed_typeOfReference
    ⟨path.types ++ [Text.typeIdentifier found.name], path.inlines⟩ r) hs hnamed
  obtain ⟨hnameless, hcomplete⟩ := hentry found.found
  have hgrows : Grows table path.types s s₁ := ⟨hadds, hcomplete (find_eq_ok hfound)⟩
  split at h
  · rename_i hsome
    obtain ⟨rfl, rfl⟩ := pure_eq_ok.1 h
    refine ⟨hgrows, fun n hn => ?_⟩
    cases hn
    exact hmem hsome
  · rename_i hnone
    obtain ⟨_, _, hget, h⟩ := bind_eq_ok.1 h
    cases hget
    cases hlookup : s₁.inlines.lookup found.name with
    | some known =>
      rw [hlookup] at h
      obtain ⟨rfl, rfl⟩ := pure_eq_ok.1 h
      exact ⟨hgrows, hgrows.good.known _ (mem_of_lookup hlookup)⟩
    | none =>
      rw [hlookup] at h
      dsimp only at h
      split at h
      · cases h
      · rename_i hmem
        obtain ⟨expression, s₂, htype, h⟩ := bind_eq_ok.1 h
        obtain ⟨_, s₃, hmodify, h⟩ := bind_eq_ok.1 h
        obtain ⟨rfl, rfl⟩ := pure_eq_ok.1 h
        cases hmodify
        obtain ⟨hgrows', hknown⟩ := typed_typeWith (fun r => typed_typeOfReference
          ⟨path.types, path.inlines ++ [found.name]⟩ r) found.schema hgrows.good htype
        refine ⟨hgrows.trans ⟨⟨⟨hgrows'.good.ordered, fun e he => ?_, fun e he tree hentry => ?_⟩,
          hgrows'.added⟩, hgrows'.complete⟩, hknown⟩
        · rcases List.mem_append.1 he with he | he
          · exact hgrows'.good.known e he
          · rw [List.mem_singleton.1 he]
            exact hknown
        · rcases List.mem_append.1 he with he | he
          · exact hgrows'.good.nameless e he tree hentry
          · rw [List.mem_singleton.1 he] at hentry
            cases found.found.symm.trans hentry
            exact hnameless (by simpa using hnone)
termination_by unvisited (typeNames table) path.types + unvisited (names table) path.inlines
decreasing_by
  · have := unvisited_append_lt (mem_typeNames found.found) ‹_›
    omega
  · have := unvisited_append_lt (mem_names found.found) ‹_›
    omega

/-- The type expression of a schema or reference mentions types that have been compiled. -/
theorem typed_typeOf (t : Tree) : Typed table [] (typeOf table t) :=
  typed_typeWith (fun r => typed_typeOfReference ⟨[], []⟩ r) t

/-! ## The table -/

theorem good_start : Good table .start := ⟨.nil, nofun, nofun⟩

/-- What compiling one entry does: it has a type if it makes one. -/
theorem entry_run {name : String} {schema : Tree} {r : Option NamedType} (hs : Good table s)
    (h : entry table name schema s = (.ok r, s')) :
    Adds table [] s s' ∧ (table.get? name = some schema →
      Text.typeIdentifier name ∈ s'.types.map (·.name) ∨ Nameless table schema) := by
  obtain ⟨hadds, hmem, hentry⟩ := named_run (fun _ r =>
    typed_typeOfReference ⟨[Text.typeIdentifier name], []⟩ r) hs h
  refine ⟨hadds, fun hname => ?_⟩
  cases r with
  | none => exact .inr ((hentry hname).1 rfl)
  | some type => exact .inl (hmem rfl)

theorem entries_run : ∀ {es : Entries} {u : Unit} {s s' : State}, Good table s →
    entries table es s = (.ok u, s') → Adds table [] s s' ∧
      ∀ n tree, (.text n, tree) ∈ es → table.get? n = some tree → Reference.ofTree? tree = none →
        Text.typeIdentifier n ∈ s'.types.map (·.name) ∨ Nameless table tree
  | [], _, _, _, hs, h => by
    obtain ⟨-, rfl⟩ := pure_eq_ok.1 h
    exact ⟨(Grows.refl hs).toAdds, fun _ _ h => absurd h List.not_mem_nil⟩
  | (key, schema) :: es, _, s, s', hs, h => by
    rw [entries.eq_def] at h
    dsimp only at h
    split at h
    · cases key with
      | text name =>
        obtain ⟨r, s₁, hentry, h⟩ := bind_eq_ok.1 h
        obtain ⟨hadds, hfilled⟩ := entry_run hs hentry
        obtain ⟨hrest, hall⟩ := entries_run hadds.good h
        refine ⟨hadds.trans hrest, fun n tree hmem hname href => ?_⟩
        rcases List.mem_cons.1 hmem with heq | hmem
        · cases heq
          exact (hfilled hname).imp_left hrest.mem
        · exact hall n tree hmem hname href
      | _ => cases h
    · rename_i hreference
      obtain ⟨hadds, hall⟩ := entries_run hs h
      refine ⟨hadds, fun n tree hmem hname href => ?_⟩
      rcases List.mem_cons.1 hmem with heq | hmem
      · cases heq
        simp [Reference.isReference, href] at hreference
      · exact hall n tree hmem hname href

/-- Compiling a table gives types in order, one for every schema that makes one. -/
theorem all_run {types : List NamedType} (h : all table .start = (.ok types, s)) :
    Good table s ∧ s.types = types ∧ Complete table s.types := by
  obtain ⟨_, s₁, hentries, h⟩ := bind_eq_ok.1 h
  obtain ⟨_, _, hget, h⟩ := bind_eq_ok.1 h
  cases hget
  obtain ⟨rfl, rfl⟩ := pure_eq_ok.1 h
  obtain ⟨hadds, hall⟩ := entries_run good_start hentries
  exact ⟨hadds.good, rfl, fun n tree hname href =>
    hall n tree (Entries.mem_of_at? hname) hname href⟩

end ApiContract.Compile
