import ApiContract.Proofs.Compile.Agreement
import ApiContract.Proofs.Naming.Restore
import ApiContract.Proofs.Reference.Name

/-!
# Following the references that naming writes

Where naming moves a schema into the table, a reference takes its place. `Written o name x`: such a reference is
read as the name, and the compiler finds `x` under it, unless the name is empty, which no reference can name. So
the references of a naming run lead to the schemas that they took the place of (`written_nameSchemas`).
-/

namespace ApiContract.Naming

open Tree

variable {s : State} {t : Tree} {o : Outcome} {name : String} {x : Tree}

/-- A reference to the schema of a name is read as the name, and the compiler finds a schema there. -/
structure Followed (table : Entries) (n : String) (x : Tree) : Prop where
  read : Reference.schemaName (Reference.toSchema n) = .ok n
  found : (Compile.find table (Reference.toSchema n)).map (fun f => (f.name, f.schema)) = .ok (n, x)

theorem followed_of_get? {table : Entries} (hname : name ≠ "") (hx : table.get? name = some x)
    (hm : x.isMap = true) (hdirect : Reference.ofTree? x = none) : Followed table name x := by
  refine ⟨Reference.schemaName_toSchema hname, ?_⟩
  have hne : x ≠ .null := by
    rintro rfl
    cases hm
  rw [Compile.find_map, Compile.entryOf, Reference.schemaName_toSchema hname]
  simp only [bind, Except.bind, hx, if_neg hne, hdirect]
  rfl

/-- A name that was made up, and the schema that the table has under it. Unless the name is empty, the reference to it
can be followed. -/
structure Written (o : Outcome) (n : String) (x : Tree) : Prop where
  created : n ∈ o.created
  followed : n ≠ "" → ∃ table, Compilation.schemaTable o.document = .ok table ∧ Followed table n x

theorem Ends.written (he : Ends t o s) (hp : Plain t) (hx : s.Held name x) : Written o name x := by
  have hgiven := he.valid.given name x hx
  have hat := he.given? hp hx
  rw [Naming.given?] at hat
  split at hat
  · rename_i hcreated
    refine ⟨hcreated, fun hname => ?_⟩
    obtain ⟨u, hu, hx⟩ := Option.bind_eq_some_iff.1 hat
    cases u with
    | map a table =>
      exact ⟨table, schemaTable_of_schemas? hu, followed_of_get? hname hx hgiven.isMap hgiven.direct⟩
    | _ => cases hx
  · cases hat

theorem State.entry?_of_key {k : Scalar} (h : k ∈ s.keys) : ∃ x, s.entry? k = some x := by
  rw [State.keys] at h
  rw [State.entry?]
  cases htable : s.table.bind Tree.entries? with
  | none =>
    rw [htable] at h
    cases h
  | some es =>
    rw [htable] at h
    exact Option.ne_none_iff_exists'.1 fun hnone => Entries.at?_eq_none.1 hnone h

theorem Ends.exists_held (he : Ends t o s) (hname : name ∈ o.created) : ∃ x, s.Held name x := by
  obtain ⟨-, -, hk⟩ := he.names_new
  obtain ⟨x, hx⟩ := State.entry?_of_key (s := s) (k := .text name)
    (hk ▸ List.mem_append_right _ (List.mem_map_of_mem hname))
  rw [he.created, List.mem_reverse] at hname
  exact ⟨x, hname, hx⟩

/-- What the table has in the end under a key that it had before. -/
theorem Ends.entry_tableOf (he : Ends t o s) (hp : Plain t) {k : Scalar} (hx : (tableOf t).at? k = some x) :
    ∃ x', (tableOf o.document).at? k = some x' ∧ (x' = x ∨ Names (Written o) .own x x') := by
  obtain ⟨t', hn, hj⟩ := he.joined hp
  cases hj with
  | alone _ _ hno =>
    rw [tableOf, hno] at hx
    cases hx
  | @table es comps table _ htable _ hout =>
    have htables : tableOf o.document = table := by rw [tableOf, hout, schemas?_withSchemas]; rfl
    have hstart : State.entry? (start t) k = some x := by
      show ((schemas? t).bind Tree.entries?).bind (Entries.at? k) = _
      rw [tableOf] at hx
      cases hes : (schemas? t).bind Tree.entries? with
      | none =>
        rw [hes] at hx
        cases hx
      | some es =>
        rw [hes] at hx
        exact hx
    obtain ⟨x', hx', hnames⟩ := he.later.entry k x hstart
    rw [State.Has.entry? (.inl htable)] at hx'
    exact ⟨x', htables ▸ hx', hnames.imp_right (·.mono fun _ _ => he.written hp)⟩

/-- The references that naming writes can be followed. Every name that is made up stands in the table; whatever
naming has put in the place of a schema, in the description and in the schemas of its table, is a reference to such
a name, and unless the name is empty, the compiler reads it as the name and finds there what naming has made of
the schema. -/
theorem written_nameSchemas (hp : Plain t) (h : (nameSchemas t).result = .ok ()) :
    (∀ n ∈ (nameSchemas t).created, ∃ x, Written (nameSchemas t) n x) ∧
    (∃ t' home table, Names (Written (nameSchemas t)) .document t t' ∧
      (nameSchemas t).document = withTable home table t') ∧
    ∀ k x, (tableOf t).at? k = some x → ∃ x', (tableOf (nameSchemas t).document).at? k = some x' ∧
      (x' = x ∨ Names (Written (nameSchemas t)) .own x x') := by
  obtain ⟨s, he⟩ := ends_nameSchemas hp h
  have hwritten : ∀ n x, s.Held n x → Written (nameSchemas t) n x := fun _ _ => he.written hp
  refine ⟨fun n hn => ?_, ?_, fun k x => he.entry_tableOf hp⟩
  · obtain ⟨x, hx⟩ := he.exists_held hn
    exact ⟨x, hwritten n x hx⟩
  · obtain ⟨t', hn, hout⟩ := he.names
    exact ⟨t', _, _, hn.mono hwritten, hout⟩

theorem written_sampleNested :
    (∀ n ∈ ["AddPetJsonRequestBodyCage", "AddPetJsonRequestBody"], ∃ x, Written (nameSchemas sampleNested) n x) ∧
    ∃ t' home table, Names (Written (nameSchemas sampleNested)) .document sampleNested t' ∧
      (nameSchemas sampleNested).document = withTable home table t' := by
  have hcreated : (nameSchemas sampleNested).created =
      ["AddPetJsonRequestBodyCage", "AddPetJsonRequestBody"] := by decide +kernel
  have hp : Plain sampleNested := by simp [sampleNested, Tree.array, Scalar.anchor]
  obtain ⟨hwritten, hnames, -⟩ := written_nameSchemas hp (eq_ok_of_toOption (by decide +kernel))
  exact ⟨hcreated ▸ hwritten, hnames⟩

/-- A schema whose property has a schema that needs a name, with no letter or digit on the way to it. -/
def sampleMarks : Tree :=
  Tree.object [("components", Tree.object [("schemas", Tree.object [
    ("!", Tree.object [
      ("type", .text "object"),
      ("properties", Tree.object [("-", Tree.object [
        ("type", .text "object"),
        ("properties", Tree.object [("a", Tree.object [("type", .text "string")])])])])])])])]

/-- The empty name is made up, and the reference to it is one that the compiler refuses. -/
theorem find_sampleMarks :
    (nameSchemas sampleMarks).result = .ok () ∧ (nameSchemas sampleMarks).created = [""] ∧
      ∀ table, Compile.find table (Reference.toSchema "") =
        .error (.namesNoSchema (Reference.toSchema "")) := by
  refine ⟨eq_ok_of_toOption (by decide +kernel), by decide +kernel, fun table => ?_⟩
  rw [Compile.find, Reference.schemaName_toSchema_empty]
  rfl

end ApiContract.Naming
