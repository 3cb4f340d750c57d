import ApiContract.Proofs.Naming.Outcome
import ApiContract.Proofs.Naming.Unfolding

/-!
# Naming can be undone

`restore anywhere n o`: the outcome of naming with its references to the given names unfolded, and without
the schemas under those names.

* `unfold_table`: the schemas that were in the table unfold to what they were.
* `restore_nameSchemas`: the names that are given are new, they follow the names that were there in the
  table, and without them the description is again what it was.
* `nameSchemas_again`: a second run starts with a table that naming is done with (`calm_start`); it ends well,
  gives no names and leaves the description as it is.
-/

namespace ApiContract.Naming

open Tree

variable {anywhere : Bool} {held : String → Option Tree} {given : String → Tree → Prop} {st : Stand}
  {es es' : Entries} {t : Tree} {s : State}

/-- A map with what is under a key replaced. -/
def under (key : String) (f : Tree → Tree) : Tree → Tree
  | .map a es =>
    match Entries.get? es key with
    | some x => .map a (Entries.set es key (f x))
    | none => .map a es
  | t => t

/-- A map without some keys. -/
def without (names : List String) : Tree → Tree
  | .map a es => .map a (es.filter fun e => e.1 ∉ names.map Scalar.text)
  | t => t

/-- The schema under a name that was given. -/
def given? (o : Outcome) (name : String) : Option Tree :=
  if name ∈ o.created then (schemas? o.document).bind (Tree.get? · name) else none

/-- A named description with every reference to a given name unfolded and without the schemas under
those names. -/
def restore (anywhere : Bool) (n : Nat) (o : Outcome) : Tree :=
  under "components" (under "schemas" (without o.created))
    (unfold anywhere (given? o) n .document o.document)

/-- The keys of the table of schemas. -/
def schemaKeys (t : Tree) : List Scalar :=
  (((schemas? t).bind Tree.entries?).getD []).keys

theorem under_eq_self {key : String} {f : Tree → Tree} (h : ∀ x, t.get? key = some x → f x = x) :
    under key f t = t := by
  cases t with
  | map a es =>
    rw [under]
    split
    · rename_i x hx
      rw [h x hx, Entries.set, Entries.put_self hx]
    · rfl
  | _ => rfl

theorem without_nil (t : Tree) : without [] t = t := by
  cases t <;> simp [without]

theorem without_withSchemas (names : List String) (es comps table : Entries) :
    under "components" (under "schemas" (without names)) (withSchemas es comps table) =
      withSchemas es comps (table.filter fun e => e.1 ∉ names.map Scalar.text) := by
  simp [withSchemas, under, without, Entries.set, Entries.get?_eq_at?, Entries.put_put]

/-! ## The table -/

theorem Valid.keys_nodup (hv : Valid s) : s.keys.Nodup := by
  rw [State.keys]
  cases ht : s.table with
  | none => exact List.nodup_nil
  | some u =>
    cases u with
    | map a es => exact (plain_map.1 (hv.plain _ ht)).2.1.nodup
    | _ => exact List.nodup_nil

/-- The names that are given are new and follow those that were there. -/
theorem Ends.names_new {o : Outcome} (he : Ends t o s) : o.created.Nodup ∧
    (∀ name ∈ o.created, .text name ∉ schemaKeys t) ∧
    s.keys = schemaKeys t ++ o.created.map .text := by
  obtain ⟨names, hc, hk⟩ := he.later.grows
  have ho : o.created = names := by
    rw [he.created, hc, start, List.append_nil, List.reverse_reverse]
  have hn := he.valid.keys_nodup
  rw [hk, List.nodup_append] at hn
  rw [ho]
  exact ⟨hn.2.1.of_map _, fun name hm hkey => hn.2.2 _ hkey _ (List.mem_map_of_mem hm) rfl, hk⟩

/-- The entries that were there unfold to what they were, and the others have names that were given. -/
theorem unfold_table {o : Outcome} {table first : Entries} (he : Ends t o s) (hp : Plain (.map none first))
    (htable : s.table = some (.map none table)) (hfirst : (start t).Has first)
    (hheld : ∀ name x, s.Held name x → held name = some x)
    (hc : ∀ e ∈ first, Clear anywhere held .inline e.2) :
    ∃ N, ∀ n ≥ N, (table.map fun e => (e.1, unfold anywhere held n .inline e.2)).filter
      (fun e => e.1 ∉ o.created.map Scalar.text) = first := by
  obtain ⟨-, hd, hpl⟩ := plain_map.1 hp
  obtain ⟨-, hnew, hk⟩ := he.names_new
  have hkeys : schemaKeys t = first.keys := hfirst.keys
  rw [State.Has.keys (.inl htable), hkeys] at hk
  obtain ⟨old, new, rfl, hold, hadded⟩ := List.map_eq_append_iff.1 hk
  obtain ⟨N, hN⟩ := unfold_entries anywhere held (f := fun _ => .inline) hd.nodup hold
    fun k x x' hx hx' => by
      have hclear := hc _ (Entries.mem_of_at? hx)
      obtain ⟨y, hy, hn⟩ := he.later.entry k x ((hfirst.entry? k).trans hx)
      rw [State.Has.entry? (.inl htable), Entries.at?_append, hx', Option.some_or] at hy
      cases hy
      rcases hn with rfl | hn
      · exact ⟨0, fun n _ => hclear.unfold n⟩
      · simp only [← unfold_own]
        exact hn.unfold hheld (hpl _ (Entries.mem_of_at? hx)).2 (Clear.own.2 hclear)
  refine ⟨N, fun n hn => ?_⟩
  rw [List.map_append, List.filter_append, hN n hn, List.filter_eq_self.2, List.filter_eq_nil_iff.2,
    List.append_nil]
  · intro e hm
    obtain ⟨e, hm', rfl⟩ := List.mem_map.1 hm
    have hname : e.1 ∈ o.created.map Scalar.text := hadded ▸ List.mem_map_of_mem hm'
    exact fun hnot => of_decide_eq_true hnot hname
  · intro e hm
    refine decide_eq_true fun hm' => ?_
    obtain ⟨name, hname, heq⟩ := List.mem_map.1 hm'
    exact hnew name hname (hkeys ▸ heq ▸ List.mem_map_of_mem hm)

/-! ## The description -/

theorem has_of_later {table : Entries} (hl : Later (start t) s) (hv : Valid (start t))
    (htable : s.table = some (.map none table)) : ∃ first, (start t).Has first := by
  cases hu : (start t).table with
  | none => exact ⟨[], .inr ⟨hu, rfl⟩⟩
  | some u =>
    have hm : u.isMap = true := by
      rcases hl.table with hsame | ⟨hm, -⟩
      · rw [htable, hu] at hsame
        cases hsame
        rfl
      · exact hm u hu
    obtain ⟨first, rfl⟩ := (hv.plain u hu).eq_map hm
    exact ⟨first, .inl hu⟩

/-- A table with schemas under new names is a reference only where the first table is one. -/
theorem referred?_table {table first : Entries} (hl : Later (start t) s) (hv : Valid s)
    (htable : s.table = some (.map none table)) (hfirst : (start t).Has first) :
    referred? (.map none table) = referred? (.map none first) := by
  have hhas : s.Has table := .inl htable
  rw [referred?, referred?, Reference.ofTree?_map, Reference.ofTree?_map]
  cases hx : first.at? (.text "$ref") with
  | some x =>
    obtain ⟨y, hy, hn⟩ := hl.entry _ x ((hfirst.entry? _).trans hx)
    rw [hhas.entry?] at hy
    rw [hy, Option.bind_some, Option.bind_some]
    rcases hn with rfl | hn
    · rfl
    · rw [hn.text?]
  | none =>
    cases hy : table.at? (.text "$ref") with
    | none => rfl
    | some y =>
      obtain ⟨names, hc, hk⟩ := hl.grows
      rw [hhas.keys, hfirst.keys] at hk
      have hm : .text "$ref" ∈ first.keys ++ names.map Scalar.text :=
        hk ▸ List.mem_map_of_mem (Entries.mem_of_at? hy)
      rcases List.mem_append.1 hm with hm | hm
      · exact absurd hm (Entries.at?_eq_none.1 hx)
      · obtain ⟨name, hname, heq⟩ := List.mem_map.1 hm
        have hcreated : "$ref" ∈ s.created := by
          rw [hc, ← Scalar.text.inj heq]
          exact List.mem_append_left _ (List.mem_reverse.2 hname)
        have hmap := (hv.given _ y ⟨hcreated, (hhas.entry? _).trans hy⟩).isMap
        cases y with
        | map => rfl
        | _ => cases hmap

/-- What is held of the trees that naming takes from a description. -/
theorem clear_first {first : Entries} (hfirst : (start t).Has first) (hp : Plain t)
    (hc : Clear anywhere held .document t) : Clear anywhere held (.object (.mapOf .schema)) (.map none first) := by
  rcases hfirst with hu | ⟨-, rfl⟩
  · obtain ⟨x, hx, hu⟩ := Option.bind_eq_some_iff.1 (hu : schemas? t = _)
    cases t with
    | map a es =>
      have hpx := ((plain_map.1 hp).2.2 _ (Entries.mem_of_at? hx)).2
      have hcx : Clear anywhere held (.object .components) x := hc.entry (Entries.mem_of_at? hx)
      cases x with
      | map b comps => exact hcx.entry (Entries.mem_of_at? hu)
      | _ => cases hu
    | _ => cases hx
  · intro name hm
    rw [references_map, refers?] at hm
    split at hm <;> exact absurd hm List.not_mem_nil

/-- Naming makes a description that is a map of one that is a map. -/
theorem Names.of_document (hn : Names given .document t (.map none es')) :
    ∃ es : Entries, t = .map none es ∧ es'.keys = es.keys ∧ ∀ k x x', es.at? k = some x →
      es'.at? k = some x' → Names given (Stand.part .document [] k) x x' := by
  cases hn with
  | same h => cases h
  | @map _ _ es _ _ hk hes => exact ⟨es, rfl, hk, hes⟩

section

variable (hheld : ∀ name x, given name x → held name = some x)

theorem Names.refers_none (hst : st ≠ .inline) (hn : Names given st (.map none es) (.map none es'))
    (hc : Clear anywhere held st (.map none es)) :
    (refers? anywhere st (.map none es')).bind held = none := by
  cases hn with
  | same => exact hc.refers
  | moved => exact absurd rfl hst
  | map _ hk hes => rw [refers?_congr (referred?_of_names hk hes), hc.refers]

include hheld in
theorem Names.unfold_entries (hst : st ≠ .inline) (hn : Names given st (.map none es) (.map none es'))
    (hp : Plain (.map none es)) (hc : Clear anywhere held st (.map none es)) :
    ∃ N, ∀ n ≥ N, es'.map (fun e => (e.1, Naming.unfold anywhere held n (st.reads es' e.1) e.2)) = es := by
  obtain ⟨N, hN⟩ := hn.unfold hheld hp hc
  refine ⟨N, fun n hn' => ?_⟩
  have h := hN (n + 1) (Nat.le_succ_of_le hn')
  rw [unfold_map (hn.refers_none hst hc)] at h
  exact (Tree.map.inj h).2

/-- A map unfolds with another value under a key. -/
theorem unfold_set {n : Nat} {key : String} (hkey : key ≠ "$ref")
    (hst : ∀ es es' k, st.reads es k = st.reads es' k)
    (hr : (refers? anywhere st (.map none es')).bind held = none)
    (hes : es'.map (fun e => (e.1, unfold anywhere held n (st.reads es' e.1) e.2)) = es) (x : Tree) :
    unfold anywhere held (n + 1) st (.map none (es'.set key x)) =
      .map none (es.set key (unfold anywhere held n (st.reads [] (.text key)) x)) := by
  have href : (es'.set key x).at? (.text "$ref") = es'.at? (.text "$ref") :=
    Entries.at?_put_ne (by simpa using hkey.symm) x es'
  have hr' : (refers? anywhere st (.map none (es'.set key x))).bind held = none := by
    rw [refers?_congr (referred?_congr href), hr]
  rw [unfold_map hr']
  simp only [hst _ []] at hes ⊢
  rw [Entries.set, Entries.map_put fun k => unfold anywhere held n (st.reads [] k), hes]
  rfl

include hheld in
/-- The components unfold to what they were, whatever is read as their table. -/
theorem exists_components {es es' comps' : Entries} (hkeys : es'.keys = es.keys)
    (hes : ∀ k x x', es.at? k = some x → es'.at? k = some x' →
      Names given (Stand.part .document [] k) x x')
    (hp : Plain (.map none es)) (hc : Clear anywhere held .document (.map none es))
    (hcomps : es'.at? (.text "components") = some (.map none comps') ∨
      es'.at? (.text "components") = none ∧ comps' = []) : ∃ comps : Entries,
    (es.at? (.text "components") = some (.map none comps) ∨
      es.at? (.text "components") = none ∧ comps = []) ∧
    ∃ N, ∀ n ≥ N, ∀ x, unfold anywhere held (n + 1) (.object .components) (.map none (comps'.set "schemas" x)) =
      .map none (comps.set "schemas" (unfold anywhere held n (.object (.mapOf .schema)) x)) := by
  rcases hcomps with hx' | ⟨hx', rfl⟩
  · obtain ⟨x, hx⟩ := Entries.exists_at?_of_keys_eq hkeys.symm hx'
    have hm := Entries.mem_of_at? hx
    have hn : Names given (.object .components) x (.map none comps') := hes _ x _ hx hx'
    have hpx := ((plain_map.1 hp).2.2 _ hm).2
    have hcx : Clear anywhere held (.object .components) x := hc.entry hm
    obtain ⟨comps, rfl⟩ : ∃ comps, x = .map none comps := by
      refine hpx.eq_map ?_
      cases hn <;> rfl
    obtain ⟨N, hN⟩ := hn.unfold_entries hheld (by decide) hpx hcx
    exact ⟨comps, .inl hx, N, fun n hn' x => unfold_set (by decide) (fun _ _ _ => rfl)
      (hn.refers_none (by decide) hcx) (hN n hn') x⟩
  · refine ⟨[], .inr ⟨(Entries.at?_eq_none_congr hkeys).1 hx', rfl⟩, 0, fun n _ x =>
      unfold_set (by decide) (fun _ _ _ => rfl) ?_ rfl x⟩
    rw [refers?]
    split <;> rfl

end

/-- A description, up to an empty table of schemas where it has none. -/
def UpToTable (t u : Tree) : Prop :=
  u = t ∨ schemas? t = none ∧ u = withTable .map (some (.map none [])) t

theorem upToTable_withSchemas {es comps first : Entries} (hfirst : (start (.map none es)).Has first)
    (hcomps : es.at? (.text "components") = some (.map none comps) ∨
      es.at? (.text "components") = none ∧ comps = []) :
    UpToTable (.map none es) (withSchemas es comps first) := by
  have hget : (Tree.map none es).get? "components" = es.at? (.text "components") := rfl
  have hu : schemas? (.map none es) = some (.map none first) ∨ schemas? (.map none es) = none ∧ first = [] :=
    hfirst
  rcases hu with hu | ⟨hu, rfl⟩
  · rcases hcomps with hx | ⟨hx, -⟩
    · have hs : comps.at? (.text "schemas") = some (.map none first) := by
        rw [← hu, schemas?, hget, hx]
        rfl
      refine .inl ?_
      simp only [withSchemas, Entries.set, Entries.put_self hs, Entries.put_self hx]
    · rw [schemas?, hget, hx] at hu
      cases hu
  · refine .inr ⟨hu, ?_⟩
    rcases hcomps with hx | ⟨hx, rfl⟩ <;> simp only [withTable, Entries.get?_eq_at?, hx] <;> rfl

/-- What naming ends with unfolds to the description. -/
theorem Ends.unfold {o : Outcome} (he : Ends t o s) (hp : Plain t)
    (hheld : ∀ name x, s.Held name x → held name = some x) (hc : Clear anywhere held .document t) :
    ∃ u, UpToTable t u ∧ ∃ N, ∀ n ≥ N, under "components" (under "schemas" (without o.created))
      (unfold anywhere held n .document o.document) = u := by
  obtain ⟨t', hn, hj⟩ := he.joined hp
  cases hj with
  | alone hout hcreated _ =>
    obtain ⟨N, hN⟩ := hn.unfold hheld hp hc
    have ho : o.created = [] := by rw [he.created, hcreated, List.reverse_nil]
    refine ⟨t, .inl rfl, N, fun n hn => ?_⟩
    rw [hout, hN n hn, ho]
    exact under_eq_self fun _ _ => under_eq_self fun _ _ => without_nil _
  | @table es' comps' table ht' htable hcomps hout =>
    subst ht'
    obtain ⟨first, hfirst⟩ := has_of_later he.later (valid_start hp) htable
    have hcfirst := clear_first hfirst hp hc
    have hrtable : (refers? anywhere (.object (.mapOf .schema)) (.map none table)).bind held = none := by
      rw [refers?_congr (referred?_table he.later he.valid htable hfirst), hcfirst.refers]
    have hpfirst : Plain (.map none first) := by
      rcases hfirst with hu | ⟨-, rfl⟩
      · exact plain_table hp hu
      · simp [Distinct]
    obtain ⟨es, rfl, hkeys, hes⟩ := hn.of_document
    obtain ⟨N₁, h₁⟩ := hn.unfold_entries hheld (by decide) hp hc
    obtain ⟨comps, hcomps, N₂, h₂⟩ := exists_components hheld hkeys hes hp hc hcomps
    obtain ⟨N₃, h₃⟩ := unfold_table he hpfirst htable hfirst hheld fun e hm => hcfirst.entry hm
    refine ⟨_, upToTable_withSchemas hfirst hcomps, exists_from_succ <| exists_from_succ <|
      exists_from_succ ⟨max N₁ (max N₂ N₃), fun n hmax => ?_⟩⟩
    have hdocument :=
      unfold_set (show "components" ≠ "$ref" by decide) (fun _ _ _ => rfl) (hn.refers_none (by decide) hc)
      (h₁ (n + 2) (by omega))
    have htable' : Naming.unfold anywhere held (n + 1) (.object (.mapOf .schema)) (.map none table) =
        .map none (table.map fun e => (e.1, Naming.unfold anywhere held n .inline e.2)) := unfold_map hrtable
    have hcomponents := h₂ (n + 1) (by omega) (.map none table)
    rw [htable'] at hcomponents
    have hwhole : Naming.unfold anywhere held (n + 3) .document (withSchemas es' comps' table) =
        withSchemas es comps (table.map fun e => (e.1, Naming.unfold anywhere held n .inline e.2)) :=
      (hdocument _).trans (congrArg (Tree.map none <| es.set "components" ·) hcomponents)
    rw [hout, hwhole, without_withSchemas, h₃ n (by omega)]

theorem Ends.schemaKeys {o : Outcome} (he : Ends t o s) (hp : Plain t) :
    schemaKeys o.document = schemaKeys t ++ o.created.map Scalar.text := by
  obtain ⟨-, -, hk⟩ := he.names_new
  obtain ⟨t', hn, hj⟩ := he.joined hp
  cases hj with
  | alone hout hcreated _ =>
    rw [he.created, hcreated, hout, Naming.schemaKeys, hn.schemas]
    exact (List.append_nil _).symm
  | table _ htable _ hout => rw [← hk, hout, Naming.schemaKeys, schemas?_withSchemas, State.keys, htable]

theorem Ends.given? {o : Outcome} (he : Ends t o s) (hp : Plain t) {name : String} {x : Tree}
    (hx : s.Held name x) : given? o name = some x := by
  obtain ⟨hname, hx⟩ := hx
  have hm : name ∈ o.created := by
    rw [he.created]
    exact List.mem_reverse.2 hname
  obtain ⟨t', -, hj⟩ := he.joined hp
  cases hj with
  | alone _ hcreated _ =>
    rw [hcreated] at hname
    cases hname
  | @table es comps table _ htable _ hout =>
    rw [State.Has.entry? (.inl htable)] at hx
    rw [Naming.given?, if_pos hm, hout, schemas?_withSchemas]
    exact hx

/-- Naming can be undone. The names that are given are new and follow the names of the table in the order
in which they were given; and if every reference into the table of the description leads to an entry of
it, then the outcome, with its references to the given names unfolded and without their schemas, is the
description, but for an empty table where it had none. -/
theorem restore_nameSchemas (hp : Plain t) (anywhere : Bool)
    (hrefs : ∀ name ∈ references anywhere t .document, .text name ∈ schemaKeys t)
    (h : (nameSchemas t).result = .ok ()) :
    (nameSchemas t).created.Nodup ∧
    (∀ name ∈ (nameSchemas t).created, .text name ∉ schemaKeys t) ∧
    schemaKeys (nameSchemas t).document =
      schemaKeys t ++ (nameSchemas t).created.map Scalar.text ∧
    ∃ u, UpToTable t u ∧ ∃ N, ∀ n ≥ N, restore anywhere n (nameSchemas t) = u := by
  obtain ⟨s, he⟩ := ends_nameSchemas hp h
  obtain ⟨hnodup, hnew, -⟩ := he.names_new
  have hclear : Clear anywhere (given? (nameSchemas t)) .document t := fun name hm =>
    if_neg fun hname => hnew name hname (hrefs name hm)
  exact ⟨hnodup, hnew, he.schemaKeys hp, he.unfold hp (fun _ _ => he.given? hp) hclear⟩

/-- A description with an inline schema that has a reference and another inline schema in it. -/
def sampleNested : Tree :=
  Tree.object [
    ("components", Tree.object [("schemas", Tree.object [
      ("Pet", Tree.object [("type", .text "string")])])]),
    ("paths", Tree.object [("/pets", Tree.object [("post", Tree.object [
      ("operationId", .text "addPet"),
      ("requestBody", Tree.object [("content", Tree.object [("application/json", Tree.object [
        ("schema", Tree.object [
          ("type", .text "object"),
          ("properties", Tree.object [
            ("pet", Reference.asTree "#/components/schemas/Pet"),
            ("cage", Tree.object [("type", .text "string"), ("enum", Tree.array [.text "big"])])])])])])])])])])]

theorem restore_sampleNested :
    (nameSchemas sampleNested).created = ["AddPetJsonRequestBodyCage", "AddPetJsonRequestBody"] ∧
      ∃ u, UpToTable sampleNested u ∧ ∃ N, ∀ n ≥ N, restore true n (nameSchemas sampleNested) = u := by
  have hcreated : (nameSchemas sampleNested).created =
      ["AddPetJsonRequestBodyCage", "AddPetJsonRequestBody"] := by decide +kernel
  have hp : Plain sampleNested := by simp [sampleNested, Tree.array, Scalar.anchor]
  exact ⟨hcreated, (restore_nameSchemas hp true (by decide +kernel)
    (eq_ok_of_toOption (by decide +kernel))).2.2.2⟩

example : restore true 12 (nameSchemas sampleNested) = sampleNested := by decide +kernel

/-! ## Naming a second time -/

section

open Edit

variable {o : Outcome}

/-- The table that a description has is put back in its place. -/
theorem withTable_start (t : Tree) : withTable (start t).home (start t).table t = t := by
  rw [start_home]
  cases t with
  | map a es =>
    show withTable (((Entries.get? es "components").map Tree.isMap).elim .absent (bif · then .map else .other))
      ((Entries.get? es "components").bind (Tree.get? · "schemas")) _ = _
    simp only [withTable]
    cases hx : Entries.get? es "components" with
    | none => rfl
    | some c =>
      cases c with
      | map b comps =>
        dsimp only [Option.map_some, Option.elim_some, Option.bind_some, Tree.get?, Tree.isMap, Tree.entries?]
        cases hy : Entries.get? comps "schemas" with
        | none => rfl
        | some table =>
          rw [Entries.get?_eq_at?] at hx hy
          show Tree.map a (Entries.put _ (.map b (Entries.put _ table comps)) es) = _
          rw [Entries.put_self hy, Entries.put_self hx]
      | _ => rfl
  | _ => rfl

/-- Naming is done with the table of the description that it ends with. -/
theorem Ends.settled_start (he : Ends t o s) (hp : Plain t) : Settled (fun _ => False) (start o.document) := by
  obtain ⟨t', hn, hj⟩ := he.joined hp
  have hentries : ∀ k x, State.entry? (start o.document) k = some x → s.entry? k = some x := by
    intro k x hx
    -- The second run starts with the table that the first one has ended with, if the description has one.
    have hstart : State.entry? (start o.document) k =
        ((schemas? o.document).bind Tree.entries?).bind (Entries.at? k) := rfl
    rw [hstart] at hx
    cases hj with
    | alone hout _ hno =>
      rw [hout, hn.schemas, hno] at hx
      cases hx
    | table _ htable _ hout =>
      rw [hout, schemas?_withSchemas] at hx
      rw [State.entry?, htable]
      exact hx
  exact fun k x hx => he.settled k x (hentries k x hx)

theorem Ends.calm_start (he : Ends t o s) (hp : Plain t) : Calm (start o.document) :=
  ⟨valid_start he.plain, he.settled_start hp⟩

/-- Nothing becomes of a description in which naming is done with the table and with all else. -/
theorem nameSchemas_of_stays (hp : Plain t) (hcalm : Calm (start t)) (h : Stays document t) :
    (nameSchemas t).result = .ok () ∧ (nameSchemas t).created = [] ∧ (nameSchemas t).document = t := by
  obtain ⟨notices, hrun⟩ := h _ hcalm
  have hpresent : presentTable { start t with notices := notices } =
      ((start t).table, { start t with notices := notices }) := presentTable_run rfl
  rw [nameSchemas_eq, bind_of_run hrun, bind_of_run hpresent]
  refine ⟨rfl, rfl, ?_⟩
  show (withTable (start t).home (start t).table t).settle ((((withTable (start t).home (start t).table t).getD
    "components").getD "schemas").recordIn (((withTable (start t).home (start t).table t).getD
    "components").recordIn [])) = t
  rw [withTable_start, recordIn_plain (plain_getD (plain_getD hp _) _), recordIn_plain (plain_getD hp _)]
  rfl

/-- Naming is idempotent: where it ends well, a second run ends well, gives no names and leaves the
description as it is. -/
theorem nameSchemas_again (hp : Plain t) (h : (nameSchemas t).result = .ok ()) :
    (nameSchemas (nameSchemas t).document).result = .ok () ∧
      (nameSchemas (nameSchemas t).document).created = [] ∧
      (nameSchemas (nameSchemas t).document).document = (nameSchemas t).document := by
  obtain ⟨s, he⟩ := ends_nameSchemas hp h
  exact nameSchemas_of_stays he.plain (he.calm_start hp) he.stays

theorem nameSchemas_again_sampleNested :
    (nameSchemas (nameSchemas sampleNested).document).result = .ok () ∧
      (nameSchemas (nameSchemas sampleNested).document).created = [] ∧
      (nameSchemas (nameSchemas sampleNested).document).document = (nameSchemas sampleNested).document :=
  nameSchemas_again (by simp [sampleNested, Tree.array, Scalar.anchor]) (eq_ok_of_toOption (by decide +kernel))

end

end ApiContract.Naming
