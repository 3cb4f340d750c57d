import ApiContract.Proofs.Naming.Relation

/-!
# Unfolding the schemas that naming has moved

`unfold anywhere held n st t`: the tree that is read as `st`, with every reference to a schema that is
held replaced by that schema, and so on in what takes its place, down to `n` levels. With `anywhere`, a
map with a text under `$ref` is a reference wherever it stands, and otherwise only where naming may go.

* `Clear.unfold`: a tree that refers to no schema that is held stays as it is.
* `Names.unfold`: what naming has made of a tree unfolds to that tree.
-/

namespace ApiContract.Naming

open Tree

/-! ## References -/

/-- The name of the schema that a reference stands for, if it leads to an entry of the table. -/
def entryName? (reference : String) : Option String :=
  (Reference.schemaTable.toList.isPrefixOf? reference.toList).bind fun name =>
    if name.contains '/' then none else some (Reference.unescape (String.ofList name))

/-- The name of the schema that a tree refers to, if it is such a reference. -/
def referred? (t : Tree) : Option String :=
  (Reference.ofTree? t).bind entryName?

/-- The same, where references count: with `anywhere` everywhere, and otherwise where naming may go. -/
def refers? (anywhere : Bool) (st : Stand) (t : Tree) : Option String :=
  if anywhere || st ≠ .rest then referred? t else none

/-- As what the value under a key is read: as it is gone through, and the table of schemas as a map of
schemas. -/
def Stand.reads (st : Stand) (es : Entries) (key : Scalar) : Stand :=
  if st = .object .components ∧ key = .text "schemas" then .object (.mapOf .schema)
  else st.part es key

/-- The names of the schemas that a tree refers to. -/
def references (anywhere : Bool) (t : Tree) : Stand → List String :=
  t.para {
    scalar _ _ := []
    list _ items st := items.flatMap fun i => i.2 st.item
    map a entries st :=
      let es := entries.map fun e => (e.1, e.2.1)
      (refers? anywhere st (.map a es)).toList ++ entries.flatMap fun e => e.2.2 (st.reads es e.1)
    set _ _ _ := []
    pair x y _ := x.2 .rest ++ y.2 .rest
    back _ _ _ := [] }

/-- A tree with its parts replaced. -/
def parts (f : Stand → Tree → Tree) (st : Stand) : Tree → Tree
  | .map a es => .map a (es.map fun e => (e.1, f (st.reads es e.1) e.2))
  | .list a ts => .list a (ts.map (f st.item))
  | .pair x y => .pair (f .rest x) (f .rest y)
  | t => t

/-- A tree with its references to the schemas that are held unfolded down to a depth. -/
def unfold (anywhere : Bool) (held : String → Option Tree) : Nat → Stand → Tree → Tree
  | 0, _, t => t
  | n + 1, st, t =>
    match (refers? anywhere st t).bind held with
    | some x => unfold anywhere held n st x
    | none => parts (unfold anywhere held n) st t

variable {anywhere : Bool} {held : String → Option Tree} {given : String → Tree → Prop} {st : Stand}
  {a : Anchor} {es es' : Entries} {t t' : Tree}

theorem isPrefixOf?_append (r : List Char) : ∀ l : List Char, l.isPrefixOf? (l ++ r) = some r
  | [] => rfl
  | c :: l => by simp [List.isPrefixOf?, isPrefixOf?_append r l]

theorem referred?_toSchema (name : String) :
    referred? (Reference.asTree (Reference.toSchema name)) = some name := by
  have hslash : '/' ∉ (Reference.escape name).toList := fun h => (Reference.mem_escape h).1 rfl
  rw [referred?, Reference.ofTree?_asTree, Option.bind_some, entryName?, Reference.toSchema,
    String.toList_append, isPrefixOf?_append]
  simp [hslash, Reference.unescape_escape]

theorem referred?_congr (h : es'.at? (.text "$ref") = es.at? (.text "$ref")) :
    referred? (.map a es') = referred? (.map a es) := by
  rw [referred?, referred?, Reference.ofTree?_map, Reference.ofTree?_map, h]

theorem refers?_congr (h : referred? t' = referred? t) : refers? anywhere st t' = refers? anywhere st t := by
  rw [refers?, refers?, h]

theorem refers?_own (t : Tree) : refers? anywhere .own t = refers? anywhere .inline t := by
  simp [refers?]

theorem reads_own (es : Entries) : Stand.own.reads es = Stand.inline.reads es := rfl

/-- What is read as another thing than it is gone through stays as it is. -/
theorem Stand.reads_cases (st : Stand) (es : Entries) (k : Scalar) :
    st.reads es k = st.part es k ∨ st.part es k = .rest := by
  rw [Stand.reads]
  split
  · rename_i h
    obtain ⟨rfl, rfl⟩ := h
    exact .inr rfl
  · exact .inl rfl

theorem references_map : references anywhere (.map a es) st = (refers? anywhere st (.map a es)).toList ++
    es.flatMap fun e => references anywhere e.2 (st.reads es e.1) := by
  simp only [references, para, paraEntries_eq, List.map_map, Function.comp_def, List.map_id',
    List.flatMap_map]

theorem references_list (ts : List Tree) :
    references anywhere (.list a ts) st = ts.flatMap fun t => references anywhere t st.item := by
  simp only [references, para, paraItems_eq, List.flatMap_map]

theorem references_own (t : Tree) : references anywhere t .own = references anywhere t .inline := by
  cases t with
  | map => rw [references_map, references_map, refers?_own, reads_own]
  | list => rw [references_list, references_list]; rfl
  | _ => rfl

/-! ## Trees that refer to no schema that is held -/

/-- A tree refers to no schema that is held. -/
def Clear (anywhere : Bool) (held : String → Option Tree) (st : Stand) (t : Tree) : Prop :=
  ∀ name ∈ references anywhere t st, held name = none

theorem Clear.own : Clear anywhere held .own t ↔ Clear anywhere held .inline t := by
  rw [Clear, Clear, references_own]

theorem Clear.refers (h : Clear anywhere held st t) : (refers? anywhere st t).bind held = none := by
  cases hr : refers? anywhere st t with
  | none => rfl
  | some name =>
    refine h name ?_
    cases t with
    | map =>
      rw [references_map, hr]
      exact List.mem_append_left _ List.mem_cons_self
    | _ =>
      rw [refers?] at hr
      split at hr <;> cases hr

theorem Clear.entry (h : Clear anywhere held st (.map a es)) {e : Scalar × Tree} (he : e ∈ es) :
    Clear anywhere held (st.reads es e.1) e.2 := by
  intro name hm
  refine h name ?_
  rw [references_map]
  exact List.mem_append_right _ (List.mem_flatMap.2 ⟨e, he, hm⟩)

theorem Clear.item {ts : List Tree} (h : Clear anywhere held st (.list a ts)) {x : Tree} (hx : x ∈ ts) :
    Clear anywhere held st.item x := by
  intro name hm
  refine h name ?_
  rw [references_list]
  exact List.mem_flatMap.2 ⟨x, hx, hm⟩

theorem map_self {α : Type} {f : α → α} {l : List α} (h : ∀ x ∈ l, f x = x) : l.map f = l :=
  (List.map_congr_left h).trans (List.map_id l)

/-- A tree that refers to no schema that is held has nothing to unfold. -/
theorem Clear.unfold : ∀ (n : Nat) {st : Stand} {t : Tree}, Clear anywhere held st t →
    unfold anywhere held n st t = t
  | 0, _, _, _ => rfl
  | n + 1, st, t, h => by
    rw [Naming.unfold, h.refers]
    cases t with
    | map a es =>
      refine congrArg _ (map_self fun e he => ?_)
      rw [Clear.unfold n (h.entry he)]
    | list a ts => exact congrArg _ (map_self fun x hx => Clear.unfold n (h.item hx))
    | pair x y =>
      have hx : Clear anywhere held .rest x := fun name hm => h name (List.mem_append_left _ hm)
      have hy : Clear anywhere held .rest y := fun name hm => h name (List.mem_append_right _ hm)
      exact congrArg₂ _ (Clear.unfold n hx) (Clear.unfold n hy)
    | _ => rfl

/-! ## What naming has made -/

theorem unfold_own : ∀ (n : Nat) (t : Tree), unfold anywhere held n .own t = unfold anywhere held n .inline t
  | 0, _ => rfl
  | n + 1, t => by
    rw [unfold, unfold, refers?_own]
    split
    · exact unfold_own n _
    · cases t <;> rfl

theorem unfold_map {n : Nat} (h : (refers? anywhere st (.map a es)).bind held = none) :
    unfold anywhere held (n + 1) st (.map a es) =
      .map a (es.map fun e => (e.1, unfold anywhere held n (st.reads es e.1) e.2)) := by
  rw [unfold, h]
  rfl

theorem unfold_list (n : Nat) (ts : List Tree) : unfold anywhere held (n + 1) st (.list a ts) =
    .list a (ts.map (unfold anywhere held n st.item)) := by
  have hr : refers? anywhere st (.list a ts) = none := by
    rw [refers?]
    split <;> rfl
  rw [unfold, hr]
  rfl

/-- What holds of each from some number on holds of all. -/
theorem exists_from {α : Type} {P : α → Nat → Prop} :
    ∀ {l : List α}, (∀ x ∈ l, ∃ N, ∀ n ≥ N, P x n) → ∃ N, ∀ n ≥ N, ∀ x ∈ l, P x n
  | [], _ => ⟨0, fun _ _ _ h => absurd h List.not_mem_nil⟩
  | x :: l, h => by
    obtain ⟨N, hN⟩ := h x List.mem_cons_self
    obtain ⟨M, hM⟩ := exists_from fun y hy => h y (List.mem_cons_of_mem _ hy)
    exact ⟨max N M, fun n hn => List.forall_mem_cons.2
      ⟨hN n (Nat.le_trans (Nat.le_max_left _ _) hn), hM n (Nat.le_trans (Nat.le_max_right _ _) hn)⟩⟩

theorem exists_from_succ {P : Nat → Prop} (h : ∃ N, ∀ n ≥ N, P (n + 1)) : ∃ N, ∀ n ≥ N, P n := by
  obtain ⟨N, hN⟩ := h
  refine ⟨N + 1, fun n hn => ?_⟩
  cases n with
  | zero => exact absurd hn (Nat.not_succ_le_zero N)
  | succ n => exact hN n (Nat.le_of_succ_le_succ hn)

/-- Entries unfold to others if what is under their keys does. -/
theorem unfold_entries (anywhere : Bool) (held : String → Option Tree) {f : Scalar → Stand}
    (hd : es.keys.Nodup) (hk : es'.keys = es.keys)
    (h : ∀ k x x', es.at? k = some x → es'.at? k = some x' →
      ∃ N, ∀ n ≥ N, unfold anywhere held n (f k) x' = x) :
    ∃ N, ∀ n ≥ N, es'.map (fun e => (e.1, unfold anywhere held n (f e.1) e.2)) = es := by
  obtain ⟨N, hN⟩ := exists_from (l := es)
    (P := fun e n => (es'.at? e.1).map (unfold anywhere held n (f e.1)) = some e.2) fun e he => by
      have hx := Entries.at?_of_mem hd he
      obtain ⟨x', hx'⟩ := Entries.exists_at?_of_keys_eq hk hx
      obtain ⟨N, hN⟩ := h e.1 e.2 x' hx hx'
      exact ⟨N, fun n hn => by rw [hx', Option.map_some, hN n hn]⟩
  refine ⟨N, fun n hn => Entries.ext_at? ?_ hd fun k => ?_⟩
  · rw [← hk, Entries.keys, Entries.keys, List.map_map]
    rfl
  · rw [Entries.at?_map fun k => unfold anywhere held n (f k)]
    cases hx : es.at? k with
    | none => rw [(Entries.at?_eq_none_congr hk).2 hx]; rfl
    | some x => exact hN n hn (k, x) (Entries.mem_of_at? hx)

theorem Names.text? (h : Names given st t t') : t'.text? = t.text? := by
  cases h <;> rfl

/-- Naming takes no reference away and adds none. -/
theorem referred?_of_names {f : Scalar → Stand} (hk : es'.keys = es.keys)
    (h : ∀ k x x', es.at? k = some x → es'.at? k = some x' → Names given (f k) x x') :
    referred? (.map a es') = referred? (.map a es) := by
  rw [referred?, referred?, Reference.ofTree?_map, Reference.ofTree?_map]
  cases hx : es.at? (.text "$ref") with
  | none => rw [(Entries.at?_eq_none_congr hk).2 hx]
  | some x =>
    obtain ⟨x', hx'⟩ := Entries.exists_at?_of_keys_eq hk hx
    rw [hx', Option.bind_some, Option.bind_some, (h _ x x' hx hx').text?]

/-- What naming has made of a tree unfolds to that tree. -/
theorem Names.unfold (hheld : ∀ name x, given name x → held name = some x)
    (h : Names given st t t') : Plain t → Clear anywhere held st t →
      ∃ N, ∀ n ≥ N, unfold anywhere held n st t' = t := by
  induction h with
  | same => exact fun _ hc => ⟨0, fun n _ => hc.unfold n⟩
  | @moved a es t' name _ _ _ hgiven ih =>
    intro hp hc
    obtain ⟨N, hN⟩ := ih hp (Clear.own.2 hc)
    have hr : (refers? anywhere .inline (Reference.asTree (Reference.toSchema name))).bind held = some t' := by
      rw [refers?, referred?_toSchema]
      simp [hheld name t' hgiven]
    refine exists_from_succ ⟨N, fun n hn => ?_⟩
    rw [Naming.unfold, hr]
    exact (unfold_own n t').symm.trans (hN n hn)
  | @map st a es es' hst hk hes ih =>
    intro hp hc
    obtain ⟨rfl, hd, hpl⟩ := plain_map.1 hp
    obtain ⟨N, hN⟩ := unfold_entries anywhere held (f := st.reads es) hd.nodup hk
      fun k x x' hx hx' => by
        have hm := Entries.mem_of_at? hx
        rcases st.reads_cases es k with hreads | hrest
        · rw [hreads]
          exact ih k x x' hx hx' (hpl _ hm).2 (hreads ▸ hc.entry hm)
        · have hn := hes k x x' hx hx'
          rw [hrest] at hn
          rw [hn.eq_of_rest]
          exact ⟨0, fun n _ => (hc.entry hm).unfold n⟩
    have hreads : ∀ k, st.reads es' k = st.reads es k := fun k => by
      rw [Stand.reads, Stand.reads, part_congr hst hk hes k]
    refine exists_from_succ ⟨N, fun n hn => ?_⟩
    rw [unfold_map (by rw [refers?_congr (referred?_of_names hk hes), hc.refers])]
    simp only [hreads]
    rw [hN n hn]
  | @list st a ts ts' _ hl _ ih =>
    intro hp hc
    obtain ⟨-, hpl⟩ := plain_list.1 hp
    obtain ⟨N, hN⟩ := exists_from (l := List.range ts.length)
      (P := fun i n => (ts'[i]?).map (Naming.unfold anywhere held n st.item) = ts[i]?) fun i hi => by
        have hi := List.mem_range.1 hi
        have hx := List.getElem?_eq_getElem hi
        have hx' := List.getElem?_eq_getElem (hl ▸ hi : i < ts'.length)
        have hm := List.getElem_mem hi
        obtain ⟨N, hN⟩ := ih i _ _ hx hx' (hpl _ hm) (hc.item hm)
        exact ⟨N, fun n hn => by rw [hx, hx', Option.map_some, hN n hn]⟩
    refine exists_from_succ ⟨N, fun n hn => ?_⟩
    rw [unfold_list]
    refine congrArg _ (List.ext_getElem? fun i => ?_)
    rw [List.getElem?_map]
    by_cases hi : i < ts.length
    · exact hN n hn i (List.mem_range.2 hi)
    · rw [List.getElem?_eq_none (hl ▸ Nat.le_of_not_lt hi), List.getElem?_eq_none (Nat.le_of_not_lt hi)]
      rfl

end ApiContract.Naming
