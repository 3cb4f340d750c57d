import ApiContract.Proofs.Plan.Collect
import Mathlib.Data.List.Sort
import Mathlib.Data.Prod.Lex
import Mathlib.Data.String.Basic

/-!
# The list of operations

The operations of a description are one for each endpoint: a path and a method under which the path's item,
with a reference put in place, holds a map (`endpoints`). Each is what its endpoint says (`Collected`), and they
stand in the order of identifier, path and method (`sortKey`). So the list does not depend on the order in
which the description has its paths (`collect_canonical`).

Names of fields are texts. Where a description has octets for a key, the text that they encode is read; so two
keys that are different there may be one path, and the order of these is that of the description.
-/

namespace ApiContract.Operation

/-! ## Endpoints -/

/-- A path and a method that a description has an operation for. -/
structure Endpoint where
  path : Scalar
  item : Entries
  method : Method
  operation : Entries

/-- The endpoints of one path. -/
def endpointsOf (document : Tree) (entry : Scalar × Tree) : List Endpoint :=
  match Reference.dereference document entry.2 with
  | .ok (.map _ item) => Method.all.filterMap fun method =>
    ((Entries.get? item method.key).bind Tree.entries?).map fun operation => ⟨entry.1, item, method, operation⟩
  | _ => []

/-- The endpoints of the paths of a description, in order. -/
def endpoints (document : Tree) (paths : Entries) : List Endpoint :=
  paths.flatMap (endpointsOf document)

theorem mem_endpointsOf {document : Tree} {entry : Scalar × Tree} {e : Endpoint} :
    e ∈ endpointsOf document entry ↔
      e.path = entry.1 ∧ ∃ a b, Reference.dereference document entry.2 = .ok (.map a e.item) ∧
        e.item.get? e.method.key = some (.map b e.operation) := by
  unfold endpointsOf
  split
  · rename_i a item hitem
    constructor
    · intro he
      obtain ⟨method, -, hmap⟩ := List.mem_filterMap.1 he
      obtain ⟨operation, hoperation, rfl⟩ := Option.map_eq_some_iff.1 hmap
      obtain ⟨t, ht, hentries⟩ := Option.bind_eq_some_iff.1 hoperation
      cases t with
      | map b es =>
        cases hentries
        exact ⟨rfl, a, b, hitem, ht⟩
      | _ => cases hentries
    · rintro ⟨hpath, _, b, hitem', ht⟩
      obtain ⟨-, rfl⟩ := Tree.map.inj (Except.ok.inj (hitem.symm.trans hitem'))
      have hmethod : e.method ∈ Method.all := by cases e.method <;> decide
      refine List.mem_filterMap.2 ⟨e.method, hmethod, ?_⟩
      rw [ht, ← hpath]
      rfl
  · rename_i hno
    refine iff_of_false List.not_mem_nil ?_
    rintro ⟨-, a, b, hitem, -⟩
    exact hno a _ hitem

theorem mem_endpoints {document : Tree} {paths : Entries} {e : Endpoint} :
    e ∈ endpoints document paths ↔
      ∃ item a b, (e.path, item) ∈ paths ∧ Reference.dereference document item = .ok (.map a e.item) ∧
        e.item.get? e.method.key = some (.map b e.operation) := by
  unfold endpoints
  rw [List.mem_flatMap]
  constructor
  · rintro ⟨⟨path, item⟩, hmem, he⟩
    obtain ⟨rfl, a, b, hitem, hoperation⟩ := mem_endpointsOf.1 he
    exact ⟨item, a, b, hmem, hitem, hoperation⟩
  · rintro ⟨item, a, b, hmem, hitem, hoperation⟩
    exact ⟨_, hmem, mem_endpointsOf.2 ⟨rfl, a, b, hitem, hoperation⟩⟩

/-- No path and method are gone to twice. -/
theorem nodup_endpoints {document : Tree} {paths : Entries} (h : (paths.map (·.1)).Nodup) :
    ((endpoints document paths).map fun e => (e.path, e.method)).Nodup := by
  have hone : ∀ entry, ((endpointsOf document entry).map fun e => (e.path, e.method)).Nodup := by
    intro entry
    unfold endpointsOf
    split
    · rename_i item _
      have hmethods : Method.all.Nodup := by decide
      rw [List.map_filterMap]
      refine hmethods.filterMap fun m m' x hm hm' => ?_
      obtain ⟨e, he, rfl⟩ := Option.map_eq_some_iff.1 (Option.mem_def.1 hm)
      obtain ⟨e', he', heq⟩ := Option.map_eq_some_iff.1 (Option.mem_def.1 hm')
      obtain ⟨_, -, rfl⟩ := Option.map_eq_some_iff.1 he
      obtain ⟨_, -, rfl⟩ := Option.map_eq_some_iff.1 he'
      exact (Prod.mk.inj heq).2.symm
    · exact List.nodup_nil
  rw [endpoints, List.map_flatMap]
  refine List.nodup_flatMap.2 ⟨fun entry _ => hone entry, ?_⟩
  refine (List.pairwise_map.1 h).imp fun hne x hx hx' => hne ?_
  obtain ⟨e, he, rfl⟩ := List.mem_map.1 hx
  obtain ⟨e', he', heq⟩ := List.mem_map.1 hx'
  rw [← (mem_endpointsOf.1 he).1, ← (mem_endpointsOf.1 he').1]
  exact (congrArg Prod.fst heq).symm

/-! ## Parameters as they are written -/

/-- The text that a key is read as. -/
def keyText (key : Scalar) : String := (Record.textOf key).toOption.getD ""

/-- A map with every key read as a text. Of keys that are one text the last value stands. -/
def textKeys (es : Entries) : Entries :=
  es.foldl (fun done e => Entries.put (.text (keyText e.1)) e.2 done) []

/-- A parameter is what is written, but that a path parameter is required. -/
structure AsWritten (p q : Entries) : Prop where
  required : p.orNull "in" = .text "path" → q.get? "required" = some (.bool true)
  others : ∀ k, ¬(p.orNull "in" = .text "path" ∧ k = .text "required") → q.at? k = p.at? k
  keys : q.keys = p.keys ∨
    p.orNull "in" = .text "path" ∧ .text "required" ∉ p.keys ∧ q.keys = p.keys ++ [.text "required"]

theorem asWritten_requirePath (p : Entries) : AsWritten p (requirePath p) := by
  unfold requirePath
  split
  · rename_i hpath
    have hpath : p.orNull "in" = .text "path" := eq_of_beq hpath
    refine ⟨fun _ => Entries.at?_put_self _ _ _, fun k hk => ?_, ?_⟩
    · exact Entries.at?_put_ne (fun he => hk ⟨hpath, he⟩) _ _
    · by_cases hmem : Scalar.text "required" ∈ p.map (·.1)
      · exact .inl (Entries.keys_put_of_mem _ hmem)
      · refine .inr ⟨hpath, hmem, ?_⟩
        rw [Entries.set, Entries.put_of_notMem _ hmem, Entries.keys, List.map_append]
        rfl
  · rename_i hpath
    have hpath : p.orNull "in" ≠ .text "path" := fun h => hpath (beq_iff_eq.2 h)
    exact ⟨fun h => absurd h hpath, fun _ _ => rfl, .inl rfl⟩

/-- The keys are texts, and all different. -/
structure TextKeys (es : Entries) : Prop where
  texts : ∀ k ∈ es.keys, ∃ s, k = .text s
  nodup : es.keys.Nodup

/-- Different texts as keys are read as they are. -/
theorem TextKeys.textKeys_eq {es : Entries} (h : TextKeys es) : textKeys es = es := by
  have hread : es.map (fun e => (Scalar.text (keyText e.1), e.2)) = es := by
    refine (List.map_congr_left fun e he => ?_).trans (List.map_id _)
    obtain ⟨s, hs⟩ := h.texts e.1 (List.mem_map_of_mem he)
    exact Prod.ext (hs ▸ rfl) rfl
  have hfold : es.foldl (fun done e => Entries.put e.1 e.2 done) [] = [] ++ es :=
    Entries.foldl_put_of_nodup (by rw [List.nil_append]; exact h.nodup)
  have hmap : textKeys es = (es.map fun e => (Scalar.text (keyText e.1), e.2)).foldl
      (fun done e => Entries.put e.1 e.2 done) [] := by
    rw [List.foldl_map]
    rfl
  rw [hmap, hread, hfold, List.nil_append]

theorem TextKeys.requirePath {p : Entries} (h : TextKeys p) : TextKeys (requirePath p) := by
  rcases (asWritten_requirePath p).keys with hkeys | ⟨-, hnew, hkeys⟩
  · exact ⟨hkeys ▸ h.texts, hkeys ▸ h.nodup⟩
  · constructor
    · rw [hkeys]
      exact List.forall_mem_append.2 ⟨h.texts, fun k hk => ⟨_, List.mem_singleton.1 hk⟩⟩
    · rw [hkeys]
      refine List.nodup_append.2 ⟨h.nodup, List.nodup_singleton _, fun k hk l hl heq => hnew ?_⟩
      rwa [← List.mem_singleton.1 hl, ← heq]

/-- A parameter is read as what is written where its keys are texts, and else with every key read as one. -/
structure ReadAs (p q : Entries) : Prop where
  read : q = textKeys (requirePath p)
  written : TextKeys p → AsWritten p q

theorem readAs_textKeys (p : Entries) : ReadAs p (textKeys (requirePath p)) := by
  refine ⟨rfl, fun h => ?_⟩
  rw [h.requirePath.textKeys_eq]
  exact asWritten_requirePath p

/-! ## What an operation is made of -/

/-- The value of a part of a parameter that tells it apart; what is missing is the empty text. -/
def keyPart (p : Entries) (key : String) : Scalar :=
  match (p.get? key).getD (.text "") with
  | .scalar s => s.canonical
  | _ => .text ""

/-- The name and the place of a parameter. -/
def nameAndPlace (p : Entries) : Scalar × Scalar := (keyPart p "name", keyPart p "in")

/-- The shared parameters that no own one replaces, then the own ones. -/
def merged (shared own : List Entries) : List Entries :=
  (shared.filter fun q => own.all fun p => nameAndPlace p ≠ nameAndPlace q) ++ own

/-- Trees that are maps with these entries. -/
def AreMaps : List Tree → List Entries → Prop :=
  List.Forall₂ fun t p => ∃ a, t = .map a p

/-- The parameters of a path item or an operation, with references put in place. -/
def HasParameters (document : Tree) (owner : Entries) (ps : List Entries) : Prop :=
  ∃ ts, parametersAt document owner = .ok ts ∧ AreMaps ts ps

/-- An operation is what its endpoint says. -/
structure Collected (document : Tree) (e : Endpoint) (o : Operation) : Prop where
  id : Record.textOrNone (e.operation.orNull "operationId") = .ok o.id
  method : o.method = e.method
  path : Record.text (.scalar e.path) = .ok o.path
  parameters : ∃ shared own, HasParameters document e.item shared ∧ HasParameters document e.operation own ∧
    List.Forall₂ ReadAs (merged shared own) o.parameters

theorem parameterKey_eq_ok {t : Tree} {k : Scalar × Scalar} (h : parameterKey t = .ok k) :
    ∃ a p, t = .map a p ∧ k = nameAndPlace p := by
  cases t with
  | map a p =>
    have hpart : ∀ {key : String} {s : Scalar}, (match (Entries.get? p key).getD (.text "") with
        | .scalar s => Except.ok s.canonical
        | _ => Except.error Failure.malformed) = .ok s → s = keyPart p key := by
      intro key s h
      unfold keyPart
      split at h
      · exact (Except.ok.inj h).symm
      · cases h
    obtain ⟨n, hn, h⟩ := bind_eq_ok.1 h
    obtain ⟨i, hi, h⟩ := bind_eq_ok.1 h
    cases h
    exact ⟨a, p, rfl, by rw [nameAndPlace, hpart hn, hpart hi]⟩
  | _ => cases h

/-- What a map is read as. -/
theorem map_eq_textKeys {t : Tree} {es : Entries} (h : Record.map t = .ok es) :
    ∃ a p, t = .map a p ∧ es = textKeys p := by
  obtain ⟨l, hl, h⟩ := bind_eq_ok.1 h
  cases h
  cases t with
  | map a p =>
    refine ⟨a, p, rfl, ?_⟩
    have hkey : ∀ {k : Scalar} {s : String}, Record.key k = .ok s → keyText k = s := by
      intro k s hk
      unfold Record.key at hk
      unfold keyText
      split at hk
      · rename_i hs
        rw [hs]
        exact Except.ok.inj hk
      · cases hk
    have hitems : l = p.map fun e => (keyText e.1, e.2) := by
      have hall := (Record.each_map_eq_ok (f := fun e : Scalar × Tree =>
        Record.both (Record.key e.1) (Record.at_ [Record.keyStep e.1] (.ok e.2)))).1 hl
      refine (List.map_id _).symm.trans (forall₂_eq_iff.1 (hall.imp fun e x he => ?_)).symm
      obtain ⟨hk, hv⟩ := Record.both_eq_ok.1 he
      exact Prod.ext (hkey hk) (Except.ok.inj (Record.at_eq_ok.1 hv))
    rw [hitems, List.foldl_map]
    rfl
  | _ => cases hl

theorem exists_areMaps {ts : List Tree} (h : ∀ t ∈ ts, ∃ k, parameterKey t = .ok k) : ∃ ps, AreMaps ts ps :=
  exists_forall₂.2 fun t ht => by
    obtain ⟨k, hk⟩ := h t ht
    obtain ⟨a, p, rfl, -⟩ := parameterKey_eq_ok hk
    exact ⟨p, a, rfl⟩

/-- Parameters are merged by their names and places. -/
theorem mergeParameters_eq_ok {shared own out : List Tree} (h : mergeParameters shared own = .ok out) :
    ∃ ps qs, AreMaps shared ps ∧ AreMaps own qs ∧
      out = (merged ps qs).map fun p => .map none (requirePath p) := by
  obtain ⟨ownKeys, hownKeys, h⟩ := bind_eq_ok.1 h
  obtain ⟨kept, hkept, h⟩ := bind_eq_ok.1 h
  cases h
  obtain ⟨hkept, htested⟩ := filterM_eq_ok hkept
  obtain ⟨qs, hqs⟩ := exists_areMaps fun t ht => by
    obtain ⟨k, hk, -⟩ := exists_of_mapM hownKeys ht
    exact ⟨k, hk⟩
  obtain ⟨ps, hps⟩ := exists_areMaps fun t ht => by
    obtain ⟨b, hb⟩ := htested t ht
    obtain ⟨k, hk, -⟩ := bind_eq_ok.1 hb
    exact ⟨k, hk⟩
  have hkeys : ownKeys = qs.map nameAndPlace := by
    refine (List.map_id _).symm.trans (forall₂_eq_iff.1 (forall₂_comp (forall₂_of_mapM hownKeys).flip hqs ?_))
    rintro k t p hk ⟨a, rfl⟩
    obtain ⟨_, _, ⟨⟩, rfl⟩ := parameterKey_eq_ok hk
    rfl
  have hkeptMaps : AreMaps kept (ps.filter fun q => qs.all fun p => nameAndPlace p ≠ nameAndPlace q) := by
    rw [hkept]
    refine (forall₂_filter (forall₂_of_mem hps fun t ht p _ hmap => And.intro hmap (htested t ht)) ?_).imp
      fun _ _ h => h.1
    rintro _ p ⟨⟨a, rfl⟩, b, hb⟩
    obtain ⟨k, hk, -⟩ := bind_eq_ok.1 hb
    obtain ⟨_, _, ⟨⟩, rfl⟩ := parameterKey_eq_ok hk
    rw [hk, hkeys, Bool.eq_iff_iff, List.all_eq_true]
    show (!(qs.map nameAndPlace).contains (nameAndPlace p)) = true ↔ _
    rw [Bool.not_eq_true', ← Bool.not_eq_true, List.contains_iff_mem, List.mem_map]
    simp only [not_exists, not_and]
    exact forall₂_congr fun q _ => decide_eq_true_iff.symm
  refine ⟨ps, qs, hps, hqs, forall₂_eq_iff.1 ((List.rel_append hkeptMaps hqs).imp ?_)⟩
  rintro _ p ⟨a, rfl⟩
  rfl

/-- The method and the path of an operation are those that it has been found under. -/
theorem Draft.place_of_check {d : Draft} {o : Operation} (h : d.check = .ok o) :
    o.method = d.method ∧ Record.text d.path = .ok o.path := by
  obtain ⟨p, hp, h⟩ := bind_eq_ok.1 (Record.toFailure_eq_ok.1 h)
  cases h
  simp only [Record.both_eq_ok, Record.field_eq_ok] at hp
  exact ⟨rfl, hp.1.1.2⟩

theorem collected_of_ofEntries {document : Tree} {e : Endpoint} {shared : List Tree} {o : Operation}
    (hshared : parametersAt document e.item = .ok shared)
    (h : ofEntries document e.path e.method shared e.operation = .ok o) : Collected document e o := by
  obtain ⟨own, hown, h⟩ := bind_eq_ok.1 h
  obtain ⟨out, hout, h⟩ := bind_eq_ok.1 h
  obtain ⟨_, -, h⟩ := bind_eq_ok.1 h
  obtain ⟨_, -, h⟩ := bind_eq_ok.1 h
  obtain ⟨_, -, h⟩ := bind_eq_ok.1 h
  obtain ⟨_, -, h⟩ := bind_eq_ok.1 h
  obtain ⟨hid, hparameters, -, -⟩ := Draft.check_eq_ok h
  obtain ⟨hmethod, hpath⟩ := Draft.place_of_check h
  obtain ⟨ps, qs, hps, hqs, rfl⟩ := mergeParameters_eq_ok hout
  refine ⟨hid, hmethod, hpath, ps, qs, ⟨shared, hshared, hps⟩, ⟨own, hown, hqs⟩, ?_⟩
  obtain ⟨_, ⟨⟩, hparameters⟩ := bind_eq_ok.1 hparameters
  have hall := List.forall₂_map_left_iff.1 (Record.each_mapIdx_eq_ok.1 hparameters)
  refine hall.imp fun p es hes => ?_
  obtain ⟨_, _, ⟨⟩, rfl⟩ := map_eq_textKeys hes
  exact readAs_textKeys p

/-- The operations of a path item are those of its endpoints. -/
theorem collected_of_ofPathItem {document : Tree} {entry : Scalar × Tree} {os : List Operation}
    (h : ofPathItem document entry.1 entry.2 = .ok os) :
    List.Forall₂ (Collected document) (endpointsOf document entry) os := by
  obtain ⟨item, hitem, h⟩ := bind_eq_ok.1 h
  unfold endpointsOf
  rw [hitem]
  cases item with
  | map a es =>
    obtain ⟨shared, hshared, h⟩ := bind_eq_ok.1 h
    refine forall₂_of_filterMapM h fun method _ o ho => ?_
    cases hoperation : (Entries.get? es method.key).bind Tree.entries? with
    | none =>
      rw [hoperation] at ho
      cases ho
      exact .none
    | some operation =>
      rw [hoperation] at ho
      obtain ⟨o', ho', heq⟩ := bind_eq_ok.1 ho
      cases heq
      exact .some (collected_of_ofEntries hshared ho')
  | _ =>
    cases h
    exact .nil

/-! ## The order -/

/-- What operations are sorted by: whether there is no identifier, the identifier, the path, and the place of
the method. -/
def sortKey (o : Operation) : Bool ×ₗ String ×ₗ String ×ₗ Nat :=
  toLex (o.id.isNone, toLex (o.id.getD "", toLex (o.path, o.method.rank)))

theorem precedes_iff {a b : Operation} : precedes a b = true ↔ sortKey a ≤ sortKey b := by
  have hnone : ∀ {x y : Bool}, x ≠ y → (y = true ↔ x < y) := by decide
  unfold precedes sortKey
  simp only [Prod.Lex.toLex_le_toLex]
  -- The first part that is different decides.
  by_cases hn : a.id.isNone = b.id.isNone
  · rw [if_neg (by simpa using hn)]
    by_cases hid : a.id.getD "" = b.id.getD ""
    · rw [if_neg (not_not.2 hid)]
      by_cases hpath : a.path = b.path
      · rw [if_neg (not_not.2 hpath)]
        simp [hn, hid, hpath]
      · rw [if_pos hpath]
        simp [hn, hid, hpath]
    · rw [if_pos hid]
      simp [hn, hid]
  · rw [if_pos (by simpa using hn), hnone hn]
    exact ⟨.inl, fun h => h.resolve_right fun h => hn h.1⟩

theorem sorted_mergeSort (os : List Operation) :
    (os.mergeSort precedes).Pairwise fun a b => sortKey a ≤ sortKey b := by
  refine (List.pairwise_mergeSort (fun a b c hab hbc => ?_) (fun a b => ?_) os).imp precedes_iff.1
  · exact precedes_iff.2 ((precedes_iff.1 hab).trans (precedes_iff.1 hbc))
  · rw [Bool.or_eq_true, precedes_iff, precedes_iff]
    exact le_total _ _

/-- Operations that are the same but for their order, no two of which come at one place, are sorted alike. -/
theorem mergeSort_eq_of_perm {os os' : List Operation} (h : os.Perm os') (hkeys : (os.map sortKey).Nodup) :
    os.mergeSort precedes = os'.mergeSort precedes := by
  have hperm := ((List.mergeSort_perm os precedes).trans h).trans (List.mergeSort_perm os' precedes).symm
  refine hperm.eq_of_pairwise (fun a b ha hb hab hba => ?_) (sorted_mergeSort os) (sorted_mergeSort os')
  have ha : a ∈ os := List.mem_mergeSort.1 ha
  have hb : b ∈ os := h.mem_iff.2 (List.mem_mergeSort.1 hb)
  exact List.inj_on_of_nodup_map hkeys ha hb (le_antisymm hab hba)

/-! ## Identifiers -/

theorem duplicateIds_eq_nil {os : List Operation} : duplicateIds os = [] ↔ (os.filterMap (·.id)).Nodup := by
  unfold duplicateIds
  rw [List.nodup_iff_count_le_one, List.eq_nil_iff_forall_not_mem]
  refine forall_congr' fun id => ?_
  rw [List.mem_mergeSort, List.mem_eraseDups, List.mem_filter, decide_eq_true_iff, not_and, not_lt]
  refine ⟨fun h => ?_, fun h _ => h⟩
  by_cases hid : id ∈ os.filterMap (·.id)
  · exact h hid
  · rw [List.count_eq_zero_of_not_mem hid]
    exact Nat.zero_le 1

/-- Operations are refused if and only if two of them have one identifier. -/
theorem ensureUniqueIds_eq_error {os : List Operation} :
    (∃ f, ensureUniqueIds os = .error f) ↔
      ∃ a b id, [a, b].Sublist os ∧ a.id = some id ∧ b.id = some id := by
  have hfails : (∃ f, ensureUniqueIds os = .error f) ↔ ¬ duplicateIds os = [] := by
    rw [← List.isEmpty_iff]
    unfold ensureUniqueIds
    by_cases h : (duplicateIds os).isEmpty = true <;> simp [h]
  rw [hfails, duplicateIds_eq_nil, List.Nodup, List.pairwise_filterMap, List.pairwise_iff_forall_sublist]
  constructor
  · intro h
    by_contra hno
    exact h fun {a b} hab id ha id' hb heq => hno ⟨a, b, id, hab, ha, heq ▸ hb⟩
  · rintro ⟨a, b, id, hab, ha, hb⟩ h
    exact h hab id ha id hb rfl

/-! ## The order of a description -/

/-- A map with its entries in another order, or the same tree. -/
def Reordered (t t' : Tree) : Prop :=
  t' = t ∨ ∃ a es es', t = .map a es ∧ t' = .map a es' ∧ (Entries.keys es).Nodup ∧ es.Perm es'

theorem at?_perm {es es' : Entries} (h : es.Perm es') (hkeys : es.keys.Nodup) (k : Scalar) :
    es'.at? k = es.at? k := by
  have hkeys' : es'.keys.Nodup := (h.map _).nodup_iff.1 hkeys
  refine Option.ext fun t => ⟨fun ht => ?_, fun ht => ?_⟩
  · exact Entries.at?_of_mem hkeys (h.mem_iff.2 (Entries.mem_of_at? ht))
  · exact Entries.at?_of_mem hkeys' (h.mem_iff.1 (Entries.mem_of_at? ht))

/-- The order of the keys of a path item does not matter. -/
theorem ofPathItem_reordered {document t t' : Tree} (h : Reordered t t') (path : Scalar) :
    ofPathItem document path t' = ofPathItem document path t := by
  rcases h with rfl | ⟨a, es, es', rfl, rfl, hkeys, hperm⟩
  · rfl
  have hget : ∀ key, Entries.get? es' key = Entries.get? es key := fun key => at?_perm hperm hkeys _
  have href : Reference.ofTree? (.map a es') = Reference.ofTree? (.map a es) := by
    show (Entries.get? es' "$ref").bind Tree.text? = (Entries.get? es "$ref").bind Tree.text?
    rw [hget]
  unfold ofPathItem Reference.dereference
  rw [href]
  split
  · rfl
  · have hparameters : parametersAt document es' = parametersAt document es := by
      unfold parametersAt
      rw [hget]
    simp only [pure, Except.pure, bind, Except.bind, Tree.entries?, hparameters, hget]

/-! ## The list -/

theorem collect_eq_ok {document : Tree} {os : List Operation} (h : collect document = .ok os) :
    ∃ es paths found, document.entries? = some es ∧ Compile.entriesOf es "paths" = .ok paths ∧
      paths.mapM (fun entry => ofPathItem document entry.1 entry.2) = .ok found ∧
      os = found.flatten.mergeSort precedes := by
  unfold collect at h
  cases hes : document.entries? with
  | none =>
    rw [hes] at h
    cases h
  | some es =>
    rw [hes] at h
    obtain ⟨paths, hpaths, h⟩ := bind_eq_ok.1 h
    obtain ⟨found, hfound, h⟩ := bind_eq_ok.1 h
    cases h
    exact ⟨es, paths, found, rfl, hpaths, hfound, rfl⟩

theorem collect_of_mapM {document : Tree} {es paths : Entries} {found : List (List Operation)}
    (hes : document.entries? = some es) (hpaths : Compile.entriesOf es "paths" = .ok paths)
    (hfound : paths.mapM (fun entry => ofPathItem document entry.1 entry.2) = .ok found) :
    collect document = .ok (found.flatten.mergeSort precedes) := by
  unfold collect
  rw [hes]
  exact bind_eq_ok.2 ⟨paths, hpaths, bind_eq_ok.2 ⟨found, hfound, rfl⟩⟩

theorem collected_of_mapM {document : Tree} {paths : Entries} {found : List (List Operation)}
    (h : paths.mapM (fun entry => ofPathItem document entry.1 entry.2) = .ok found) :
    List.Forall₂ (Collected document) (endpoints document paths) found.flatten := by
  have hall := (forall₂_of_mapM h).imp fun _ _ => collected_of_ofPathItem
  rw [endpoints, List.flatMap_def]
  exact List.rel_flatten (List.forall₂_map_left_iff.2 hall)

/-- Where paths are texts, no two operations come at one place. -/
theorem nodup_sortKey {document : Tree} {paths : Entries} {os : List Operation}
    (hpaths : TextKeys paths)
    (h : List.Forall₂ (Collected document) (endpoints document paths) os) : (os.map sortKey).Nodup := by
  have hplaces : (os.map fun o => (Scalar.text o.path, o.method)) =
      (endpoints document paths).map fun e => (e.path, e.method) := by
    refine (forall₂_eq_iff.1 (forall₂_of_mem h fun e he o _ ho => ?_)).symm
    obtain ⟨item, _, _, hmem, -, -⟩ := mem_endpoints.1 he
    obtain ⟨s, hs⟩ := hpaths.texts e.path (List.mem_map_of_mem hmem)
    have hpath := ho.path
    rw [hs] at hpath
    rw [hs, ho.method, ← Except.ok.inj hpath]
  have hnodup : (os.map fun o => (Scalar.text o.path, o.method)).Nodup := hplaces ▸ nodup_endpoints hpaths.nodup
  have hrank : ∀ m m' : Method, m.rank = m'.rank → m = m' := fun m m' => by cases m <;> cases m' <;> decide
  refine List.pairwise_map.2 ((List.pairwise_map.1 hnodup).imp fun hne heq => hne ?_)
  simp only [sortKey, toLex_inj, Prod.mk.injEq] at heq
  rw [heq.2.2.1, hrank _ _ heq.2.2.2]

/-- The paths of a description in another order, and the keys of each in another order. -/
def ReorderedPaths (paths paths' : Entries) : Prop :=
  ∃ between, between.Perm paths ∧ List.Forall₂ (fun e e' => e'.1 = e.1 ∧ Reordered e.2 e'.2) between paths'

/-- Paths in another order have the same operations, in another order. -/
theorem exists_mapM_of_reordered {document document' : Tree} {paths paths' : Entries}
    {found : List (List Operation)} (hpaths : ReorderedPaths paths paths')
    (hitems : ∀ entry ∈ paths, ofPathItem document' entry.1 entry.2 = ofPathItem document entry.1 entry.2)
    (h : paths.mapM (fun entry => ofPathItem document entry.1 entry.2) = .ok found) :
    ∃ found', paths'.mapM (fun entry => ofPathItem document' entry.1 entry.2) = .ok found' ∧
      found'.Perm found := by
  obtain ⟨between, hperm, hreordered⟩ := hpaths
  let result (entry : Scalar × Tree) := (ofPathItem document entry.1 entry.2).toOption.getD []
  have hresult : ∀ entry ∈ paths, ofPathItem document entry.1 entry.2 = .ok (result entry) := by
    intro entry hentry
    obtain ⟨os, hos, -⟩ := exists_of_mapM h hentry
    show _ = Except.ok ((ofPathItem document entry.1 entry.2).toOption.getD [])
    rw [hos]
    rfl
  have hfound : found = paths.map result := by
    refine (List.map_id _).symm.trans (forall₂_eq_iff.1 (forall₂_of_mem (forall₂_of_mapM h) ?_)).symm
    intro entry hentry os _ hos
    exact Except.ok.inj ((hresult entry hentry).symm.trans hos)
  refine ⟨between.map result, mapM_of_forall₂ ?_, hfound ▸ hperm.map result⟩
  refine List.forall₂_map_right_iff.2 (forall₂_of_mem hreordered.flip fun entry' _ entry hentry he => ?_)
  have hentry := hperm.mem_iff.1 hentry
  rw [he.1, ofPathItem_reordered he.2, hitems entry hentry, hresult entry hentry]

/-- The operations of a description, in order. -/
structure Canonical (document : Tree) (paths : Entries) (os : List Operation) : Prop where
  /-- There is one for each endpoint, and no other. -/
  each : ∃ built, List.Forall₂ (Collected document) (endpoints document paths) built ∧ os.Perm built
  once : paths.keys.Nodup → ((endpoints document paths).map fun e => (e.path, e.method)).Nodup
  sorted : os.Pairwise fun a b => sortKey a ≤ sortKey b
  /-- Where paths are texts, nothing of the order is left open. -/
  strict : TextKeys paths → os.Pairwise fun a b => sortKey a < sortKey b
  /-- Then the list is the same for a description with the same path items in another order. -/
  independent : TextKeys paths → ∀ document' es' paths', document'.entries? = some es' →
    Compile.entriesOf es' "paths" = .ok paths' → ReorderedPaths paths paths' →
    (∀ entry ∈ paths, ofPathItem document' entry.1 entry.2 = ofPathItem document entry.1 entry.2) →
    collect document' = .ok os
  identifiers : (∃ f, ensureUniqueIds os = .error f) ↔
    ∃ a b id, [a, b].Sublist os ∧ a.id = some id ∧ b.id = some id

theorem collect_canonical {document : Tree} {os : List Operation} (h : collect document = .ok os) :
    ∃ es paths, document.entries? = some es ∧ Compile.entriesOf es "paths" = .ok paths ∧
      Canonical document paths os := by
  obtain ⟨es, paths, found, hes, hpaths, hfound, rfl⟩ := collect_eq_ok h
  have hcollected := collected_of_mapM hfound
  have hperm := List.mergeSort_perm found.flatten precedes
  have hsorted := sorted_mergeSort found.flatten
  refine ⟨es, paths, hes, hpaths, ⟨_, hcollected, hperm⟩, nodup_endpoints, hsorted, fun htexts => ?_,
    fun htexts document' es' paths' hes' hpaths' hreordered hitems => ?_, ensureUniqueIds_eq_error⟩
  · have hdistinct := List.pairwise_map.1 ((hperm.map sortKey).nodup_iff.2 (nodup_sortKey htexts hcollected))
    exact (hsorted.and hdistinct).imp fun hab => lt_of_le_of_ne hab.1 hab.2
  · obtain ⟨found', hfound', hperm'⟩ := exists_mapM_of_reordered hreordered hitems hfound
    rw [collect_of_mapM hes' hpaths' hfound',
      mergeSort_eq_of_perm hperm'.flatten.symm (nodup_sortKey htexts hcollected)]

/-- A parameter of a place, with further fields. -/
def sampleParameter (place : String) (fields : Entries) : Entries :=
  (.text "name", .text "id") :: (.text "in", .text place) :: fields

/-- An operation with an identifier, or null, and parameters. -/
def sampleEndpoint (id : Tree) (parameters : List Entries) : Tree :=
  Tree.object [
    ("operationId", id),
    ("parameters", Tree.array (parameters.map (Tree.map none))),
    ("responses", Tree.object [("200", Tree.object [("description", .text "ok")])])]

/-- A description with these paths. -/
def sampleDocument (paths : Entries) : Tree :=
  Tree.object [("paths", .map none paths)]

/-- What such an operation is collected as. -/
def sampleCollected (id : Option String) (method : Method) (path : String) (parameters : List Entries) :
    Operation where
  id := id
  method := method
  path := path
  summary := none
  description := none
  tags := []
  deprecated := false
  parameters := parameters
  requestBody := none
  responses := [(.text "200", Tree.object [("description", .text "ok")])]
  security := none

/-- A path with a parameter that one of its two operations replaces. -/
def sampleItem : Entries :=
  [(.text "parameters", Tree.array [.map none (sampleParameter "path" [])]),
    (.text "delete", sampleEndpoint .null []),
    (.text "get", sampleEndpoint (.text "getFoo") [sampleParameter "path" [(.text "example", .text "x")]])]

def samplePaths : Entries :=
  [(.text "/b", Tree.object [("get", sampleEndpoint (.text "listBar") [])]), (.text "/a", .map none sampleItem)]

/-- The same paths in another order, and the keys of the second in another order. -/
def sampleReordered : Entries :=
  [(.text "/a", .map none sampleItem.reverse),
    (.text "/b", Tree.object [("get", sampleEndpoint (.text "listBar") [])])]

/-- What they are collected as, path by path. -/
def sampleFound : List (List Operation) :=
  [[sampleCollected (some "listBar") .get "/b" []],
    [sampleCollected (some "getFoo") .get "/a"
        [sampleParameter "path" [(.text "example", .text "x"), (.text "required", .bool true)]],
      sampleCollected none .delete "/a" [sampleParameter "path" [(.text "required", .bool true)]]]]

/-- The same operations in order. -/
def sampleOperations : List Operation :=
  [sampleCollected (some "getFoo") .get "/a"
      [sampleParameter "path" [(.text "example", .text "x"), (.text "required", .bool true)]],
    sampleCollected (some "listBar") .get "/b" [],
    sampleCollected none .delete "/a" [sampleParameter "path" [(.text "required", .bool true)]]]

theorem collect_samplePaths : collect (sampleDocument samplePaths) = .ok sampleOperations := by
  have hfound : samplePaths.mapM (fun entry => ofPathItem (sampleDocument samplePaths) entry.1 entry.2) =
      .ok sampleFound := eq_ok_of_toOption (by decide +kernel)
  have hperm : sampleFound.flatten.Perm sampleOperations := by decide +kernel
  have hsorted : sampleOperations.Pairwise fun a b => precedes a b = true := by decide +kernel
  rw [collect_of_mapM rfl rfl hfound, mergeSort_eq_of_perm hperm (by decide +kernel),
    List.mergeSort_of_pairwise hsorted]

theorem canonical_samplePaths :
    collect (sampleDocument samplePaths) = .ok sampleOperations ∧
      collect (sampleDocument sampleReordered) = .ok sampleOperations := by
  refine ⟨collect_samplePaths, ?_⟩
  obtain ⟨es, paths, hes, hpaths, hcanonical⟩ := collect_canonical collect_samplePaths
  cases hes
  cases hpaths
  have htexts : TextKeys samplePaths := ⟨by simp [samplePaths, Entries.keys], by decide⟩
  refine hcanonical.independent htexts _ _ _ rfl rfl ?_ (by decide +kernel)
  refine ⟨samplePaths.reverse, List.reverse_perm _, .cons ⟨rfl, .inr ?_⟩ (.cons ⟨rfl, .inl rfl⟩ .nil)⟩
  exact ⟨none, sampleItem, _, rfl, rfl, by decide, (List.reverse_perm _).symm⟩

/-! ## Octets as keys -/

/-- The octets of a text. -/
def sampleOctets (s : String) : Scalar := .bytes s.toUTF8.toList

/-- An operation whose parameter has octets for a key. -/
def sampleOctetOperation : Entries :=
  [(.text "parameters", Tree.array [.map none (sampleParameter "query" [(sampleOctets "required", .bool true)])])]

/-- Two paths that are one text. -/
def sampleOctetPaths : Entries :=
  [(.text "/a", Tree.object [("get", .map none sampleOctetOperation)]),
    (sampleOctets "/a", Tree.object [("get", Tree.object [])])]

/-- What they are collected as. -/
def sampleOctetOperations : List Operation :=
  [[sampleParameter "query" [(.text "required", .bool true)]], []].map fun parameters =>
    { sampleCollected none .get "/a" parameters with responses := [] }

/-- A parameter is read as what it is not written as, and two paths come in the order of the description. -/
theorem collect_sampleOctetPaths :
    HasParameters (sampleDocument sampleOctetPaths) sampleOctetOperation
        [sampleParameter "query" [(sampleOctets "required", .bool true)]] ∧
      ¬ AsWritten (sampleParameter "query" [(sampleOctets "required", .bool true)])
        (sampleParameter "query" [(.text "required", .bool true)]) ∧
      collect (sampleDocument sampleOctetPaths) = .ok sampleOctetOperations ∧
      collect (sampleDocument sampleOctetPaths.reverse) = .ok sampleOctetOperations.reverse ∧
      sampleOctetOperations.reverse ≠ sampleOctetOperations := by
  have hcollect : ∀ {path path' : Scalar × Tree} {a b : Operation}, [path, path'].mapM (fun entry =>
      ofPathItem (sampleDocument [path, path']) entry.1 entry.2) = .ok [[a], [b]] → precedes a b = true →
        collect (sampleDocument [path, path']) = .ok [a, b] := by
    intro path path' a b hfound hab
    rw [collect_of_mapM rfl rfl hfound]
    exact congrArg Except.ok (List.mergeSort_of_pairwise (List.pairwise_pair.2 hab))
  refine ⟨⟨_, rfl, .cons ⟨none, rfl⟩ .nil⟩, fun h => ?_, ?_, ?_, by decide +kernel⟩
  · have hnew := h.others (.text "required") (by decide)
    cases hnew
  · exact hcollect (eq_ok_of_toOption (by decide +kernel)) (by decide +kernel)
  · exact hcollect (eq_ok_of_toOption (by decide +kernel)) (by decide +kernel)

end ApiContract.Operation
