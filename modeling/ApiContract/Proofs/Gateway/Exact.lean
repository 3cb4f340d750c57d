import ApiContract.Proofs.Gateway.Strip

/-!
# The gateway's description in full

`described targets t` is what the gateway is told of a description `t`, entry by entry. Schemas have no
discriminators (`stripped`), operations name their functions or are left out (`placedEntry`), and paths
without operations are left out (`placedPath`). Every other key and value stands where it stood.

* `placeMethods_placed`: the steps through the methods of a path item. `Seen` says which identifiers have been
  met, all different.
* `describe_exact`: the preparation of a plain description, in full and part by part (`Exact`).
* `others_sampleShared`: where two places share a node, an edit at one shows at the other.
-/

namespace ApiContract.Gateway

open Walk

variable {targets : List (String × Target)} {kind : Kind} {es es' : Entries} {t t' x x' : Tree} {s s' : State}

/-! ## Identifiers -/

/-- The identifier of an operation of a path item, if it has one. -/
def identifier? (item : Entries) (m : Method) : Option Tree :=
  match (item.get? m.key).bind Tree.entries? with
  | none => none
  | some operation => match operation.orNull "operationId" with
    | .null => none
    | id => some id

/-- The identifiers of a path item that is no reference, by method. -/
def identifiersAt (e : Scalar × Tree) : List Tree :=
  match e.2 with
  | .map _ item => if Reference.isReference e.2 then [] else Method.all.filterMap (identifier? item)
  | _ => []

/-- The identifiers of the operations of a description. -/
def operationIds (t : Tree) : List Tree :=
  (pathItems t).flatMap identifiersAt

/-- These identifiers have been met, and are all different. -/
structure Seen (ids : List Tree) (s : State) : Prop where
  met : s.seen.map Tree.scalar = ids.reverse
  distinct : ids.Pairwise fun a b => a.same b = false

theorem Seen.of_eq {ids : List Tree} (h : Seen ids s) (hs : s'.seen = s.seen) : Seen ids s' :=
  ⟨hs ▸ h.met, h.distinct⟩

theorem Seen.snoc {ids : List Tree} {id : Scalar} (h : Seen ids s) (hnew : s.seen.any id.same = false)
    (hs : s'.seen = id :: s.seen) : Seen (ids ++ [.scalar id]) s' := by
  constructor
  · rw [hs, List.map_cons, h.met, List.reverse_append]
    rfl
  · refine List.pairwise_append.2 ⟨h.distinct, List.pairwise_singleton _ _, fun x hx y hy => ?_⟩
    cases List.mem_singleton.1 hy
    have hmem : x ∈ s.seen.map Tree.scalar := h.met ▸ List.mem_reverse.2 hx
    obtain ⟨other, hother, rfl⟩ := List.mem_map.1 hmem
    have hne : id.same other = false := by simpa using List.any_eq_false.1 hnew other hother
    show other.same id = false
    rwa [Scalar.same_comm]

/-! ## Operations -/

/-- What becomes of an entry of a path item that stands under a method. -/
def placedValue (targets : List (String × Target)) (e : Scalar × Tree) : Option (Scalar × Tree) :=
  match e.2 with
  | .map a operation => (target? targets operation).map fun target =>
    (e.1, .map a (Entries.set operation integrationKey target.integration))
  | _ => some e

/-- What is left of a path item after one of its methods. -/
def placedAt (targets : List (String × Target)) (item : Entries) (m : Method) : Entries :=
  match item.get? m.key with
  | some (.map a operation) => match target? targets operation with
    | none => item.erase m.key
    | some target => item.set m.key (.map a (Entries.set operation integrationKey target.integration))
  | _ => item

theorem at?_placedAt {m : Method} {k : Scalar} (hk : k ≠ .text m.key) :
    (placedAt targets es m).at? k = es.at? k := by
  unfold placedAt
  split
  · split
    · rw [Entries.at?_erase, if_neg hk]
    · exact Entries.at?_put_ne hk _ _
  · rfl

theorem plain_placedAt {m : Method} (h : Tree.Plain (.map none es)) :
    Tree.Plain (.map none (placedAt targets es m)) := by
  unfold placedAt
  split
  · rename_i a op hx
    have hop := ((Tree.plain_map.1 h).2.2 _ (Entries.mem_of_at? hx)).2
    obtain rfl : a = none := (Tree.plain_map.1 hop).1
    split
    · exact plain_erase h m.key
    · exact Entries.plain_set h (Entries.plain_set hop (integration_plain _))
  · exact h

/-- A step at one method of a path item. -/
theorem placeMethod_placed {path : Scalar} {m : Method} {ids : List Tree} (hes : Tree.Plain (.map none es))
    (hs : Seen ids s) (h : placeMethod targets path es m s = ((es', .ok ()), s')) :
    es' = placedAt targets es m ∧ Seen (ids ++ (identifier? es m).toList) s' := by
  obtain ⟨hnone, rfl, hseen⟩ | ⟨a, op, hx, ⟨hnull, rfl, hseen⟩ | ⟨id, s₁, hid, hnull, hnew, hs₁, h⟩⟩ :=
    placeMethod_outcome h
  · have hidentifier : identifier? es' m = none := by rw [identifier?, hnone]
    rw [hidentifier, Option.toList_none, List.append_nil]
    refine ⟨?_, hs.of_eq hseen⟩
    unfold placedAt
    split
    · rename_i hx
      rw [hx] at hnone
      cases hnone
    · rfl
  · have hidentifier : identifier? es m = none := by
      rw [identifier?, hx, Option.bind_some, Tree.entries?]
      simp only [hnull]
    rw [hidentifier, Option.toList_none, List.append_nil]
    refine ⟨?_, hs.of_eq hseen⟩
    have htarget : target? targets op = none := by
      unfold target?
      split
      · rename_i hget
        rw [Entries.orNull, hget] at hnull
        cases hnull
      · rfl
    unfold placedAt
    simp only [hx, htarget]
  · have hidentifier : identifier? es m = some (.scalar id) := by
      rw [identifier?, hx, Option.bind_some, Tree.entries?]
      simp only [hid]
      cases id <;> first | exact absurd rfl hnull | rfl
    rw [hidentifier, Option.toList_some]
    have hseen := hs.snoc hnew hs₁
    unfold placedAt
    simp only [hx]
    obtain ⟨htarget, rfl, hs'⟩ | ⟨target, htarget, h⟩ := h
    · rw [htarget]
      exact ⟨rfl, hseen.of_eq hs'⟩
    · rw [htarget]
      have hop := ((Tree.plain_map.1 hes).2.2 _ (Entries.mem_of_at? hx)).2
      obtain ⟨x', rfl, hrun⟩ := Edit.valueIn_put h hx
      rw [Edit.shared_of_anchor hop.anchor_eq] at hrun
      obtain ⟨he, rfl⟩ := pure_run.1 hrun
      cases he
      exact ⟨rfl, hseen⟩

theorem identifier?_placedAt {m n : Method} (h : n ≠ m) :
    identifier? (placedAt targets es m) n = identifier? es n := by
  have hget : (placedAt targets es m).get? n.key = es.get? n.key :=
    at?_placedAt fun he => h (Method.key_injective (Scalar.text.inj he))
  rw [identifier?, identifier?, hget]

/-- The steps through the methods of a path item. -/
theorem placeMethods_placed {path : Scalar} : ∀ {ms : List Method} {es es' : Entries} {ids : List Tree}
    {s s' : State}, ms.Nodup → Tree.Plain (.map none es) → Seen ids s →
    placeMethods targets path ms es s = ((es', .ok ()), s') →
    es' = ms.foldl (placedAt targets) es ∧ Seen (ids ++ ms.filterMap (identifier? es)) s'
  | [], es, es', ids, s, s', _, _, hs, h => by
    obtain ⟨he, rfl⟩ := pure_run.1 h
    cases he
    exact ⟨rfl, by rwa [List.filterMap_nil, List.append_nil]⟩
  | m :: ms, es, es', ids, s, s', hms, hes, hs, h => by
    obtain ⟨hm, hms⟩ := List.nodup_cons.1 hms
    obtain ⟨⟨es₁, r⟩, s₁, h₁, hrest⟩ := bind_run.1 h
    cases r with
    | error f => cases (pure_run.1 hrest).1
    | ok =>
      obtain ⟨rfl, hs₁⟩ := placeMethod_placed hes hs h₁
      obtain ⟨rfl, hs'⟩ := placeMethods_placed hms (plain_placedAt hes) hs₁ hrest
      refine ⟨rfl, ?_⟩
      have hothers : ms.filterMap (identifier? (placedAt targets es m)) = ms.filterMap (identifier? es) :=
        List.filterMap_congr fun n hn => identifier?_placedAt fun he => hm (he ▸ hn)
      rw [hothers, List.append_assoc] at hs'
      cases hid : identifier? es m with
      | none =>
        rw [List.filterMap_cons_none hid]
        simpa [hid] using hs'
      | some id =>
        rw [List.filterMap_cons_some hid]
        simpa [hid] using hs'

/-- Of plain entries only the one under a key is different. -/
theorem value_eq {k : Scalar} (hes : Tree.Plain (.map none es)) (hx : es.at? k = some x) {e : Scalar × Tree}
    (he : e ∈ es) (hk : e.1 = k) : e.2 = x := by
  have hat := Entries.at?_of_mem (Tree.plain_map.1 hes).2.1.nodup he
  rw [hk, hx] at hat
  exact (Option.some.inj hat).symm

/-- One step looks at each entry. -/
theorem placedAt_eq_filterMap {m : Method} (hes : Tree.Plain (.map none es)) :
    placedAt targets es m =
      es.filterMap fun e => if e.1 = .text m.key then placedValue targets e else some e := by
  have hkept : ∀ {f : Scalar × Tree → Option (Scalar × Tree)}, (∀ e ∈ es, f e = some e) → es.filterMap f = es :=
    fun hf => (List.filterMap_congr hf).trans List.filterMap_some
  unfold placedAt
  split
  · rename_i a op hx
    have hat : ∀ e ∈ es, e.1 = .text m.key → placedValue targets e =
        (target? targets op).map fun target =>
          (e.1, .map a (Entries.set op integrationKey target.integration)) := by
      intro e he hk
      rw [placedValue, value_eq hes hx he hk]
    split
    · rename_i hnone
      rw [Entries.erase, ← List.filterMap_eq_filter]
      refine List.filterMap_congr fun e he => ?_
      by_cases hk : e.1 = .text m.key
      · rw [if_pos hk, hat e he hk, hnone]
        simp [Option.guard, hk]
      · rw [if_neg hk]
        simp [Option.guard, hk]
    · rename_i target hsome
      have hmem : Scalar.text m.key ∈ es.keys := List.mem_map_of_mem (Entries.mem_of_at? hx)
      rw [Entries.set, Entries.put_eq_map _ (Tree.plain_map.1 hes).2.1.nodup hmem, ← List.filterMap_eq_map]
      refine List.filterMap_congr fun e he => ?_
      by_cases hk : e.1 = .text m.key
      · rw [Function.comp, if_pos hk, if_pos hk, hat e he hk, hsome, hk]
        rfl
      · rw [Function.comp, if_neg hk, if_neg hk]
  · rename_i hno
    refine (hkept fun e he => ?_).symm
    by_cases hk : e.1 = .text m.key
    · rw [if_pos hk]
      unfold placedValue
      split
      · rename_i a op hmap
        have hx : es.get? m.key = some e.2 := by
          rw [Entries.get?, ← hk]
          exact Entries.at?_of_mem (Tree.plain_map.1 hes).2.1.nodup he
        exact absurd (hx.trans (congrArg some hmap)) (hno a op)
      · rfl
    · rw [if_neg hk]

/-- All steps look at each entry once. -/
theorem foldl_placedAt : ∀ {ms : List Method} {es : Entries}, ms.Nodup → Tree.Plain (.map none es) →
    ms.foldl (placedAt targets) es =
      es.filterMap fun e => if ∃ m ∈ ms, e.1 = .text m.key then placedValue targets e else some e
  | [], es, _, _ => by simp
  | m :: ms, es, hms, hes => by
    obtain ⟨hm, hms⟩ := List.nodup_cons.1 hms
    rw [List.foldl_cons, foldl_placedAt hms (plain_placedAt hes), placedAt_eq_filterMap hes,
      List.filterMap_filterMap]
    refine List.filterMap_congr fun e _ => ?_
    by_cases hk : e.1 = .text m.key
    · have hother : ¬∃ n ∈ ms, e.1 = .text n.key := by
        rintro ⟨n, hn, he⟩
        exact hm (Method.key_injective (Scalar.text.inj (hk.symm.trans he)) ▸ hn)
      have hthis : ∃ n ∈ m :: ms, e.1 = .text n.key := ⟨m, List.mem_cons_self, hk⟩
      rw [if_pos hk, if_pos hthis]
      unfold placedValue
      split
      · cases target? targets _ with
        | none => rfl
        | some target => exact if_neg hother
      · exact if_neg hother
    · rw [if_neg hk, Option.bind_some]
      simp [hk]

/-! ## Paths -/

/-- What becomes of an entry of a path item. An operation is stripped and names its function, or is left out;
path-level parameters are stripped. -/
def placedEntry (targets : List (String × Target)) (e : Scalar × Tree) : Option (Scalar × Tree) :=
  if ∃ m ∈ Method.all, e.1 = .text m.key then
    match e.2 with
    | .map a operation => (target? targets operation).map fun target =>
      (e.1, .map a ((strippedParts .operation operation).set integrationKey target.integration))
    | _ => some e
  else some (e.1, part e.2 (stripped e.2) (partKind .pathItem e.1))

/-- What becomes of a path item. -/
def placedItem (targets : List (String × Target)) (item : Entries) : Entries :=
  item.filterMap (placedEntry targets)

/-- What becomes of a path. A path item that is no reference is kept if one of its methods is left. -/
def placedPath (targets : List (String × Target)) (e : Scalar × Tree) : Option (Scalar × Tree) :=
  match e.2 with
  | .map a item =>
    if Reference.isReference e.2 then some e
    else if hasOperations (placedItem targets item) then some (e.1, .map a (placedItem targets item))
    else none
  | _ => some e

/-- What becomes of the paths of a description. -/
def placedPaths (targets : List (String × Target)) : Tree → Tree
  | .map a paths => .map a (paths.filterMap (placedPath targets))
  | t => t

/-- Entries of which the value under a key is another. -/
def atKey (key : String) (f : Tree → Tree) (es : Entries) : Entries :=
  es.map fun e => (e.1, if e.1 = .text key then f e.2 else e.2)

/-- What the gateway is told of a description. -/
def described (targets : List (String × Target)) : Tree → Tree
  | .map a es =>
    .map a (atKey "paths" (placedPaths targets) (atKey "components" (fun x => stripped x .components) es))
  | t => t

theorem target?_strippedParts : target? targets (strippedParts .operation es) = target? targets es := by
  rw [target?, target?, get?_strippedParts_of_none rfl]

theorem operation_stripped (a : Anchor) (es : Entries) :
    part (.map a es) (stripped (.map a es)) (some .operation) = .map a (strippedParts .operation es) := by
  rw [part, if_neg (by simp [Kind.mayRefer]), stripped_map, if_neg (by simp)]

theorem operation_stripped_of_not_map (h : x.isMap = false) :
    part x (stripped x) (some .operation) = x := by
  rw [part, if_neg (by simp [Kind.mayRefer])]
  cases x with
  | map => cases h
  | list a ts =>
    rw [stripped_list]
    exact congrArg (Tree.list a) (List.map_id' ts)
  | _ => rfl

theorem partKind_method (m : Method) : partKind .pathItem (.text m.key) = some .operation := by
  cases m <;> rfl

/-- An operation is placed with its parts stripped. -/
theorem placedValue_stripped (e : Scalar × Tree) :
    (if ∃ m ∈ Method.all, e.1 = .text m.key then
      placedValue targets (e.1, part e.2 (stripped e.2) (partKind .pathItem e.1))
    else some (e.1, part e.2 (stripped e.2) (partKind .pathItem e.1))) = placedEntry targets e := by
  obtain ⟨k, x⟩ := e
  unfold placedEntry
  by_cases hk : ∃ m ∈ Method.all, k = .text m.key
  · rw [if_pos hk, if_pos hk]
    obtain ⟨m, -, rfl⟩ := hk
    rw [partKind_method]
    cases x with
    | map a op =>
      rw [operation_stripped]
      show (target? targets (strippedParts .operation op)).map _ = _
      rw [target?_strippedParts]
    | _ => rw [operation_stripped_of_not_map rfl]; rfl
  · rw [if_neg hk, if_neg hk]

theorem identifier?_strippedParts (m : Method) :
    identifier? (strippedParts .pathItem es) m = identifier? es m := by
  rw [identifier?, identifier?, get?_strippedParts, partKind_method]
  cases hx : es.get? m.key with
  | none => rfl
  | some x =>
    rw [Option.map_some, Option.bind_some, Option.bind_some]
    cases x with
    | map a op =>
      rw [operation_stripped]
      have hid : (strippedParts .operation op).orNull "operationId" = Entries.orNull op "operationId" := by
        rw [Entries.orNull, Entries.orNull, get?_strippedParts_of_none rfl]
      simp only [Tree.entries?, hid]
    | _ => rw [operation_stripped_of_not_map rfl]

theorem pathItem_placed {depth : Nat} {path : Scalar} {ids : List Tree} (hes : Tree.Plain (.map none es))
    (hs : Seen ids s) (h : pathItem depth targets path (.map none es) s = ((x', .ok ()), s')) :
    x' = .map none (placedItem targets es) ∧
      Seen (ids ++ Method.all.filterMap (identifier? es)) s' := by
  obtain ⟨t, s₁, hwalk, hplace⟩ := Edit.andThen_run h
  have hplain := (walk_prepared hes (.visited .pathItem) hwalk).1
  obtain ⟨rfl, rfl⟩ := walk_stripped hes _ _ _ _ hwalk
  rw [stripped_map, if_neg (by simp)] at hplace hplain
  obtain ⟨⟨es', r⟩, s₂, hmethods, hpure⟩ := bind_run.1 hplace
  obtain ⟨he, rfl⟩ := pure_run.1 hpure
  cases he
  obtain ⟨rfl, hs'⟩ := placeMethods_placed (by decide) hplain hs hmethods
  constructor
  · rw [foldl_placedAt (by decide) hplain, strippedParts, List.filterMap_map]
    exact congrArg (Tree.map none) (List.filterMap_congr fun e _ => placedValue_stripped e)
  · rwa [List.filterMap_congr fun m _ => identifier?_strippedParts m] at hs'

theorem pathsOf_placed {depth : Nat} : ∀ {ps ps' : Entries} {ids : List Tree} {s s' : State},
    (∀ e ∈ ps, Tree.Plain e.2) → Seen ids s → pathsOf depth targets ps s = ((ps', .ok ()), s') →
    ps' = ps.filterMap (placedPath targets) ∧ Seen (ids ++ ps.flatMap identifiersAt) s'
  | [], ps', ids, s, s', _, hs, h => by
    obtain ⟨he, rfl⟩ := pure_run.1 h
    cases he
    exact ⟨rfl, by rwa [List.flatMap_nil, List.append_nil]⟩
  | (path, x) :: ps, ps', ids, s, s', hps, hs, h => by
    obtain ⟨hx, htail⟩ := List.forall_mem_cons.1 hps
    rw [pathsOf] at h
    rw [List.flatMap_cons]
    by_cases hskip : (!x.isMap || Reference.isReference x) = true
    · rw [if_pos hskip] at h
      have hplaced : placedPath targets (path, x) = some (path, x) ∧ identifiersAt (path, x) = [] := by
        cases x with
        | map a es =>
          have href := (Bool.or_eq_true_iff.1 hskip).resolve_left Bool.false_ne_true
          exact ⟨if_pos href, if_pos href⟩
        | _ => exact ⟨rfl, rfl⟩
      obtain ⟨⟨ps₁, r⟩, s₁, h₁, hpure⟩ := bind_run.1 h
      obtain ⟨he, rfl⟩ := pure_run.1 hpure
      cases he
      obtain ⟨rfl, hs'⟩ := pathsOf_placed htail hs h₁
      rw [List.filterMap_cons_some hplaced.1, hplaced.2]
      exact ⟨rfl, hs'⟩
    · rw [if_neg hskip] at h
      obtain ⟨hmap, href⟩ := not_or.1 (mt Bool.or_eq_true_iff.2 hskip)
      obtain ⟨es, rfl⟩ := hx.eq_map (by simpa using hmap)
      obtain ⟨⟨x', r⟩, s₁, h₁, hrest⟩ := bind_run.1 h
      cases r with
      | error f => cases (pure_run.1 hrest).1
      | ok =>
        obtain ⟨rfl, hs₁⟩ := pathItem_placed hx hs h₁
        obtain ⟨⟨ps₁, r⟩, s₂, h₂, hpure⟩ := bind_run.1 hrest
        obtain ⟨he, rfl⟩ := pure_run.1 hpure
        have hidentifiers : identifiersAt (path, .map none es) = Method.all.filterMap (identifier? es) :=
          if_neg href
        rw [hidentifiers, ← List.append_assoc]
        by_cases hops : hasOperations (placedItem targets es) = true
        · have hplaced : placedPath targets (path, .map none es) =
              some (path, .map none (placedItem targets es)) :=
            (if_neg href).trans (if_pos hops)
          rw [List.filterMap_cons_some hplaced]
          rw [if_pos (by exact hops)] at he
          cases he
          obtain ⟨rfl, hs'⟩ := pathsOf_placed htail hs₁ h₂
          exact ⟨rfl, hs'⟩
        · have hplaced : placedPath targets (path, .map none es) = none := (if_neg href).trans (if_neg hops)
          rw [List.filterMap_cons_none hplaced]
          rw [if_neg (by exact hops)] at he
          cases he
          obtain ⟨rfl, hs'⟩ := pathsOf_placed htail hs₁ h₂
          exact ⟨rfl, hs'⟩

/-! ## The description -/

theorem stripped_of_not_map (h : t.isMap = false) (hitem : itemKind kind = none) : stripped t kind = t := by
  cases t with
  | map => cases h
  | list a ts =>
    rw [stripped_list, hitem]
    exact congrArg (Tree.list a) (List.map_id' ts)
  | _ => rfl

/-- An edit of the map under a key of a description. -/
theorem value_atKey {key : String} {e : Edit Run} {f : Tree → Tree} (hes : Tree.Plain (.map none es))
    (hf : ∀ x, x.isMap = false → f x = x)
    (he : ∀ ps y, Tree.Plain (.map none ps) → e (.map none ps) s = ((y, .ok ()), s') → y = f (.map none ps))
    (h : Edit.value key (Edit.whenMap e) (.map none es) s = ((x', .ok ()), s')) :
    x' = .map none (atKey key f es) ∧
      ((es.orNull key).isMap = false ∧ s' = s ∨ ∃ ps, es.get? key = some (.map none ps) ∧
        Tree.Plain (.map none ps) ∧ e (.map none ps) s = ((f (.map none ps), .ok ()), s')) := by
  have hatKey : (∀ x, es.get? key = some x → f x = x) → atKey key f es = es := by
    intro hsame
    refine (List.map_congr_left fun e he => ?_).trans (List.map_id _)
    by_cases hk : e.1 = .text key
    · have hx : es.get? key = some e.2 := by
        rw [Entries.get?, ← hk]
        exact Entries.at?_of_mem (Tree.plain_map.1 hes).2.1.nodup he
      rw [if_pos hk, hsame e.2 hx]
      rfl
    · rw [if_neg hk]
      rfl
  obtain ⟨_, _, es', ⟨⟩, rfl, hrun⟩ | ⟨hnone, -⟩ := Edit.value_run h
  · cases hx : es.get? key with
    | none =>
      obtain ⟨-, -, hat⟩ := Edit.valueIn_run hrun
      rw [← Entries.get?_eq_at?, hx] at hat
      obtain ⟨rfl, rfl⟩ := hat
      rw [hatKey fun x hx' => by cases hx.symm.trans hx']
      exact ⟨rfl, .inl ⟨by rw [Entries.orNull, hx]; rfl, rfl⟩⟩
    | some x =>
      have hplain := ((Tree.plain_map.1 hes).2.2 _ (Entries.mem_of_at? hx)).2
      obtain ⟨y, rfl, hy⟩ := Edit.valueIn_put hrun hx
      rw [Edit.shared_of_anchor hplain.anchor_eq] at hy
      obtain ⟨hmap, hy⟩ | ⟨hmap, rfl, rfl⟩ := Edit.whenMap_run hy
      · obtain ⟨ps, rfl⟩ := hplain.eq_map hmap
        obtain rfl := he ps y hplain hy
        refine ⟨congrArg (Tree.map none) ?_, .inr ⟨ps, rfl, hplain, hy⟩⟩
        rw [Entries.put_eq_map _ (Tree.plain_map.1 hes).2.1.nodup (List.mem_map_of_mem (Entries.mem_of_at? hx))]
        refine List.map_congr_left fun e he => ?_
        by_cases hk : e.1 = .text key
        · rw [if_pos hk, if_pos hk, value_eq hes hx he hk, hk]
        · rw [if_neg hk, if_neg hk]
      · rw [hatKey fun z hz => by cases hx.symm.trans hz; exact hf _ hmap,
          Entries.put_self (k := .text key) hx]
        exact ⟨rfl, .inl ⟨by rw [Entries.orNull, hx]; exact hmap, rfl⟩⟩
  · cases hnone

theorem get?_atKey {key other : String} (f : Tree → Tree) :
    (atKey key f es).get? other = (es.get? other).map fun x => if other = key then f x else x := by
  have hat := Entries.at?_map (fun k t => if k = .text key then f t else t) (.text other) es
  simp only [Scalar.text.injEq] at hat
  exact hat

theorem orNull_atKey {key other : String} (f : Tree → Tree) (h : other ≠ key) :
    (atKey key f es).orNull other = es.orNull other := by
  simp only [Entries.orNull, get?_atKey, if_neg h, Option.map_id']

theorem orNull_atKey_self {key : String} {f : Tree → Tree} (hf : f .null = .null) :
    (atKey key f es).orNull key = f (Entries.orNull es key) := by
  rw [Entries.orNull, Entries.orNull, get?_atKey]
  cases Entries.get? es key with
  | none => exact hf.symm
  | some x => exact if_pos rfl

/-- The edit of the map of paths. -/
theorem paths_placed {depth : Nat} {ids : List Tree} (hes : Tree.Plain (.map none es)) (hs : Seen ids s)
    (h : (do
      let (paths, r) ← pathsOf depth targets es
      pure (.map none paths, r) : Run (Edited Unit)) s = ((x', .ok ()), s')) :
    x' = placedPaths targets (.map none es) ∧ Seen (ids ++ es.flatMap identifiersAt) s' := by
  obtain ⟨⟨es', r⟩, s₁, hplaced, hpure⟩ := bind_run.1 h
  obtain ⟨he, rfl⟩ := pure_run.1 hpure
  cases he
  obtain ⟨rfl, hs'⟩ := pathsOf_placed (fun e he => ((Tree.plain_map.1 hes).2.2 e he).2) hs hplaced
  exact ⟨rfl, hs'⟩

theorem document_described {depth : Nat} (ht : Tree.Plain t)
    (h : document depth targets t ⟨[], [], []⟩ = ((t', .ok ()), s')) :
    t' = described targets t ∧ Seen (operationIds t) s' := by
  have hnone : Seen [] ⟨[], [], []⟩ := ⟨rfl, .nil⟩
  obtain ⟨u, s₁, h₁, h₂⟩ := Edit.andThen_run h
  by_cases hmap : t.isMap = true
  · obtain ⟨es, rfl⟩ := ht.eq_map hmap
    obtain ⟨es₁, rfl, hes₁, -⟩ := value_prepared "components" ht rfl
      (fun hx _ hrun => walk_prepared hx .components hrun) h₁
    obtain ⟨he, hstate⟩ := value_atKey (f := fun x => stripped x .components) ht
      (fun x hx => stripped_of_not_map hx rfl)
      (fun ps y hps hrun => (walk_stripped hps _ _ _ _ hrun).1) h₁
    obtain rfl : s₁ = ⟨[], [], []⟩ := by
      obtain ⟨-, rfl⟩ | ⟨ps, -, hps, hrun⟩ := hstate
      · rfl
      · exact (walk_stripped hps _ _ _ _ hrun).2
    cases he
    obtain ⟨rfl, hseen⟩ := value_atKey (f := placedPaths targets) hes₁
      (fun x hx => by cases x <;> first | rfl | cases hx)
      (fun ps y hps hrun => (paths_placed hps hnone hrun).1) h₂
    refine ⟨rfl, ?_⟩
    rw [operationIds, pathItems_map,
      ← orNull_atKey (fun x => stripped x .components) (show "paths" ≠ "components" by decide)]
    obtain ⟨hno, rfl⟩ | ⟨ps, hps, hplain, hrun⟩ := hseen
    · have hentries := Option.isSome_eq_false_iff.1 hno
      rw [Option.isNone_iff_eq_none.1 hentries]
      exact hnone
    · rw [Entries.orNull, hps]
      exact (paths_placed hplain hnone hrun).2
  · have hentries : t.entries? = none := by simpa [Tree.isMap] using hmap
    obtain ⟨_, es, _, rfl, -⟩ | ⟨-, rfl, rfl⟩ := Edit.value_run h₁
    · cases hentries
    obtain ⟨_, es, _, rfl, -⟩ | ⟨-, rfl, rfl⟩ := Edit.value_run h₂
    · cases hentries
    have hsame : described targets t' = t' ∧ operationIds t' = [] := by
      cases t' with
      | map => cases hentries
      | _ => exact ⟨rfl, rfl⟩
    rw [hsame.1, hsame.2]
    exact ⟨rfl, hnone⟩

theorem key_placedEntry {e e' : Scalar × Tree} (h : placedEntry targets e = some e') : e'.1 = e.1 := by
  unfold placedEntry at h
  split at h
  · split at h
    · obtain ⟨_, -, rfl⟩ := Option.map_eq_some_iff.1 h
      rfl
    · cases h
      rfl
  · cases h
    rfl

theorem key_placedPath {e e' : Scalar × Tree} (h : placedPath targets e = some e') : e'.1 = e.1 := by
  unfold placedPath at h
  split at h
  · split at h
    · cases h
      rfl
    · split at h
      · cases h
        rfl
      · cases h
  · cases h
    rfl

/-- What is left under a method of a path item. -/
theorem get?_placedItem (hes : es.keys.Nodup) (m : Method) : (placedItem targets es).get? m.key =
    (es.get? m.key).bind fun x => match x with
      | .map a op => (target? targets op).map fun target =>
        .map a ((strippedParts .operation op).set integrationKey target.integration)
      | _ => some x := by
  have hm : ∃ n ∈ Method.all, Scalar.text m.key = .text n.key := ⟨m, m.mem_all, rfl⟩
  rw [placedItem, Entries.get?, Entries.at?_filterMap (fun e _ e' he => key_placedEntry he) hes]
  refine Option.bind_congr fun x _ => ?_
  rw [placedEntry, if_pos hm]
  cases x with
  | map a op =>
    dsimp only
    rw [Option.map_map]
    rfl
  | _ => rfl

theorem pathItems_described (t : Tree) :
    pathItems (described targets t) = (pathItems t).filterMap (placedPath targets) := by
  cases t with
  | map a es =>
    rw [described, pathItems_map, pathItems_map, orNull_atKey_self rfl, orNull_atKey _ (by decide)]
    cases Entries.orNull es "paths" <;> rfl
  | _ => rfl

theorem plain_pathItems (ht : Tree.Plain t) : Tree.Plain (.map none (pathItems t)) := by
  have hnil : Tree.Plain (.map none []) := Tree.plain_map.2 ⟨rfl, .nil, nofun⟩
  cases t with
  | map a es =>
    rw [pathItems_map, Entries.orNull]
    cases hx : Entries.get? es "paths" with
    | none => exact hnil
    | some x =>
      have hplain := ((Tree.plain_map.1 ht).2.2 _ (Entries.mem_of_at? hx)).2
      cases x with
      | map b ps =>
        obtain rfl := (Tree.plain_map.1 hplain).1
        exact hplain
      | _ => exact hnil
  | _ => exact hnil

/-- A path item that is no reference in the description for the gateway. -/
theorem at?_pathItems_described {path : Scalar} {item : Entries} (ht : Tree.Plain t)
    (hpath : (pathItems t).at? path = some (.map none item))
    (href : Reference.isReference (.map none item) = false) :
    Tree.Plain (.map none item) ∧ (pathItems (described targets t)).at? path =
      if hasOperations (placedItem targets item) then some (.map none (placedItem targets item)) else none := by
  obtain ⟨-, hkeys, hitems⟩ := Tree.plain_map.1 (plain_pathItems ht)
  refine ⟨(hitems _ (Entries.mem_of_at? hpath)).2, ?_⟩
  have hplaced : placedPath targets (path, .map none item) =
      if hasOperations (placedItem targets item) then some (path, .map none (placedItem targets item))
      else none :=
    if_neg (by rw [href]; exact Bool.false_ne_true)
  rw [pathItems_described, Entries.at?_filterMap (fun e _ e' he => key_placedPath he) hkeys.nodup, hpath,
    Option.bind_some, hplaced]
  split <;> rfl

/-- What stands under a method of a path. -/
def operationAt (t : Tree) (path : Scalar) (m : Method) : Option Tree :=
  (((pathItems t).at? path).bind Tree.entries?).bind fun item => item.get? m.key

/-- An operation with its parts stripped that names its function. -/
def integrated (op : Entries) (target : Target) : Tree :=
  .map none ((strippedParts .operation op).set integrationKey target.integration)

theorem get?_placedItem_eq_none {m : Method} (hes : Tree.Plain (.map none es)) :
    (placedItem targets es).get? m.key = none ↔
      ∀ x, es.get? m.key = some x → ∃ op, x = .map none op ∧ target? targets op = none := by
  obtain ⟨-, hkeys, hall⟩ := Tree.plain_map.1 hes
  rw [get?_placedItem hkeys.nodup]
  cases hx : es.get? m.key with
  | none => simp
  | some x =>
    cases x with
    | map a op =>
      obtain rfl := (Tree.plain_map.1 (hall _ (Entries.mem_of_at? hx)).2).1
      simp
    | _ => simp

/-- A path item has no operations left if all that stands under its methods is operations without functions. -/
theorem hasOperations_placedItem (hes : Tree.Plain (.map none es)) :
    hasOperations (placedItem targets es) = false ↔ ∀ (m : Method) (x : Tree), es.get? m.key = some x →
      ∃ op, x = .map none op ∧ target? targets op = none := by
  have hnone : hasOperations (placedItem targets es) = false ↔
      ∀ m : Method, (placedItem targets es).get? m.key = none := by
    simp [hasOperations, Entries.has, Method.mem_all]
  rw [hnone]
  exact forall_congr' fun m => get?_placedItem_eq_none hes

/-- What the gateway is told of a description. -/
structure Exact (targets : List (String × Target)) (t g : Tree) : Prop where
  /-- Every key and value, in order. -/
  equal : g = described targets t
  /-- No two operations have one identifier. -/
  distinct : (operationIds t).Pairwise fun a b => a.same b = false
  /-- An operation is kept if and only if it has a function, which it names then. -/
  kept : ∀ (path : Scalar) (item : Entries), (pathItems t).at? path = some (.map none item) →
    Reference.isReference (.map none item) = false → ∀ (m : Method) (op : Entries),
      item.get? m.key = some (.map none op) → operationAt g path m = (target? targets op).map (integrated op)
  /-- A path is left out if and only if all that stands under its methods is operations without functions. -/
  removed : ∀ (path : Scalar) (item : Entries), (pathItems t).at? path = some (.map none item) →
    Reference.isReference (.map none item) = false → ((pathItems g).at? path = none ↔
      ∀ (m : Method) (x : Tree), item.get? m.key = some x → ∃ op, x = .map none op ∧ target? targets op = none)
  /-- All else is as it was. -/
  others : ∀ key, key ≠ "paths" → key ≠ "components" → g.get? key = t.get? key

theorem exact_described (ht : Tree.Plain t) (hids : (operationIds t).Pairwise fun a b => a.same b = false) :
    Exact targets t (described targets t) where
  equal := rfl
  distinct := hids
  kept path item hpath href m op hop := by
    obtain ⟨hitem, hat⟩ := at?_pathItems_described ht hpath href
    rw [operationAt, hat]
    cases hops : hasOperations (placedItem targets item) with
    | true =>
      show (placedItem targets item).get? m.key = _
      rw [get?_placedItem (Tree.plain_map.1 hitem).2.1.nodup, hop]
      rfl
    | false =>
      obtain ⟨_, ⟨⟩, hnone⟩ := (hasOperations_placedItem hitem).1 hops m _ hop
      rw [hnone]
      rfl
  removed path item hpath href := by
    obtain ⟨hitem, hat⟩ := at?_pathItems_described ht hpath href
    rw [hat, ← hasOperations_placedItem hitem]
    cases hasOperations (placedItem targets item) <;> simp
  others key hpaths hcomponents := by
    cases t with
    | map a es =>
      show (atKey _ _ (atKey _ _ es)).get? key = Entries.get? es key
      simp only [get?_atKey, if_neg hpaths, if_neg hcomponents, Option.map_id']
    | _ => rfl

/-- The gateway's description of a description without shared nodes. -/
theorem describe_exact {g : Tree} (ht : Tree.Plain t) (h : (describe t targets).1 = .ok g) :
    Exact targets t g := by
  unfold describe at h
  generalize hrun : (document (t.anchorBound + 1) targets t).run ⟨[], [], []⟩ = outcome at h
  obtain ⟨⟨t', r⟩, s⟩ := outcome
  cases r with
  | error f => cases h
  | ok =>
    cases h
    obtain ⟨rfl, hseen⟩ := document_described ht hrun
    rw [Tree.settle_plain _ (document_prepared ht hrun).1]
    exact exact_described ht hseen.distinct

/-- A description of which one operation has a function, one path is left with no operations and one path
item is a reference. -/
def samplePlain : Tree :=
  .object [("openapi", .text "3.0.0"),
    ("paths", .object [
      ("/a", .object [
        ("parameters", .array [.object [("name", .text "foo"), ("in", .text "query"),
          ("schema", sampleSchema)]]),
        ("get", .object [("operationId", .text "watchFoo"),
          ("responses", .object [("200", .object [("content", .object [("application/json",
            .object [("schema", sampleSchema)])])])])]),
        ("delete", .object [("operationId", .text "dropFoo")])]),
      ("/b", .object [("post", .object [("operationId", .text "putBar")])]),
      ("/c", .object [("$ref", .text "#/paths/~1a")])]),
    ("components", .object [("schemas", .object [("Foo", sampleSchema)])])]

theorem exact_samplePlain : ∃ g, (describe samplePlain sampleTargets).1 = .ok g ∧
    Exact sampleTargets samplePlain g := by
  have hplain : Tree.Plain samplePlain := by simp [samplePlain, sampleSchema, Tree.array, Scalar.anchor]
  have hok : (describe samplePlain sampleTargets).1.toOption.isSome = true := by decide +kernel
  obtain ⟨g, hg⟩ := Option.isSome_iff_exists.1 hok
  have hg := eq_ok_of_toOption hg
  exact ⟨g, hg, describe_exact hplain hg⟩

example : (pathItems (described sampleTargets samplePlain)).keys = [.text "/a", .text "/c"] := by decide +kernel

/-! ## A shared operation -/

/-- An operation that stands under a key of its own and under a path. -/
def sampleShared : Tree :=
  let operation : Tree := .map (some 0) [(.text "operationId", .text "watchFoo")]
  .object [("openapi", .text "3.0.0"), ("x-template", operation),
    ("paths", .object [("/a", .object [("get", operation)])])]

/-- A node that two places share names its function at both. -/
theorem others_sampleShared : ∃ g, (describe sampleShared sampleTargets).1 = .ok g ∧
    g.get? "x-template" ≠ sampleShared.get? "x-template" := by
  have hrun : ∃ (records : List (Nat × Tree)) (t : Tree),
      (describe sampleShared sampleTargets).1 = .ok (t.settle records) ∧ t.anchor = none ∧
        t.getD "x-template" = sampleShared.getD "x-template" ∧ ∃ es : Entries,
          records.lookup 0 = some (.map (some 0) es) ∧ (es.get? integrationKey).isSome = true :=
    ⟨_, _, rfl, rfl, rfl, _, rfl, rfl⟩
  obtain ⟨records, t, hg, hanchor, ht, es, hes, hnames⟩ := hrun
  refine ⟨_, hg, fun hsame => ?_⟩
  have hx : (t.settle records).getD "x-template" = sampleShared.getD "x-template" := by
    rw [Tree.getD, hsame]
    rfl
  rw [Tree.getD_settle _ hanchor, ht] at hx
  have hkey := congrArg (Tree.get? · integrationKey) ((Tree.settle_recorded _ hes).symm.trans hx)
  have hat := Entries.at?_map (fun _ => Tree.settleWithin records records.length) (.text integrationKey) es
  have hnone : (Entries.get? es integrationKey).map (Tree.settleWithin records records.length) = none :=
    hat.symm.trans hkey
  rw [Option.map_eq_none_iff.1 hnone] at hnames
  cases hnames

end ApiContract.Gateway
