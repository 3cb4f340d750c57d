import ApiContract.Proofs.Gateway.Walk

/-!
# Where the functions of operations are named

`PlacedAs targets x x'` says what becomes of the value under a method: an operation whose identifier has
a function names it (`Names`), every other operation is left out. A path item is placed method by
method (`pathItem_run`), and the paths with an operation are kept (`pathsOf_run`).
-/

namespace ApiContract

theorem Method.key_injective {m n : Method} (h : m.key = n.key) : m = n := by
  cases m <;> cases n <;> first | rfl | exact absurd h (by decide)

theorem Method.mem_all (m : Method) : m ∈ all := by
  cases m <;> decide

theorem Entries.get?_of_orNull {es : Entries} {key : String} {t : Tree} (h : es.orNull key = t)
    (ht : t ≠ .null) : es.get? key = some t := by
  rw [Entries.orNull] at h
  cases hx : es.get? key with
  | none =>
    rw [hx] at h
    exact absurd h.symm ht
  | some x =>
    rw [hx] at h
    exact congrArg some h

namespace Gateway

open Walk

variable {targets : List (String × Target)} {s s' : State} {item item' es es' : Entries} {x x' : Tree}

/-- An operation has an identifier and names a function. -/
structure Names (operation : Entries) (id : String) (target : Target) : Prop where
  id : operation.get? "operationId" = some (.text id)
  function : operation.get? integrationKey = some target.integration

/-- What becomes of the value under a method. -/
inductive PlacedAs (targets : List (String × Target)) : Option Tree → Option Tree → Prop
  | absent : PlacedAs targets none none
  | other {x : Tree} (map : x.isMap = false) : PlacedAs targets (some x) (some x)
  | removed {es : Entries}
      (unserved : ∀ id, es.get? "operationId" = some (.text id) → targets.lookup id = none) :
      PlacedAs targets (some (.map none es)) none
  | named {es es' : Entries} {id : String} {target : Target}
      (same : es.get? "operationId" = some (.text id)) (served : targets.lookup id = some target)
      (names : Names es' id target) :
      PlacedAs targets (some (.map none es)) (some (.map none es'))

/-- What has been changed before only behind edges is placed as it was at first. -/
theorem PlacedAs.of_operates {y : Option Tree} (hx : Operates x x') (h : PlacedAs targets (some x') y) :
    PlacedAs targets (some x) y := by
  obtain ⟨-, rfl⟩ | ⟨es, es', rfl, rfl, hoff⟩ := hx
  · exact h
  · have hid : Entries.get? es' "operationId" = Entries.get? es "operationId" :=
      hoff.get? (by decide)
    cases h with
    | other hmap => cases hmap
    | removed hunserved => exact .removed fun id h => hunserved id (hid.trans h)
    | named h hserved hnames => exact .named (hid.symm.trans h) hserved hnames

/-- What is left of a path item after one of its methods. -/
def Placed (targets : List (String × Target)) (m : Method) (item item' : Entries) : Prop :=
  (∀ k, k ≠ .text m.key → item'.at? k = item.at? k) ∧
    PlacedAs targets (item.get? m.key) (item'.get? m.key)

theorem placed_erase {m : Method} {op : Entries} (hx : item.get? m.key = some (.map none op))
    (hunserved : ∀ id, op.get? "operationId" = some (.text id) → targets.lookup id = none) :
    Placed targets m item (item.erase m.key) := by
  refine ⟨fun k hk => by rw [Entries.at?_erase, if_neg hk], ?_⟩
  have hnone : (item.erase m.key).get? m.key = none := by
    rw [Entries.get?, Entries.at?_erase, if_pos rfl]
  rw [hx, hnone]
  exact .removed hunserved

theorem placed_integrate {m : Method} {op : Entries} {id : String} {target : Target}
    (hx : item.get? m.key = some (.map none op)) (hid : op.get? "operationId" = some (.text id))
    (hserved : targets.lookup id = some target)
    (h : Edit.valueIn (.text m.key) (integrate target) item s = ((item', .ok ()), s')) :
    Placed targets m item item' := by
  obtain ⟨-, hothers, hat⟩ := Edit.valueIn_run h
  refine ⟨hothers, ?_⟩
  rw [Entries.get?] at hx
  rw [hx] at hat
  obtain ⟨x', hx', hrun⟩ := hat
  rw [Edit.shared_of_anchor (by rfl)] at hrun
  obtain ⟨he, -⟩ := pure_run.1 hrun
  cases he
  rw [Entries.get?, Entries.get?, hx, hx']
  refine .named hid hserved ⟨?_, ?_⟩
  · rw [Entries.get?, Entries.set, Entries.at?_put_ne (by decide)]
    exact hid
  · rw [Entries.get?, Entries.set, Entries.at?_put_self]

/-- The function of an operation. -/
def target? (targets : List (String × Target)) (operation : Entries) : Option Target :=
  match operation.get? "operationId" with
  | some (.text id) => targets.lookup id
  | _ => none

theorem target?_of_scalar {op : Entries} {id : Scalar} (hid : op.orNull "operationId" = .scalar id)
    (hnull : id ≠ .null) : target? targets op = match id with
      | .text id => targets.lookup id
      | _ => none := by
  have hget := Entries.get?_of_orNull hid fun he => hnull (Tree.scalar.inj he)
  unfold target?
  rw [hget]
  cases id <;> rfl

/-- The step at an operation with an identifier. -/
theorem placeMethod_of_identifier {path : Scalar} {m : Method} {a : Anchor} {op : Entries} {id : Scalar}
    (hx : item.get? m.key = some (.map a op)) (hid : op.orNull "operationId" = .scalar id)
    (hnull : id ≠ .null) : placeMethod targets path item m = (do
      if (← get).seen.any id.same then return (item, .error (.duplicateOperationId id.display))
      modify fun s => { s with seen := id :: s.seen }
      match target? targets op with
      | none =>
        report (.endpointUnmapped (Operation.endpointText m path.display) id.display)
        return (item.erase m.key, .ok ())
      | some target => Edit.valueIn (.text m.key) (integrate target) item) := by
  unfold placeMethod
  rw [hx]
  dsimp only [Option.bind_some, Tree.entries?]
  rw [hid, target?_of_scalar hid hnull]
  cases id <;> first | exact absurd rfl hnull | rfl

/-- A run at one method changes nothing where there is no operation. An operation without an identifier is
taken away. An identifier has not been seen before, and has been seen from then on; its operation is
taken away or names its function. -/
theorem placeMethod_outcome {path : Scalar} {m : Method}
    (h : placeMethod targets path item m s = ((item', .ok ()), s')) :
    ((item.get? m.key).bind Tree.entries? = none ∧ item' = item ∧ s'.seen = s.seen) ∨
      ∃ (a : Anchor) (op : Entries), item.get? m.key = some (.map a op) ∧
        ((op.orNull "operationId" = .null ∧ item' = item.erase m.key ∧ s'.seen = s.seen) ∨
          ∃ (id : Scalar) (s₁ : State), op.orNull "operationId" = .scalar id ∧ id ≠ .null ∧
            s.seen.any id.same = false ∧ s₁.seen = id :: s.seen ∧
            ((target? targets op = none ∧ item' = item.erase m.key ∧ s'.seen = s₁.seen) ∨
              ∃ target, target? targets op = some target ∧
                Edit.valueIn (.text m.key) (integrate target) item s₁ = ((item', .ok ()), s'))) := by
  have hrun := h
  unfold placeMethod at h
  cases hx : item.get? m.key with
  | none =>
    rw [hx] at h
    obtain ⟨he, rfl⟩ := pure_run.1 h
    cases he
    exact .inl ⟨rfl, rfl, rfl⟩
  | some x =>
    rw [hx] at h
    cases x with
    | map a op =>
      refine .inr ⟨a, op, rfl, ?_⟩
      dsimp only [Option.bind_some, Tree.entries?] at h
      cases hid : Entries.orNull op "operationId" with
      | scalar id =>
        by_cases hnull : id = .null
        · subst hnull
          rw [hid] at h
          obtain ⟨_, s₁, h₁, h⟩ := bind_run.1 h
          obtain ⟨he, rfl⟩ := pure_run.1 h
          cases he
          obtain rfl := modify_run.1 h₁
          exact .inl ⟨rfl, rfl, rfl⟩
        · rw [placeMethod_of_identifier hx hid hnull] at hrun
          obtain ⟨_, _, hget, h⟩ := bind_run.1 hrun
          obtain ⟨rfl, rfl⟩ := get_run.1 hget
          split at h
          · cases (pure_run.1 h).1
          rename_i hnew
          obtain ⟨_, s₁, h₁, h⟩ := bind_run.1 h
          obtain rfl := modify_run.1 h₁
          refine .inr ⟨id, { s with seen := id :: s.seen }, rfl, hnull, by simpa using hnew, rfl, ?_⟩
          cases hserved : target? targets op with
          | none =>
            rw [hserved] at h
            obtain ⟨_, s₂, h₂, h⟩ := bind_run.1 h
            obtain ⟨he, rfl⟩ := pure_run.1 h
            cases he
            obtain rfl := modify_run.1 h₂
            exact .inl ⟨rfl, rfl, rfl⟩
          | some target =>
            rw [hserved] at h
            exact .inr ⟨target, rfl, h⟩
      | _ =>
        rw [hid] at h
        cases (pure_run.1 h).1
    | _ =>
      obtain ⟨he, rfl⟩ := pure_run.1 h
      cases he
      exact .inl ⟨rfl, rfl, rfl⟩

/-- A run at one method changes nothing, takes the operation away or names its function. -/
theorem placeMethod_cases {path : Scalar} {m : Method}
    (h : placeMethod targets path item m s = ((item', .ok ()), s')) :
    ((item.get? m.key).bind Tree.entries? = none ∧ item' = item) ∨
      ∃ (a : Anchor) (op : Entries), item.get? m.key = some (.map a op) ∧
        (((∀ id, op.get? "operationId" = some (.text id) → targets.lookup id = none) ∧
            item' = item.erase m.key) ∨
          ∃ id target s₁, op.get? "operationId" = some (.text id) ∧
            targets.lookup id = some target ∧
            Edit.valueIn (.text m.key) (integrate target) item s₁ = ((item', .ok ()), s')) := by
  obtain ⟨hnone, rfl, -⟩ | ⟨a, op, hx, ⟨hnull, rfl, -⟩ | ⟨id, s₁, hid, hnull, -, -, h⟩⟩ := placeMethod_outcome h
  · exact .inl ⟨hnone, rfl⟩
  · refine .inr ⟨a, op, hx, .inl ⟨fun id hid => ?_, rfl⟩⟩
    rw [Entries.orNull, hid] at hnull
    cases hnull
  · refine .inr ⟨a, op, hx, ?_⟩
    obtain ⟨hunserved, rfl, -⟩ | ⟨target, hserved, h⟩ := h
    · refine .inl ⟨fun id hid => ?_, rfl⟩
      rwa [target?, hid] at hunserved
    · rw [target?_of_scalar hid hnull] at hserved
      cases id with
      | text id => exact .inr ⟨id, target, s₁, Entries.get?_of_orNull hid (by simp), hserved, h⟩
      | _ => cases hserved

theorem placeMethod_run {path : Scalar} {m : Method} (hanchor : (item.orNull m.key).anchor = none)
    (h : placeMethod targets path item m s = ((item', .ok ()), s')) : Placed targets m item item' := by
  obtain ⟨hother, rfl⟩ | ⟨a, op, hx, h⟩ := placeMethod_cases h
  · refine ⟨fun _ _ => rfl, ?_⟩
    cases hx : item'.get? m.key with
    | none => exact .absent
    | some x =>
      rw [hx] at hother
      exact .other (Option.isSome_eq_false_iff.2 (Option.isNone_iff_eq_none.2 hother))
  · obtain rfl : a = none := by
      rw [Entries.orNull, hx] at hanchor
      exact hanchor
    obtain ⟨hunserved, rfl⟩ | ⟨id, target, s₁, hid, hserved, h⟩ := h
    · exact placed_erase hx hunserved
    · exact placed_integrate hx hid hserved h

theorem placeMethods_run {path : Scalar} : ∀ {ms : List Method} {item item' : Entries} {s s' : State},
    ms.Nodup → (∀ m ∈ ms, (item.orNull m.key).anchor = none) →
    placeMethods targets path ms item s = ((item', .ok ()), s') →
    (∀ k, (∀ m ∈ ms, k ≠ .text m.key) → item'.at? k = item.at? k) ∧
      ∀ m ∈ ms, PlacedAs targets (item.get? m.key) (item'.get? m.key)
  | [], item, item', s, s', _, _, h => by
    obtain ⟨he, -⟩ := pure_run.1 h
    cases he
    exact ⟨fun _ _ => rfl, fun _ hm => absurd hm List.not_mem_nil⟩
  | m :: ms, item, item', s, s', hn, hanchor, h => by
    obtain ⟨hnot, hn⟩ := List.nodup_cons.1 hn
    obtain ⟨⟨item₁, r⟩, s₁, h₁, h⟩ := bind_run.1 h
    cases r with
    | error f => cases (pure_run.1 h).1
    | ok =>
      obtain ⟨hothers, hm⟩ := placeMethod_run (hanchor m List.mem_cons_self) h₁
      have hne : ∀ n ∈ ms, (.text n.key : Scalar) ≠ .text m.key := by
        intro n hn' he
        exact hnot (Method.key_injective (Scalar.text.inj he) ▸ hn')
      obtain ⟨hothers', hms⟩ := placeMethods_run hn (fun n hn' => by
        rw [Entries.orNull, Entries.get?, hothers _ (hne n hn')]
        exact hanchor n (List.mem_cons_of_mem _ hn')) h
      refine ⟨fun k hk => ?_, fun n hn' => ?_⟩
      · rw [hothers' k fun n hn' => hk n (List.mem_cons_of_mem _ hn'),
          hothers k (hk m List.mem_cons_self)]
      · rcases List.mem_cons.1 hn' with rfl | hn'
        · rw [Entries.get?, Entries.get?, hothers' _ fun n hn' he => hne n hn' he.symm]
          exact hm
        · have := hms n hn'
          rwa [Entries.get?, Entries.get?, hothers _ (hne n hn')] at this

/-! ## Path items -/

/-- What becomes of a path item. -/
inductive ItemPlaced (targets : List (String × Target)) : Tree → Tree → Prop
  | other {x : Tree} (map : x.isMap = false) : ItemPlaced targets x x
  | item {es es' : Entries} (reference : es'.get? "$ref" = es.get? "$ref")
      (methods : ∀ m : Method, PlacedAs targets (es.get? m.key) (es'.get? m.key)) :
      ItemPlaced targets (.map none es) (.map none es')

theorem pathItem_run {depth : Nat} {path : Scalar}
    (hanchor : ∀ m : Method, (es.orNull m.key).anchor = none)
    (h : pathItem depth targets path (.map none es) s = ((x', .ok ()), s')) :
    ItemPlaced targets (.map none es) x' := by
  obtain ⟨t, s₁, hwalk, h⟩ := Edit.andThen_run h
  obtain ⟨es₁, rfl, hoff, hops⟩ := pathItem_walk (fun m _ => hanchor m) hwalk
  obtain ⟨⟨es', r⟩, s₂, hplace, h⟩ := bind_run.1 h
  obtain ⟨he, -⟩ := pure_run.1 h
  cases he
  have hfrom : ∀ m : Method, (es.get? m.key = none ∧ es₁.get? m.key = none) ∨
      ∃ t t', es.get? m.key = some t ∧ es₁.get? m.key = some t' ∧ Operates t t' := by
    intro m
    cases ht : es.get? m.key with
    | none => exact .inl ⟨rfl, (Entries.at?_eq_none_congr hoff.keys).2 ht⟩
    | some t =>
      obtain ⟨t', ht', hop⟩ := hops m (Method.mem_all m) t ht
      exact .inr ⟨t, t', rfl, ht', hop⟩
  have hanchor₁ : ∀ m ∈ Method.all, (es₁.orNull m.key).anchor = none := by
    intro m _
    have hm := hanchor m
    rw [Entries.orNull] at hm ⊢
    obtain ⟨-, h₁⟩ | ⟨t, t', ht, ht', hop⟩ := hfrom m
    · rw [h₁]
      rfl
    · rw [ht']
      rw [ht] at hm
      obtain ⟨-, rfl⟩ | ⟨_, _, -, rfl, -⟩ := hop
      · exact hm
      · rfl
  obtain ⟨hothers, hmethods⟩ := placeMethods_run (by decide) hanchor₁ hplace
  refine .item ?_ fun m => ?_
  · rw [Entries.get?, hothers _ (by decide)]
    exact hoff.get? (by decide)
  · have hm := hmethods m (Method.mem_all m)
    obtain ⟨h₀, h₁⟩ | ⟨t, t', ht, ht', hop⟩ := hfrom m
    · rw [h₁] at hm
      rwa [h₀]
    · rw [ht'] at hm
      rw [ht]
      exact hm.of_operates hop

/-! ## Paths -/

/-- A path item that is no reference. It shares neither itself nor its operations with another place. -/
structure InPlace (x : Tree) : Prop where
  anchor : x.anchor = none
  noReference : Reference.isReference x = false
  reference : (x.getD "$ref").anchor = none
  operations : ∀ m : Method, (x.getD m.key).anchor = none

instance {p : Method → Prop} [DecidablePred p] : Decidable (∀ m, p m) :=
  decidable_of_iff (∀ m ∈ Method.all, p m) ⟨fun h m => h m m.mem_all, fun h m _ => h m⟩

instance {x : Tree} : Decidable (InPlace x) :=
  decidable_of_iff (x.anchor = none ∧ Reference.isReference x = false ∧
      (x.getD "$ref").anchor = none ∧ ∀ m : Method, (x.getD m.key).anchor = none)
    ⟨fun ⟨ha, hn, hr, ho⟩ => ⟨ha, hn, hr, ho⟩, fun ⟨ha, hn, hr, ho⟩ => ⟨ha, hn, hr, ho⟩⟩

/-- What becomes of paths: those with an operation are kept, each with its path item placed. -/
inductive PathsPlaced (targets : List (String × Target)) : Entries → Entries → Prop
  | nil : PathsPlaced targets [] []
  | kept {path : Scalar} {x x' : Tree} {ps ps' : Entries} (item : ItemPlaced targets x x')
      (rest : PathsPlaced targets ps ps') : PathsPlaced targets ((path, x) :: ps) ((path, x') :: ps')
  | dropped {path : Scalar} {x x' : Tree} {ps ps' : Entries} (item : ItemPlaced targets x x')
      (empty : hasOperations (x'.entries?.getD []) = false) (rest : PathsPlaced targets ps ps') :
      PathsPlaced targets ((path, x) :: ps) ps'

theorem PathsPlaced.from {ps ps' : Entries} (h : PathsPlaced targets ps ps') {e' : Scalar × Tree}
    (he' : e' ∈ ps') : ∃ e ∈ ps, ItemPlaced targets e.2 e'.2 := by
  induction h with
  | nil => exact absurd he' List.not_mem_nil
  | kept hitem _ ih =>
    rcases List.mem_cons.1 he' with rfl | he'
    · exact ⟨_, List.mem_cons_self, hitem⟩
    · obtain ⟨e, he, hp⟩ := ih he'
      exact ⟨e, List.mem_cons_of_mem _ he, hp⟩
  | dropped _ _ _ ih =>
    obtain ⟨e, he, hp⟩ := ih he'
    exact ⟨e, List.mem_cons_of_mem _ he, hp⟩

theorem PathsPlaced.to {ps ps' : Entries} (h : PathsPlaced targets ps ps') {e : Scalar × Tree}
    (he : e ∈ ps) : ∃ x', ItemPlaced targets e.2 x' ∧
      ((∃ e' ∈ ps', e'.2 = x') ∨ hasOperations (x'.entries?.getD []) = false) := by
  induction h with
  | nil => exact absurd he List.not_mem_nil
  | kept hitem _ ih =>
    rcases List.mem_cons.1 he with rfl | he
    · exact ⟨_, hitem, .inl ⟨_, List.mem_cons_self, rfl⟩⟩
    · obtain ⟨x', hx', hkept⟩ := ih he
      exact ⟨x', hx', hkept.imp_left fun ⟨e', he', h⟩ => ⟨e', List.mem_cons_of_mem _ he', h⟩⟩
  | dropped hitem hempty _ ih =>
    rcases List.mem_cons.1 he with rfl | he
    · exact ⟨_, hitem, .inr hempty⟩
    · exact ih he

theorem pathsOf_run {depth : Nat} : ∀ {ps ps' : Entries} {s s' : State}, (∀ e ∈ ps, InPlace e.2) →
    pathsOf depth targets ps s = ((ps', .ok ()), s') → PathsPlaced targets ps ps'
  | [], ps', s, s', _, h => by
    obtain ⟨he, -⟩ := pure_run.1 h
    cases he
    exact .nil
  | (path, x) :: ps, ps', s, s', hin, h => by
    have hx := hin _ List.mem_cons_self
    have hps : ∀ e ∈ ps, InPlace e.2 := fun e he => hin e (List.mem_cons_of_mem _ he)
    rw [pathsOf, hx.noReference, Bool.or_false] at h
    cases hmap : x.isMap with
    | false =>
      rw [hmap] at h
      obtain ⟨⟨ps₁, r⟩, s₁, h₁, h⟩ := bind_run.1 h
      obtain ⟨he, -⟩ := pure_run.1 h
      cases he
      exact .kept (.other hmap) (pathsOf_run hps h₁)
    | true =>
      rw [hmap] at h
      obtain ⟨⟨x', r⟩, s₁, h₁, h⟩ := bind_run.1 h
      rw [Edit.shared_of_anchor hx.anchor] at h₁
      cases r with
      | error f => cases (pure_run.1 h).1
      | ok =>
        obtain ⟨⟨ps₁, r⟩, s₂, h₂, h⟩ := bind_run.1 h
        obtain ⟨he, -⟩ := pure_run.1 h
        cases x with
        | map a es =>
          obtain rfl : a = none := hx.anchor
          have hplaced := pathItem_run hx.operations h₁
          cases hops : hasOperations (x'.entries?.getD []) with
          | true =>
            rw [hops] at he
            cases he
            exact .kept hplaced (pathsOf_run hps h₂)
          | false =>
            rw [hops] at he
            cases he
            exact .dropped hplaced hops (pathsOf_run hps h₂)
        | _ => cases hmap

end Gateway

end ApiContract
