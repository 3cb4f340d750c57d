import ApiContract.Proofs.Compile.Composition
import Mathlib.Data.List.Sort

/-!
# Where the object schemas of a composition stand

A composition is a tree of which the inner nodes are the lists under `allOf`, with references followed where
they stand. The way to a node is its address: the numbers of the parts on the way (`Meets`). What is collected
are the object schemas in the order of their addresses, so that one that is reached on two ways is there twice
(`InOrder`). Collecting fails if and only if some part is `Unfit`: it is of another kind, a reference that
leads nowhere or to where references have led before on the same way, or an `allOf` without a list.

* `collected`: what collecting gives, for every tree and after any references.
* `leaves_eq_ok_iff`, `leaves_eq_error_iff`: the same for whole compositions.
-/

namespace ApiContract.Compile

open Tree

variable {table : Entries} {owner : String} {visited visited' : List String}

/-! ## Addresses -/

/-- A node of a composition and its address. `visited` holds the names that references have led to so far,
`visited'` those at the node. -/
inductive Meets (table : Entries) : List String → Tree → List Nat → List String → Tree → Prop
  | here (visited : List String) (t : Tree) : Meets table visited t [] visited t
  | part {visited visited' : List String} {a b : Anchor} {es : Entries} {ts : List Tree} {i : Nat}
      {t u : Tree} {address : List Nat} : Reference.ofEntries? es = none → Schema.kind es = .ok .allOf →
      es.get? "allOf" = some (.list b ts) → ts[i]? = some t → Meets table visited t address visited' u →
      Meets table visited (.map a es) (i :: address) visited' u
  | reference {visited visited' : List String} {t u : Tree} {r : String} {found : Found table}
      {address : List Nat} : Reference.ofTree? t = some r → find table r = .ok found →
      found.name ∉ visited → Meets table (visited ++ [found.name]) found.schema address visited' u →
      Meets table visited t address visited' u

/-- An object schema of a composition at its address. -/
def ObjectAt (table : Entries) (visited : List String) (t : Tree) (address : List Nat) (es : Entries) :
    Prop :=
  ∃ visited' a, Meets table visited t address visited' (.map a es) ∧
    Reference.ofEntries? es = none ∧ Schema.kind es = .ok .object

/-- A node at which collecting ends. -/
inductive Unfit (table : Entries) (visited : List String) : Tree → Prop
  | kind {t : Tree} : Reference.ofTree? t = none → (∀ a es, t = .map a es →
      Schema.kind es ≠ .ok .object ∧ Schema.kind es ≠ .ok .allOf) → Unfit table visited t
  | missing {t : Tree} {r : String} {f : Failure} : Reference.ofTree? t = some r →
      find table r = .error f → Unfit table visited t
  | repeated {t : Tree} {r : String} {found : Found table} : Reference.ofTree? t = some r →
      find table r = .ok found → found.name ∈ visited → Unfit table visited t
  | parts {a : Anchor} {es : Entries} : Reference.ofEntries? es = none → Schema.kind es = .ok .allOf →
      (es.orNull "allOf").truthy = true → (∀ b ts, es.get? "allOf" ≠ some (.list b ts)) →
      Unfit table visited (.map a es)

/-- Object schemas are all those of a composition, each address once, from left to right. -/
def InOrder (table : Entries) (visited : List String) (t : Tree) (objects : List Entries) : Prop :=
  ∃ placed : List (List Nat × Entries), placed.map (·.2) = objects ∧
    placed.Pairwise (fun p q => p.1 < q.1) ∧
      ∀ address es, (address, es) ∈ placed ↔ ObjectAt table visited t address es

/-- No node of a composition is unfit. -/
def Fit (table : Entries) (visited : List String) (t : Tree) : Prop :=
  ∀ address visited' u, Meets table visited t address visited' u → ¬ Unfit table visited' u

/-- What collecting should give: all object schemas in order if every node is fit, else a failure. -/
def Collected (table : Entries) (visited : List String) (t : Tree) : Except Failure (List Entries) → Prop
  | .ok objects => InOrder table visited t objects ∧ Fit table visited t
  | .error _ => ∃ address visited' u, Meets table visited t address visited' u ∧ Unfit table visited' u

/-! ## Nodes of each kind -/

section

variable {a b : Anchor} {es : Entries} {ts : List Tree} {t u : Tree} {r : String} {address : List Nat}

theorem Meets.of_reference (href : Reference.ofTree? t = some r) {found : Found table}
    (hfind : find table r = .ok found) (h : Meets table visited t address visited' u) :
    (u = t ∧ visited' = visited ∧ address = []) ∨
      Meets table (visited ++ [found.name]) found.schema address visited' u := by
  cases h with
  | here => exact .inl ⟨rfl, rfl, rfl⟩
  | part hdirect => cases hdirect.symm.trans href
  | reference href' hfind' _ h =>
    cases href.symm.trans href'
    cases hfind.symm.trans hfind'
    exact .inr h

theorem Meets.of_parts (hdirect : Reference.ofEntries? es = none)
    (hparts : es.get? "allOf" = some (.list b ts))
    (h : Meets table visited (.map a es) address visited' u) :
    (u = .map a es ∧ visited' = visited ∧ address = []) ∨
      ∃ i t rest, ts[i]? = some t ∧ address = i :: rest ∧ Meets table visited t rest visited' u := by
  cases h with
  | here => exact .inl ⟨rfl, rfl, rfl⟩
  | part _ _ hparts' hi h =>
    cases hparts.symm.trans hparts'
    exact .inr ⟨_, _, _, hi, rfl, h⟩
  | reference href => cases hdirect.symm.trans href

/-- From what is neither a reference nor has a list of parts no other node is met. -/
theorem Meets.of_end (hdirect : Reference.ofEntries? es = none)
    (hparts : Schema.kind es = .ok .allOf → ∀ b ts, es.get? "allOf" ≠ some (.list b ts))
    (h : Meets table visited (.map a es) address visited' u) :
    u = .map a es ∧ visited' = visited ∧ address = [] := by
  cases h with
  | here => exact ⟨rfl, rfl, rfl⟩
  | part _ hkind hallOf => exact absurd hallOf (hparts hkind _ _)
  | reference href => cases hdirect.symm.trans href

/-- An object schema that is met there is the node itself. -/
theorem ObjectAt.of_end (hdirect : Reference.ofEntries? es = none)
    (hparts : Schema.kind es = .ok .allOf → ∀ b ts, es.get? "allOf" ≠ some (.list b ts))
    {object : Entries} (h : ObjectAt table visited (.map a es) address object) :
    object = es ∧ address = [] ∧ Schema.kind es = .ok .object := by
  obtain ⟨_, _, hmeets, -, hobject⟩ := h
  obtain ⟨⟨⟩, -, haddress⟩ := hmeets.of_end hdirect hparts
  exact ⟨rfl, haddress, hobject⟩

/-- Without a reference a node is unfit by its kind, or because it is an `allOf` without a list. -/
theorem Unfit.of_direct (hdirect : Reference.ofEntries? es = none) (h : Unfit table visited (.map a es)) :
    (Schema.kind es ≠ .ok .object ∧ Schema.kind es ≠ .ok .allOf) ∨
      Schema.kind es = .ok .allOf ∧ (es.orNull "allOf").truthy = true ∧
        ∀ b ts, es.get? "allOf" ≠ some (.list b ts) := by
  cases h with
  | kind _ hnot => exact .inl (hnot a es rfl)
  | missing href => cases hdirect.symm.trans href
  | repeated href => cases hdirect.symm.trans href
  | parts _ hkind htruthy hnot => exact .inr ⟨hkind, htruthy, hnot⟩

theorem collected_of_unfit {f : Failure} (hunfit : Unfit table visited t)
    (h : leavesWith (leavesOf table owner visited) owner t = .error f) :
    Collected table visited t (leavesWith (leavesOf table owner visited) owner t) := by
  rw [h]
  exact ⟨[], visited, t, .here visited t, hunfit⟩

theorem collected_object (hdirect : Reference.ofEntries? es = none)
    (hkind : Schema.kind es = .ok .object) :
    Collected table visited (.map a es) (leavesWith (leavesOf table owner visited) owner (.map a es)) := by
  have hparts : Schema.kind es = .ok .allOf → ∀ b ts, es.get? "allOf" ≠ some (.list b ts) :=
    fun hallOf => by cases hkind.symm.trans hallOf
  rw [leavesWith_object hdirect hkind]
  refine ⟨⟨[([], es)], rfl, List.pairwise_singleton _ _, fun address object => ?_⟩, ?_⟩
  · rw [List.mem_singleton]
    constructor
    · rintro ⟨⟩
      exact ⟨visited, a, .here _ _, hdirect, hkind⟩
    · intro h
      obtain ⟨rfl, rfl, -⟩ := h.of_end hdirect hparts
      rfl
  · intro address visited' u hmeets hunfit
    obtain ⟨rfl, rfl, -⟩ := hmeets.of_end hdirect hparts
    rcases hunfit.of_direct hdirect with ⟨hobject, -⟩ | ⟨hallOf, -⟩
    · exact hobject hkind
    · cases hkind.symm.trans hallOf

/-- A reference is a composition of the same object schemas as what it leads to. -/
theorem InOrder.reference (href : Reference.ofTree? t = some r) {found : Found table}
    (hfind : find table r = .ok found) (hnew : found.name ∉ visited) {objects : List Entries}
    (h : InOrder table (visited ++ [found.name]) found.schema objects) :
    InOrder table visited t objects := by
  obtain ⟨placed, hobjects, hsorted, hplaced⟩ := h
  refine ⟨placed, hobjects, hsorted, fun address es => (hplaced address es).trans ⟨?_, ?_⟩⟩
  · rintro ⟨visited', a, hmeets, hobject⟩
    exact ⟨visited', a, .reference href hfind hnew hmeets, hobject⟩
  · rintro ⟨visited', a, hmeets, hdirect, hkind⟩
    rcases hmeets.of_reference href hfind with ⟨rfl, -, -⟩ | hmeets
    · cases hdirect.symm.trans href
    · exact ⟨visited', a, hmeets, hdirect, hkind⟩

theorem Fit.reference (href : Reference.ofTree? t = some r) {found : Found table}
    (hfind : find table r = .ok found) (hnew : found.name ∉ visited)
    (h : Fit table (visited ++ [found.name]) found.schema) : Fit table visited t := by
  intro address visited' u hmeets hunfit
  rcases hmeets.of_reference href hfind with ⟨rfl, rfl, -⟩ | hmeets
  · cases hunfit with
    | kind hdirect => cases hdirect.symm.trans href
    | missing href' hmissing =>
      cases href.symm.trans href'
      cases hfind.symm.trans hmissing
    | repeated href' hfind' hvisited =>
      cases href.symm.trans href'
      cases hfind.symm.trans hfind'
      exact hnew hvisited
    | parts hdirect => cases hdirect.symm.trans href
  · exact h address visited' u hmeets hunfit

theorem collected_reference (href : Reference.ofTree? t = some r)
    (hfollow : ∀ found : Found table, found.name ∉ visited →
      Collected table (visited ++ [found.name]) found.schema
        (leavesWith (leavesOf table owner (visited ++ [found.name])) owner found.schema)) :
    Collected table visited t (leavesWith (leavesOf table owner visited) owner t) := by
  rw [leavesWith_reference href, leavesOf]
  cases hfind : find table r with
  | error f => exact ⟨[], visited, t, .here visited t, .missing href hfind⟩
  | ok found =>
    dsimp only
    split
    · rename_i hvisited
      exact ⟨[], visited, t, .here visited t, .repeated href hfind hvisited⟩
    · rename_i hnew
      have hcollected := hfollow found hnew
      cases hresult : leavesWith (leavesOf table owner (visited ++ [found.name])) owner found.schema with
      | error f =>
        rw [hresult] at hcollected
        obtain ⟨address, visited', u, hmeets, hunfit⟩ := hcollected
        exact ⟨address, visited', u, .reference href hfind hnew hmeets, hunfit⟩
      | ok objects =>
        rw [hresult] at hcollected
        obtain ⟨horder, hfit⟩ := hcollected
        exact ⟨horder.reference href hfind hnew, hfit.reference href hfind hnew⟩

/-- The object schemas of the parts of a composition, with the parts' numbers before their addresses. -/
theorem inOrder_parts {parts : List (List Entries)}
    (h : List.Forall₂ (fun t os => InOrder table visited t os) ts parts) (k : Nat) :
    ∃ placed : List (List Nat × Entries), placed.map (·.2) = parts.flatten ∧
      placed.Pairwise (fun p q => p.1 < q.1) ∧ ∀ address es, (address, es) ∈ placed ↔
        ∃ i t rest, ts[i]? = some t ∧ address = (k + i) :: rest ∧ ObjectAt table visited t rest es := by
  induction h generalizing k with
  | nil => exact ⟨[], rfl, .nil, fun address es => by simp⟩
  | @cons t os ts parts ht _ ih =>
    obtain ⟨first, hfirst, hsorted, hplaced⟩ := ht
    obtain ⟨rest, hrest, hsorted', hplaced'⟩ := ih (k + 1)
    have hmem : ∀ address es, (address, es) ∈ first.map (fun p => (k :: p.1, p.2)) ↔
        ∃ more, address = k :: more ∧ ObjectAt table visited t more es := by
      intro address es
      rw [List.mem_map]
      constructor
      · rintro ⟨⟨more, es⟩, hp, ⟨⟩⟩
        exact ⟨more, rfl, (hplaced more es).1 hp⟩
      · rintro ⟨more, rfl, hobject⟩
        exact ⟨(more, es), (hplaced more es).2 hobject, rfl⟩
    refine ⟨first.map (fun p => (k :: p.1, p.2)) ++ rest, ?_, ?_, fun address es => ?_⟩
    · rw [List.map_append, List.map_map, hrest, List.flatten_cons, ← hfirst]
      rfl
    · refine List.pairwise_append.2 ⟨List.pairwise_map.2 (hsorted.imp fun h => ?_), hsorted', ?_⟩
      · exact List.cons_lt_cons_iff.2 (.inr ⟨rfl, h⟩)
      · rintro ⟨address, es⟩ hp ⟨address', es'⟩ hq
        obtain ⟨more, rfl, -⟩ := (hmem address es).1 hp
        obtain ⟨i, _, more', -, rfl, -⟩ := (hplaced' address' es').1 hq
        exact List.cons_lt_cons_iff.2 (.inl (by omega))
    · rw [List.mem_append, hmem, hplaced']
      constructor
      · rintro (⟨more, rfl, hobject⟩ | ⟨i, u, more, hi, rfl, hobject⟩)
        · exact ⟨0, t, more, rfl, rfl, hobject⟩
        · exact ⟨i + 1, u, more, hi, by rw [Nat.add_right_comm, Nat.add_assoc], hobject⟩
      · rintro ⟨i, u, more, hi, rfl, hobject⟩
        cases i with
        | zero =>
          cases hi
          exact .inl ⟨more, rfl, hobject⟩
        | succ i => exact .inr ⟨i, u, more, hi, by rw [Nat.add_right_comm, Nat.add_assoc], hobject⟩

/-- The object schemas of a composition are those of its parts, one part after the other. -/
theorem InOrder.parts (hdirect : Reference.ofEntries? es = none) (hkind : Schema.kind es = .ok .allOf)
    (hparts : es.get? "allOf" = some (.list b ts)) {parts : List (List Entries)}
    (h : List.Forall₂ (fun t os => InOrder table visited t os) ts parts) :
    InOrder table visited (.map a es) parts.flatten := by
  obtain ⟨placed, hobjects, hsorted, hplaced⟩ := inOrder_parts h 0
  refine ⟨placed, hobjects, hsorted, fun address object => (hplaced address object).trans ⟨?_, ?_⟩⟩
  · rintro ⟨i, t, rest, hi, rfl, visited', a', hmeets, hobject⟩
    rw [Nat.zero_add]
    exact ⟨visited', a', .part hdirect hkind hparts hi hmeets, hobject⟩
  · rintro ⟨visited', a', hmeets, hdirect', hobject⟩
    rcases hmeets.of_parts hdirect hparts with ⟨⟨⟩, -, -⟩ | ⟨i, t, rest, hi, rfl, hpart⟩
    · cases hkind.symm.trans hobject
    · exact ⟨i, t, rest, hi, by rw [Nat.zero_add], visited', a', hpart, hdirect', hobject⟩

theorem Fit.parts (hdirect : Reference.ofEntries? es = none) (hkind : Schema.kind es = .ok .allOf)
    (hparts : es.get? "allOf" = some (.list b ts)) (h : ∀ t ∈ ts, Fit table visited t) :
    Fit table visited (.map a es) := by
  intro address visited' u hmeets hunfit
  rcases hmeets.of_parts hdirect hparts with ⟨rfl, rfl, -⟩ | ⟨i, t, rest, hi, rfl, hpart⟩
  · rcases hunfit.of_direct hdirect with ⟨-, hallOf⟩ | ⟨-, -, hnot⟩
    · exact hallOf hkind
    · exact hnot b ts hparts
  · exact h t (List.mem_of_getElem? hi) rest visited' u hpart hunfit

theorem collected_list (hdirect : Reference.ofEntries? es = none) (hkind : Schema.kind es = .ok .allOf)
    (hparts : es.get? "allOf" = some (.list b ts))
    (hitems : ∀ t ∈ ts, Collected table visited t (leavesWith (leavesOf table owner visited) owner t)) :
    Collected table visited (.map a es) (leavesWith (leavesOf table owner visited) owner (.map a es)) := by
  rw [leavesWith_list hdirect hkind hparts]
  cases hmap : ts.mapM (leavesWith (leavesOf table owner visited) owner) with
  | error f =>
    obtain ⟨t, ht, hf⟩ := error_of_mapM hmap
    have hcollected := hitems t ht
    rw [hf] at hcollected
    obtain ⟨address, visited', u, hmeets, hunfit⟩ := hcollected
    obtain ⟨i, hi⟩ := List.getElem?_of_mem ht
    exact ⟨i :: address, visited', u, .part hdirect hkind hparts hi hmeets, hunfit⟩
  | ok parts =>
    have hall : List.Forall₂ (fun t os => InOrder table visited t os ∧ Fit table visited t) ts parts :=
      forall₂_of_mem (forall₂_of_mapM hmap) fun t ht os _ hos => by
        have hcollected := hitems t ht
        rwa [hos] at hcollected
    refine ⟨.parts hdirect hkind hparts (hall.imp fun _ _ h => h.1), .parts hdirect hkind hparts ?_⟩
    intro t ht
    obtain ⟨_, -, -, hfit⟩ := mem_of_forall₂_left hall ht
    exact hfit

theorem collected_not_list (hdirect : Reference.ofEntries? es = none)
    (hkind : Schema.kind es = .ok .allOf) (hnot : ∀ b ts, es.get? "allOf" ≠ some (.list b ts)) :
    Collected table visited (.map a es) (leavesWith (leavesOf table owner visited) owner (.map a es)) := by
  have hnull : ∀ b ts, es.orNull "allOf" ≠ .list b ts := by
    intro b ts h
    rw [Entries.orNull] at h
    cases hget : es.get? "allOf" with
    | none => rw [hget] at h; cases h
    | some x => rw [hget] at h; exact hnot b ts (hget.trans (congrArg some h))
  obtain ⟨hempty, hrefused⟩ := leafCases_not_list hnull
  cases htruthy : (es.orNull "allOf").truthy with
  | true =>
    obtain ⟨f, hf⟩ := hrefused htruthy
    exact collected_of_unfit (.parts hdirect hkind htruthy hnot) ((leavesWith_parts hdirect hkind).trans hf)
  | false =>
    rw [leavesWith_parts hdirect hkind, hempty htruthy]
    refine ⟨⟨[], rfl, .nil, fun address object => iff_of_false List.not_mem_nil fun h => ?_⟩, ?_⟩
    · obtain ⟨-, -, hobject⟩ := h.of_end hdirect fun _ => hnot
      cases hkind.symm.trans hobject
    · intro address visited' u hmeets hunfit
      obtain ⟨rfl, rfl, -⟩ := hmeets.of_end hdirect fun _ => hnot
      rcases hunfit.of_direct hdirect with ⟨-, hallOf⟩ | ⟨-, htruthy', -⟩
      · exact hallOf hkind
      · cases htruthy.symm.trans htruthy'

theorem collected_other (hdirect : Reference.ofTree? t = none)
    (hnot : ∀ a es, t = .map a es → Schema.kind es ≠ .ok .object ∧ Schema.kind es ≠ .ok .allOf) :
    Collected table visited t (leavesWith (leavesOf table owner visited) owner t) := by
  cases hresult : leavesWith (leavesOf table owner visited) owner t with
  | error f => exact ⟨[], visited, t, .here visited t, .kind hdirect hnot⟩
  | ok objects =>
    cases t with
    | map a es =>
      obtain ⟨hobject, hallOf⟩ := hnot a es rfl
      exact absurd (kind_of_leavesWith hdirect hresult) (not_or.2 ⟨hobject, hallOf⟩)
    | _ => cases hresult

/-! ## Whole compositions -/

/-- What collecting gives if it does so behind every reference that is new. -/
theorem collected_of_follow (hfollow : ∀ found : Found table, found.name ∉ visited →
      Collected table (visited ++ [found.name]) found.schema
        (leavesWith (leavesOf table owner (visited ++ [found.name])) owner found.schema)) (t : Tree) :
    Collected table visited t (leavesWith (leavesOf table owner visited) owner t) ∧
      ∀ a ts, t = .list a ts → ∀ u ∈ ts,
        Collected table visited u (leavesWith (leavesOf table owner visited) owner u) := by
  induction t using Tree.induct with
  | map a es ih =>
    refine ⟨?_, nofun⟩
    cases href : Reference.ofEntries? es with
    | some r => exact collected_reference href hfollow
    | none =>
      by_cases hobject : Schema.kind es = .ok .object
      · exact collected_object href hobject
      by_cases hallOf : Schema.kind es = .ok .allOf
      · by_cases hlist : ∃ b ts, Entries.get? es "allOf" = some (.list b ts)
        · obtain ⟨b, ts, hparts⟩ := hlist
          exact collected_list href hallOf hparts ((ih _ (Entries.mem_of_at? hparts)).2 b ts rfl)
        · exact collected_not_list href hallOf fun b ts h => hlist ⟨b, ts, h⟩
      · refine collected_other href ?_
        rintro _ _ ⟨⟩
        exact ⟨hobject, hallOf⟩
  | list a ts ih =>
    refine ⟨collected_other rfl nofun, ?_⟩
    rintro _ _ ⟨⟩ u hu
    exact (ih u hu).1
  | scalar | set | pair | back => exact ⟨collected_other rfl nofun, nofun⟩

end

/-- After any references, all object schemas of a composition are collected in order, unless a node is
unfit. -/
theorem collected (visited : List String) (t : Tree) :
    Collected table visited t (leavesWith (leavesOf table owner visited) owner t) :=
  (collected_of_follow (fun found _hnew => collected (visited ++ [found.name]) found.schema) t).1
termination_by unvisited (names table) visited
decreasing_by exact unvisited_append_lt (mem_names found.found) _hnew

/-- Object schemas are in order in one way only. -/
theorem InOrder.eq {t : Tree} {os os' : List Entries} (h : InOrder table visited t os)
    (h' : InOrder table visited t os') : os = os' := by
  obtain ⟨placed, rfl, hsorted, hplaced⟩ := h
  obtain ⟨placed', rfl, hsorted', hplaced'⟩ := h'
  have : Std.Asymm fun p q : List Nat × Entries => p.1 < q.1 := ⟨fun _ _ => List.lt_asymm⟩
  rw [hsorted.eq_of_mem_iff hsorted' fun p => (hplaced p.1 p.2).trans (hplaced' p.1 p.2).symm]

/-- The object schemas of a composition are collected if every node is fit, in the order of their addresses. -/
theorem leaves_eq_ok_iff {t : Tree} {objects : List Entries} :
    leaves table owner t = .ok objects ↔ Fit table [] t ∧ InOrder table [] t objects := by
  have hcollected : Collected table [] t (leaves table owner t) := collected [] t
  cases hresult : leaves table owner t with
  | error f =>
    rw [hresult] at hcollected
    obtain ⟨address, visited', u, hmeets, hunfit⟩ := hcollected
    exact iff_of_false nofun fun h => h.1 address visited' u hmeets hunfit
  | ok os =>
    rw [hresult] at hcollected
    obtain ⟨horder, hfit⟩ := hcollected
    refine ⟨fun h => ?_, fun h => by rw [horder.eq h.2]⟩
    cases h
    exact ⟨hfit, horder⟩

/-- Collecting fails if and only if some node is unfit. -/
theorem leaves_eq_error_iff {t : Tree} : (∃ f, leaves table owner t = .error f) ↔
    ∃ address visited' u, Meets table [] t address visited' u ∧ Unfit table visited' u := by
  have hcollected : Collected table [] t (leaves table owner t) := collected [] t
  cases hresult : leaves table owner t with
  | error f =>
    rw [hresult] at hcollected
    exact iff_of_true ⟨f, rfl⟩ hcollected
  | ok os =>
    rw [hresult] at hcollected
    refine iff_of_false nofun ?_
    rintro ⟨address, visited', u, hmeets, hunfit⟩
    exact hcollected.2 address visited' u hmeets hunfit

end ApiContract.Compile
