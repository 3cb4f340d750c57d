import ApiContract.Models
import ApiContract.Proofs.Compile.Sound
import ApiContract.Proofs.Except
import Mathlib.Data.List.Induction

/-!
# Accepted types

Types in order are accepted unless a union has no variants (`Models.ofTypes_eq_ok`,
`Models.error_of_ofTypes`), and types that have been accepted mention each other only
(`Models.known_of_ofTypes`).
-/

namespace ApiContract

/-- Whether a type is a union. -/
def NamedType.isUnion (t : NamedType) : Bool :=
  match t.shape with
  | .tagged .. | .untagged _ => true
  | _ => false

namespace Models

variable {m : Models}

theorem find?_isSome {n : String} : (m.find? n).isSome = true ↔ n ∈ m.types.map (·.name) := by
  rw [find?, List.find?_isSome, List.mem_map]
  simp

theorem of_find?_eq_some {n : String} {t : NamedType} (h : m.find? n = some t) :
    t ∈ m.types ∧ t.name = n :=
  ⟨List.mem_of_find?_eq_some h, by simpa using List.find?_some h⟩

theorem ensureKnown_eq_ok {e : TypeExpr} : m.ensureKnown e = .ok () ↔ e.Known m.types := by
  unfold ensureKnown TypeExpr.Known
  cases e.target? with
  | none => simp
  | some n =>
    simp only [Option.some.injEq, forall_eq', ← find?_isSome]
    split <;> simp_all

theorem ensureBody_of_sound {b : Body} (h : b.Sound m.types) : m.ensureBody b = .ok () := by
  have hvisible : (b.fields.any fun f => f.name.startsWith "_") = false := by
    rw [List.any_eq_false]
    intro f hf
    rw [(h.named f hf).startsWith]
    exact Bool.false_ne_true
  refine bind_eq_ok.2 ⟨(), forM_eq_ok.2 fun e he => ensureKnown_eq_ok.2 (h.known e ?_), ?_⟩
  · rw [Body.types, List.mem_append]
    exact (List.mem_append.1 he).symm
  · rw [hvisible]
    rfl

/-- A type that is sound is refused only as a union without variants. -/
theorem ensureSound_eq_ok {t : NamedType} (h : t.Sound m.types) :
    m.ensureSound t = .ok () ↔ (t.isUnion = true → t.variants ≠ []) := by
  have hbodies := h.bodies
  have hmembers := h.members
  have hvariants : ∀ vs : List Variant, (∀ b ∈ vs.map (·.body), b.Sound m.types) →
      ((do
        vs.forM fun v => m.ensureBody v.body
        if vs.isEmpty then throw (.emptyUnion t.name) : Except Failure Unit) = .ok () ↔ vs ≠ []) := by
    intro vs hvs
    have hall : vs.forM (fun v => m.ensureBody v.body) = .ok () :=
      forM_eq_ok.2 fun v hv => ensureBody_of_sound (hvs _ (List.mem_map_of_mem hv))
    rw [hall]
    cases vs with
    | nil => exact ⟨nofun, fun h => absurd rfl h⟩
    | cons v vs => exact ⟨fun _ => List.cons_ne_nil _ _, fun _ => rfl⟩
  unfold NamedType.bodies at hbodies
  unfold NamedType.members at hmembers
  unfold ensureSound NamedType.isUnion NamedType.variants
  cases hshape : t.shape with
  | record b =>
    rw [hshape] at hbodies
    exact iff_of_true (ensureBody_of_sound (hbodies b List.mem_cons_self)) nofun
  | enumeration ms =>
    rw [hshape] at hmembers
    exact iff_of_true (if_pos hmembers) nofun
  | tagged d vs =>
    rw [hshape] at hbodies
    exact (hvariants vs hbodies).trans (by simp)
  | untagged vs =>
    rw [hshape] at hbodies
    exact (hvariants vs hbodies).trans (by simp)

/-- A type that is sound is refused for no other reason. -/
theorem error_of_ensureSound {t : NamedType} {f : Failure} (h : t.Sound m.types)
    (herror : m.ensureSound t = .error f) : f = .emptyUnion t.name := by
  have hempty : t.isUnion = true ∧ t.variants = [] := by
    by_contra hcon
    have hok : m.ensureSound t = .ok () :=
      (ensureSound_eq_ok h).2 fun hunion hvariants => hcon ⟨hunion, hvariants⟩
    rw [hok] at herror
    cases herror
  obtain ⟨hunion, hvariants⟩ := hempty
  unfold NamedType.isUnion at hunion
  unfold NamedType.variants at hvariants
  unfold ensureSound at herror
  cases hshape : t.shape with
  | record b | enumeration ms =>
    rw [hshape] at hunion
    cases hunion
  | tagged d vs | untagged vs =>
    rw [hshape] at hvariants herror
    subst hvariants
    cases herror
    rfl

theorem ofTypes_concat (types : List NamedType) (t : NamedType) :
    ofTypes (types ++ [t]) = ofTypes types >>= fun m => m.accept t := by
  rw [ofTypes, List.foldlM_append, ofTypes]
  simp only [List.foldlM_cons, List.foldlM_nil, bind_pure]

/-- Types in order are accepted if every union among them has a variant. -/
theorem ofTypes_eq_ok {types : List NamedType} (h : NamedType.Ordered types) :
    ofTypes types = .ok m ↔ m.types = types ∧ ∀ t ∈ types, t.isUnion = true → t.variants ≠ [] := by
  induction h generalizing m with
  | nil =>
    show Except.ok none = Except.ok m ↔ _
    rw [Except.ok.injEq]
    exact ⟨fun h => ⟨h ▸ rfl, nofun⟩, fun h => by cases m; exact congrArg Models.mk h.1.symm⟩
  | snoc hordered hsound hfree ih =>
    rename_i types t
    have haccept : ∀ m' : Models, m'.types = types →
        (m'.accept t = .ok m ↔ m.types = types ++ [t] ∧ (t.isUnion = true → t.variants ≠ [])) := by
      intro m' hm'
      have hnone : (m'.find? t.name).isSome = false := by
        rw [Bool.eq_false_iff, ne_eq, find?_isSome, hm']
        exact hfree
      rw [← ensureSound_eq_ok (hm' ▸ hsound : t.Sound m'.types)]
      unfold accept
      rw [hnone, hm', bind_eq_ok]
      constructor
      · rintro ⟨_, hok, h⟩
        cases h
        exact ⟨rfl, hok⟩
      · rintro ⟨hm, hok⟩
        refine ⟨(), hok, ?_⟩
        cases m
        exact congrArg (fun ts => Except.ok (Models.mk ts)) hm.symm
    rw [ofTypes_concat, bind_eq_ok, List.forall_mem_append, List.forall_mem_singleton]
    constructor
    · rintro ⟨m', hm', h⟩
      obtain ⟨htypes, hall⟩ := ih.1 hm'
      obtain ⟨hm, ht⟩ := (haccept m' htypes).1 h
      exact ⟨hm, hall, ht⟩
    · rintro ⟨hm, hall, ht⟩
      exact ⟨⟨types⟩, ih.2 ⟨rfl, hall⟩, (haccept ⟨types⟩ rfl).2 ⟨hm, ht⟩⟩

/-- Types in order are refused for no other reason: none is unknown where it is mentioned, and none is
there twice. -/
theorem error_of_ofTypes {types : List NamedType} {f : Failure} (h : NamedType.Ordered types)
    (herror : ofTypes types = .error f) : ∃ n, f = .emptyUnion n := by
  induction h with
  | nil => cases herror
  | @snoc types t hordered hsound hfree ih =>
    rw [ofTypes_concat] at herror
    cases hm : ofTypes types with
    | error f' =>
      rw [hm] at herror
      cases herror
      exact ih hm
    | ok m =>
      have htypes : m.types = types := ((ofTypes_eq_ok hordered).1 hm).1
      have hnone : (m.find? t.name).isSome = false := by
        rw [Bool.eq_false_iff, ne_eq, find?_isSome, htypes]
        exact hfree
      rw [hm] at herror
      replace herror : m.accept t = .error f := herror
      unfold accept at herror
      rw [hnone] at herror
      cases hsure : m.ensureSound t with
      | error f' =>
        rw [hsure] at herror
        cases herror
        exact ⟨_, error_of_ensureSound (htypes ▸ hsound) hsure⟩
      | ok u =>
        rw [hsure] at herror
        cases herror

theorem known_of_ensureBody {b : Body} (h : m.ensureBody b = .ok ()) : ∀ e ∈ b.types, e.Known m.types := by
  obtain ⟨_, hall, -⟩ := bind_eq_ok.1 h
  intro e he
  exact ensureKnown_eq_ok.1 (forM_eq_ok.1 hall e (List.mem_append.2 (List.mem_append.1 he).symm))

theorem known_of_ensureSound {t : NamedType} (h : m.ensureSound t = .ok ()) :
    ∀ b ∈ t.bodies, ∀ e ∈ b.types, e.Known m.types := by
  have hvariants : ∀ vs : List Variant,
      (do
        vs.forM fun v => m.ensureBody v.body
        if vs.isEmpty then throw (.emptyUnion t.name) : Except Failure Unit) = .ok () →
      ∀ b ∈ vs.map (·.body), ∀ e ∈ b.types, e.Known m.types := by
    intro vs h
    obtain ⟨_, hall, -⟩ := bind_eq_ok.1 h
    exact List.forall_mem_map.2 fun v hv => known_of_ensureBody (forM_eq_ok.1 hall v hv)
  unfold NamedType.bodies
  unfold ensureSound at h
  cases hshape : t.shape with
  | record b =>
    rw [hshape] at h
    exact List.forall_mem_singleton.2 (known_of_ensureBody h)
  | enumeration ms => exact fun _ h => absurd h List.not_mem_nil
  | tagged d vs | untagged vs =>
    rw [hshape] at h
    exact hvariants vs h

/-- A type that is accepted mentions only types that have been accepted before. -/
theorem of_accept {m' : Models} {t : NamedType} (h : m.accept t = .ok m') :
    m'.types = m.types ++ [t] ∧ ∀ b ∈ t.bodies, ∀ e ∈ b.types, e.Known m.types := by
  obtain ⟨_, hsound, h⟩ := bind_eq_ok.1 h
  refine ⟨?_, ?_⟩
  · split at h <;> cases h
    rfl
  · exact known_of_ensureSound hsound

/-- The accepted types are all types, in order. -/
theorem types_of_ofTypes {types : List NamedType} (h : ofTypes types = .ok m) : m.types = types := by
  induction types using List.reverseRecOn generalizing m with
  | nil =>
    cases h
    rfl
  | append_singleton types t ih =>
    rw [ofTypes_concat] at h
    obtain ⟨m₁, hm₁, h⟩ := bind_eq_ok.1 h
    rw [(of_accept h).1, ih hm₁]

/-- The types that accepted types mention have been accepted. -/
theorem known_of_ofTypes {types : List NamedType} (h : ofTypes types = .ok m) :
    ∀ t ∈ m.types, ∀ b ∈ t.bodies, ∀ e ∈ b.types, e.Known m.types := by
  refine of_foldlM (I := fun m => ∀ t ∈ m.types, ∀ b ∈ t.bodies, ∀ e ∈ b.types, e.Known m.types) h
    (fun _ h => absurd h List.not_mem_nil) fun m t _ m' hm h => ?_
  obtain ⟨htypes, ht⟩ := of_accept h
  rw [htypes, List.forall_mem_append, List.forall_mem_singleton]
  exact ⟨fun t' ht' b hb e he => (hm t' ht' b hb e he).append, fun b hb e he => (ht b hb e he).append⟩

end Models

end ApiContract
