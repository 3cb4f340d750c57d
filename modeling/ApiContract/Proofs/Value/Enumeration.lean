import ApiContract.Proofs.Compile.Fields
import ApiContract.Proofs.Value.Typed
import ApiContract.Value.Lexical
import Mathlib.Data.List.Find

/-!
# Closed enumerations

An enumeration of texts, of whole numbers or of truth values reads exactly its literals
(`ReadsLiterals`): a value by what it is, and a text by the written form of a literal. Names of literals
may coincide or have to be made up, and a literal may be repeated; neither matters, since members are told
apart by their literals (`literal_nodup`), of which one kind has no two that are the same or written alike.
-/

namespace ApiContract

/-- A literal of a kind: a text, a whole number or a truth value. -/
inductive LiteralOf : SchemaKind → Tree → Prop
  | text (s : String) : LiteralOf .string (.text s)
  | int (n : Int) : LiteralOf .integer (.scalar (.int n))
  | bool (b : Bool) : LiteralOf .boolean (.scalar (.bool b))

/-! ## Literals of one kind -/

theorem repr_injective {m n : Nat} (h : m.repr = n.repr) : m = n := by
  have hdigits : Nat.toDigits 10 m = Nat.toDigits 10 n := by
    rw [← Nat.toList_repr, ← Nat.toList_repr, h]
  rw [← Nat.ofDigitChars_ten_toDigits (n := m), hdigits, Nat.ofDigitChars_ten_toDigits]

theorem toString_injective {m n : Int} (h : toString m = toString n) : m = n := by
  -- The digits of a natural number do not start with a minus.
  have hminus : ∀ k l : Nat, k.repr ≠ "-" ++ l.repr := by
    intro k l h
    have hmem : '-' ∈ k.repr.toList := by
      rw [h, String.toList_append]
      exact List.mem_append_left _ (by decide)
    rw [Nat.toList_repr] at hmem
    exact absurd (Nat.isDigit_of_mem_toDigits (by decide) (by decide) hmem) (by decide)
  cases m with
  | ofNat m =>
    cases n with
    | ofNat n => exact congrArg Int.ofNat (repr_injective h)
    | negSucc n => exact absurd h (hminus m (n + 1))
  | negSucc m =>
    cases n with
    | ofNat n => exact absurd h.symm (hminus n (m + 1))
    | negSucc n =>
      have h : "-" ++ (m + 1).repr = "-" ++ (n + 1).repr := h
      have hsucc := repr_injective ((String.append_right_inj _).1 h)
      exact congrArg Int.negSucc (by omega)

namespace LiteralOf

variable {kind : SchemaKind} {t u : Tree}

theorem same_iff (ht : LiteralOf kind t) (hu : LiteralOf kind u) : t.same u = true ↔ t = u := by
  cases ht <;> cases hu
  case text.text s s' =>
    show Scalar.same _ _ = true ↔ _
    rw [Scalar.same_text, Tree.scalar.injEq]
  case int.int n n' =>
    show Scalar.same _ _ = true ↔ _
    rw [Scalar.same_iff, Tree.scalar.injEq]
    rfl
  case bool.bool b b' =>
    show Scalar.same _ _ = true ↔ _
    cases b <;> cases b' <;> simp [Scalar.same_iff, Scalar.canonical]

theorem written_inj (ht : LiteralOf kind t) (hu : LiteralOf kind u)
    (h : Literal.written t = Literal.written u) : t = u := by
  cases ht <;> cases hu
  case text.text s s' => exact congrArg Tree.text h
  case int.int n n' => rw [toString_injective h]
  case bool.bool b b' => cases b <;> cases b' <;> first | rfl | exact absurd h (by decide)

theorem matchesValue_iff (ht : LiteralOf kind t) (hu : LiteralOf kind u) :
    Literal.matchesValue t u = true ↔ t = u := by
  have hsame := ht.same_iff hu
  cases ht <;> cases hu
  case text.text s s' | int.int n n' =>
    rw [← hsame]
    show _ ↔ Scalar.same _ _ = true
    simp [Literal.matchesValue, Scalar.typeName]
  case bool.bool => simp [Literal.matchesValue]

/-- A literal matches nothing but itself, and a whole number the floating number that it equals. -/
theorem of_matchesValue (ht : LiteralOf kind t) (h : Literal.matchesValue t u = true) :
    u = t ∨ ∃ n x, t = .scalar (.int n) ∧ u = .scalar (.float x) ∧
      (Scalar.int n).same (.float x) = true := by
  cases u with
  | scalar s =>
    cases ht <;> cases s <;> simp only [Literal.matchesValue, Bool.false_eq_true] at h
    case text.text s s' => exact .inl ((matchesValue_iff (.text s) (.text s')).1 h).symm
    case int.int n n' => exact .inl ((matchesValue_iff (.int n) (.int n')).1 h).symm
    case bool.bool b b' => exact .inl ((matchesValue_iff (.bool b) (.bool b')).1 h).symm
    case int.float n x => exact .inr ⟨n, x, rfl, rfl, h⟩
    all_goals simp [Scalar.typeName] at h
  | _ => cases ht <;> simp [Literal.matchesValue] at h

end LiteralOf

/-! ## Members -/

namespace Member

variable {members : List Member}

theorem mem_distinct {k : Member} (h : k ∈ distinct members) : k ∈ members := by
  induction members using List.reverseRecOn with
  | nil => exact h
  | append_singleton members m ih =>
    rw [distinct_concat] at h
    split at h
    · exact List.mem_append_left _ (ih h)
    · exact (List.mem_append.1 h).elim (fun h => List.mem_append_left _ (ih h)) (List.mem_append_right _)

/-- Every member has the literal of one that is kept. -/
theorem exists_same {m : Member} (h : m ∈ members) (hself : m.value.same m.value = true) :
    ∃ k ∈ distinct members, k.value.same m.value = true := by
  induction members using List.reverseRecOn with
  | nil => exact absurd h List.not_mem_nil
  | append_singleton members m' ih =>
    rw [distinct_concat]
    rcases List.mem_append.1 h with h | h
    · obtain ⟨k, hk, hsame⟩ := ih h
      split
      · exact ⟨k, hk, hsame⟩
      · exact ⟨k, List.mem_append_left _ hk, hsame⟩
    · obtain rfl := List.mem_singleton.1 h
      split
      · exact List.any_eq_true.1 ‹_›
      · exact ⟨m, List.mem_append_right _ List.mem_cons_self, hself⟩

section

variable {kind : SchemaKind} (hlit : ∀ k ∈ members, LiteralOf kind k.value)
include hlit

/-- No two members that are kept have one literal. -/
theorem literal_nodup : ((distinct members).map (·.value)).Nodup := by
  rw [List.Nodup, List.pairwise_map]
  refine (distinct_pairwise members).imp_of_mem fun {k k'} hk hk' hne heq => ?_
  have hsame := ((hlit k (mem_distinct hk)).same_iff (hlit k' (mem_distinct hk'))).2 heq
  rw [hne] at hsame
  cases hsame

theorem mem_literals {t : Tree} : t ∈ (distinct members).map (·.value) ↔ t ∈ members.map (·.value) := by
  constructor
  · intro h
    obtain ⟨k, hk, rfl⟩ := List.mem_map.1 h
    exact List.mem_map_of_mem (mem_distinct hk)
  · intro h
    obtain ⟨m, hm, rfl⟩ := List.mem_map.1 h
    have hm' := hlit m hm
    obtain ⟨k, hk, hsame⟩ := exists_same hm ((hm'.same_iff hm').2 rfl)
    rw [← ((hlit k (mem_distinct hk)).same_iff hm').1 hsame]
    exact List.mem_map_of_mem hk

/-- A literal is that of the one member that has it. -/
theorem ofLiteral?_eq_some {t : Tree} (ht : LiteralOf kind t) {k : Member} :
    ofLiteral? members t = some k ↔ k ∈ distinct members ∧ k.value = t := by
  rw [← find?_key_eq_some (literal_nodup hlit), ofLiteral?]
  refine iff_of_eq (congrArg (· = some k) (List.find?_congr fun k hk => ?_))
  rw [Bool.eq_iff_iff, decide_eq_true_iff]
  exact (hlit k (mem_distinct hk)).matchesValue_iff ht

/-- A text is the written form of the literal of one member. -/
theorem ofWritten?_eq_some {s : String} {k : Member} :
    ofWritten? members s = some k ↔ k ∈ distinct members ∧ Literal.written k.value = s := by
  have hnodup : (((distinct members).map (·.value)).map Literal.written).Nodup := by
    refine (literal_nodup hlit).map_on fun t ht u hu h => ?_
    obtain ⟨k, hk, rfl⟩ := List.mem_map.1 ht
    obtain ⟨k', hk', rfl⟩ := List.mem_map.1 hu
    exact (hlit k (mem_distinct hk)).written_inj (hlit k' (mem_distinct hk')) h
  rw [List.map_map] at hnodup
  exact find?_key_eq_some hnodup

end

end Member

/-! ## Reading -/

namespace Models

open Record (wrong)
open Compile

/-- A type reads exactly literals of a kind, each as the one member that has it, and refuses all else as no
literal. A value may also be a member already, or the floating number that a literal equals. -/
structure ReadsLiterals (t : NamedType) (kind : SchemaKind) (literals : List Tree) (members : List Member) :
    Prop where
  nodup : ((Member.distinct members).map (·.value)).Nodup
  mem_iff : ∀ v, v ∈ (Member.distinct members).map (·.value) ↔ v ∈ literals
  literal : ∀ x, LiteralOf kind (.scalar x) → ∀ w, conformMember t.name members (.scalar x) = .ok w ↔
    ∃ k ∈ Member.distinct members, w = .member t.name k ∧ k.value = .scalar x
  value : ∀ v w, conformMember t.name members v = .ok w →
    (∃ k, v = .member t.name k ∧ w = v) ∨ ∃ k ∈ Member.distinct members, w = .member t.name k ∧
      (v.toTree? = some k.value ∨ ∃ n x, k.value = .scalar (.int n) ∧
        v.toTree? = some (.scalar (.float x)) ∧ (Scalar.int n).same (.float x) = true)
  refuses : ∀ v, (∀ w, conformMember t.name members v ≠ .ok w) →
    conformMember t.name members v = wrong (.rule (notAMemberMessage v))
  parse : ∀ m : Models, m.find? t.name = some t → ∀ nullable s w,
    m.parse (.named (some t.name) nullable) s = .ok w ↔
      ∃ k ∈ Member.distinct members, w = .member t.name k ∧ (Value.member t.name k).display = s
  parse_refuses : ∀ m : Models, m.find? t.name = some t → ∀ nullable s,
    (∀ k ∈ Member.distinct members, (Value.member t.name k).display ≠ s) →
      m.parse (.named (some t.name) nullable) s = .error (.notAMember s)

theorem display_member (e : String) (k : Member) : (Value.member e k).display = Literal.written k.value := by
  obtain ⟨n, t⟩ := k
  cases t with
  | scalar s => cases s <;> rfl
  | _ => rfl

section

variable {t : NamedType} {members : List Member} {kind : SchemaKind} (hshape : t.shape = .enumeration members)
  (hlit : ∀ k ∈ members, LiteralOf kind k.value)

theorem conformMember_eq_ok {name : String} {v w : Value} :
    conformMember name members v = .ok w ↔ memberOf? name members v = some w := by
  unfold conformMember
  cases memberOf? name members v with
  | none => exact ⟨nofun, nofun⟩
  | some w' => rw [Except.ok.injEq, Option.some.injEq]

include hshape

theorem parse_member {m : Models} (ht : m.find? t.name = some t) (nullable : Bool) (s : String) :
    m.parse (.named (some t.name) nullable) s =
      match Member.ofWritten? members s with
      | some k => .ok (.member t.name k)
      | Option.none => .error (.notAMember s) := by
  obtain ⟨name, schemaName, description, shape⟩ := t
  cases hshape
  cases hwritten : Member.ofWritten? members s <;>
    simp only [Models.parse, Option.getD_some, ht, hwritten]

include hlit

theorem readsLiterals_of_literals : ReadsLiterals t kind (members.map (·.value)) members where
  nodup := Member.literal_nodup hlit
  mem_iff _ := Member.mem_literals hlit
  literal x hx w := by
    rw [conformMember_eq_ok]
    show (Member.ofLiteral? members (.scalar x)).map (Value.member t.name) = some w ↔ _
    simp only [Option.map_eq_some_iff, Member.ofLiteral?_eq_some hlit hx]
    exact ⟨fun ⟨k, ⟨hk, hvalue⟩, hw⟩ => ⟨k, hk, hw.symm, hvalue⟩,
      fun ⟨k, hk, hw, hvalue⟩ => ⟨k, ⟨hk, hvalue⟩, hw.symm⟩⟩
  value v w h := by
    rw [conformMember_eq_ok] at h
    cases v with
    | member e k =>
      simp only [memberOf?, Option.ite_none_right_eq_some] at h
      obtain ⟨rfl, h⟩ := h
      exact .inl ⟨k, rfl, (Option.some.inj h).symm⟩
    | record | foreign => cases h
    | scalar | list | map =>
      obtain ⟨k, hk, rfl⟩ := Option.map_eq_some_iff.1 h
      obtain ⟨u, hu, hfound⟩ := Option.bind_eq_some_iff.1 hk
      rw [Member.ofLiteral?] at hfound
      have hmem := List.mem_of_find?_eq_some hfound
      have hmatches := List.find?_some hfound
      refine .inr ⟨k, hmem, rfl, ?_⟩
      rcases (hlit k (Member.mem_distinct hmem)).of_matchesValue hmatches with
        rfl | ⟨n, x, hvalue, rfl, hsame⟩
      · exact .inl hu
      · exact .inr ⟨n, x, hvalue, hu, hsame⟩
  refuses v h := by
    unfold conformMember at h ⊢
    split
    · rename_i w hw
      rw [hw] at h
      exact absurd rfl (h w)
    · rfl
  parse m ht nullable s w := by
    rw [parse_member hshape ht]
    simp only [display_member]
    constructor
    · intro h
      split at h
      · rename_i k hk
        cases h
        obtain ⟨hmem, hwritten⟩ := (Member.ofWritten?_eq_some hlit).1 hk
        exact ⟨k, hmem, rfl, hwritten⟩
      · cases h
    · rintro ⟨k, hmem, rfl, hwritten⟩
      rw [(Member.ofWritten?_eq_some hlit).2 ⟨hmem, hwritten⟩]
  parse_refuses m ht nullable s h := by
    rw [parse_member hshape ht]
    split
    · rename_i k hk
      obtain ⟨hmem, hwritten⟩ := (Member.ofWritten?_eq_some hlit).1 hk
      exact absurd ((display_member _ k).trans hwritten) (h k hmem)
    · rfl

end

end Models

/-! ## Compiling -/

namespace Compile

open Models

variable {σ : Type} [Noting σ] {table : Entries} {schema : Entries} {kind : SchemaKind}

/-- An enumeration has a member for each literal. -/
theorem enumeration_of_literals (name schemaName : String) (hne : Schema.literals schema ≠ [])
    (hlit : ∀ v ∈ Schema.literals schema, LiteralOf kind v) {description : Option String}
    (hdescription : textField "description" (schema.orNull "description") = .ok description) :
    ∃ members, enumeration name schemaName schema kind =
        .ok (some ⟨name, schemaName, description, .enumeration members⟩) ∧
      members.map (·.value) = Schema.literals schema := by
  have hempty : (Schema.literals schema).isEmpty = false := by simpa using hne
  have hnull : (Schema.literals schema).contains .null = false := by
    rw [Bool.eq_false_iff]
    intro h
    cases hlit _ (List.contains_iff_mem.1 h)
  -- Literals of a text's type are texts already.
  have hvalues : (if kind == .string then (Schema.literals schema).map fun v => Tree.text v.display
      else Schema.literals schema) = Schema.literals schema := by
    split
    · rename_i hkind
      refine (List.map_congr_left fun v hv => ?_).trans (List.map_id _)
      have hv := hlit v hv
      rw [beq_iff_eq.1 hkind] at hv
      cases hv
      rfl
    · rfl
  refine ⟨((Literal.memberNames (Schema.literals schema)).zip (Schema.literals schema)).map fun p =>
    ⟨p.1, p.2⟩, ?_, ?_⟩
  · unfold enumeration
    simp only [hempty, hnull, hvalues, hdescription]
    rfl
  · rw [List.map_map]
    refine List.map_snd_zip ?_
    rw [Literal.memberNames, Text.length_uniqueNames, List.length_map]

/-- Literals of which the names coincide or are made up, and one that is repeated. -/
def sampleLiterals : List Tree := [.text "a-b", .text "a_b", .text "", .text "a-b"]

example : Literal.memberNames sampleLiterals = ["AB", "AB2", "EmptyString", "AB3"] := by
  decide +kernel

/-- The schema of an enumeration of them. -/
def sampleCodes : Entries := [(.text "type", .text "string"), (.text "enum", Tree.array sampleLiterals)]

end Compile

end ApiContract
