import ApiContract.Json.Octets
import ApiContract.Proofs.Text.Identifier
import ApiContract.Proofs.Text.Octets

/-!
# Written whole numbers

A whole number that has been written is read again if it is short enough and what follows cannot go on with
it (`numberPart_written`).
-/

namespace ApiContract.Json.Octets

open Text.Utf8

/-- What follows a value that has been written: nothing, or what separates or closes. -/
def EndsValue (rest : List UInt8) : Prop :=
  ∀ b ∈ rest.head?, b = 44 ∨ b = 93 ∨ b = 125

/-! ## Digits -/

theorem isDigit_iff {b : UInt8} : isDigit b = true ↔ 48 ≤ b.toNat ∧ b.toNat ≤ 57 := by
  simp [isDigit, UInt8.le_iff_toNat_le]

/-- What holds of the ten digits holds of every digit. -/
theorem of_isDigit {P : UInt8 → Prop} (h : ∀ n, 48 ≤ n → n ≤ 57 → P (UInt8.ofNat n)) {b : UInt8}
    (hb : isDigit b = true) : P b := by
  have hrange := isDigit_iff.1 hb
  have hofNat := h b.toNat hrange.1 hrange.2
  rwa [UInt8.ofNat_toNat] at hofNat

/-- The octet of a digit. -/
def digitOctet (c : Char) : UInt8 := UInt8.ofNat c.toNat

/-- The octets of a natural number. -/
def digitOctets (n : Nat) : List UInt8 :=
  (Nat.toDigits 10 n).map digitOctet

theorem toDigits_range {n : Nat} {c : Char} (hc : c ∈ Nat.toDigits 10 n) :
    48 ≤ c.toNat ∧ c.toNat ≤ 57 :=
  Text.isDigit_iff.1 (Nat.isDigit_of_mem_toDigits (by decide) (by decide) hc)

theorem toNat_digitOctet {n : Nat} {c : Char} (hc : c ∈ Nat.toDigits 10 n) :
    (digitOctet c).toNat = c.toNat := by
  have hrange := toDigits_range hc
  rw [digitOctet, UInt8.toNat_ofNat']
  omega

theorem encode_repr (n : Nat) : encode (toString n) = digitOctets n := by
  rw [encode_eq, Nat.toString_eq_repr, Nat.toList_repr, digitOctets]
  have hall : ∀ cs : List Char, (∀ c ∈ cs, c ∈ Nat.toDigits 10 n) →
      cs.flatMap String.utf8EncodeChar = cs.map digitOctet := by
    intro cs hcs
    induction cs with
    | nil => rfl
    | cons c cs ih =>
      have hrange := toDigits_range (hcs c List.mem_cons_self)
      rw [List.flatMap_cons, utf8EncodeChar_ascii (by omega),
        ih fun c hc => hcs c (List.mem_cons_of_mem _ hc)]
      rfl
  exact hall _ fun _ hc => hc

theorem isDigit_digitOctets (n : Nat) : ∀ b ∈ digitOctets n, isDigit b = true := by
  intro b hb
  obtain ⟨c, hc, rfl⟩ := List.mem_map.1 hb
  have hrange := toDigits_range hc
  rw [← toNat_digitOctet hc] at hrange
  exact isDigit_iff.2 hrange

theorem digitsValue_digitOctets (n : Nat) : digitsValue (digitOctets n) = n := by
  have hfold : ∀ (cs : List Char) (k : Nat), (∀ c ∈ cs, c ∈ Nat.toDigits 10 n) →
      (cs.map digitOctet).foldl (fun n d => 10 * n + (d.toNat - 48)) k = Nat.ofDigitChars 10 cs k := by
    intro cs
    induction cs with
    | nil => intro k _; rw [Nat.ofDigitChars_nil]; rfl
    | cons c cs ih =>
      intro k hcs
      rw [List.map_cons, List.foldl_cons, toNat_digitOctet (hcs c List.mem_cons_self),
        ih _ fun c hc => hcs c (List.mem_cons_of_mem _ hc), Nat.ofDigitChars_cons]
      rfl
  exact (hfold _ 0 fun _ hc => hc).trans Nat.ofDigitChars_ten_toDigits

theorem digitOctets_ne_nil (n : Nat) : digitOctets n ≠ [] :=
  List.map_eq_nil_iff.not.2 Nat.toDigits_ne_nil

/-- No natural number is written with zeros in front. -/
theorem digitOctets_leading (n : Nat) (b : UInt8) (bs : List UInt8) : digitOctets n ≠ 48 :: b :: bs := by
  induction n using Nat.strongRecOn generalizing b bs with
  | ind n ih =>
    by_cases hn : n < 10
    · intro h
      rw [digitOctets, Nat.toDigits_of_lt_base hn] at h
      exact absurd (congrArg List.length h) (by simp)
    · have hlast : digitOctets n = digitOctets (n / 10) ++ [digitOctet (n % 10).digitChar] := by
        rw [digitOctets, Nat.toDigits_of_base_le (by decide) (Nat.le_of_not_lt hn), List.map_append]
        rfl
      intro h
      rw [hlast] at h
      cases hfirst : digitOctets (n / 10) with
      | nil => exact digitOctets_ne_nil _ hfirst
      | cons x xs =>
        rw [hfirst, List.cons_append, List.cons.injEq] at h
        obtain ⟨rfl, h⟩ := h
        cases xs with
        | nil =>
          have hzero : n / 10 = 0 := by
            rw [← digitsValue_digitOctets (n / 10), hfirst]
            rfl
          omega
        | cons y ys => exact ih (n / 10) (by omega) y ys hfirst

/-! ## Numbers -/

theorem digitsOf_append {ds rest : List UInt8} (hds : ∀ b ∈ ds, isDigit b = true) (hrest : EndsValue rest) :
    digitsOf (ds ++ rest) = ds := by
  have hstop : rest.takeWhile isDigit = [] := by
    cases rest with
    | nil => rfl
    | cons b rest => rcases hrest b rfl with rfl | rfl | rfl <;> rfl
  rw [digitsOf, List.takeWhile_append_of_pos hds, hstop, List.append_nil]

theorem wholePart_written (n : Nat) (negative : Bool) (place : Nat) {rest : List UInt8}
    (hrest : EndsValue rest)
    (hn : (if negative then 1 else 0) + (digitOctets n).length ≤ digitLimit) :
    wholePart negative place (digitOctets n ++ rest) = .ok (digitOctets n) := by
  unfold wholePart
  rw [digitsOf_append (isDigit_digitOctets n) hrest]
  extract_lets signs
  split
  · rename_i h
    exact absurd h (digitOctets_ne_nil n)
  · rename_i h
    exact absurd h (digitOctets_leading n _ _)
  · exact if_neg (Nat.not_lt.2 hn)

theorem numberPart_written (n : Nat) (negative : Bool) (place : Nat) {rest : List UInt8}
    (hrest : EndsValue rest)
    (hn : (if negative then 1 else 0) + (digitOctets n).length ≤ digitLimit) :
    numberPart negative place (digitOctets n ++ rest) =
      .ok (.int (if negative then -n else n), (digitOctets n).length) := by
  have hfraction : ∀ place, fractionPart place rest = .ok ([], 0) := by
    intro place
    cases rest with
    | nil => rfl
    | cons b rest => rcases hrest b rfl with rfl | rfl | rfl <;> rfl
  have hexponent : ∀ place, exponentPart place rest = .ok (none, 0) := by
    intro place
    cases rest with
    | nil => rfl
    | cons b rest => rcases hrest b rfl with rfl | rfl | rfl <;> rfl
  unfold numberPart
  rw [wholePart_written n negative place hrest hn]
  simp only [bind, Except.bind, List.drop_left, hfraction, List.drop_zero, hexponent,
    digitsValue_digitOctets]
  rfl

end ApiContract.Json.Octets
