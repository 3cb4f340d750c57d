import ApiContract.Json.Octets
import ApiContract.Proofs.Json.Number
import ApiContract.Proofs.Json.Printer
import ApiContract.Proofs.Text.Octets
import Mathlib.Tactic.IntervalCases

/-!
# Written tokens

`Reads` says that a reader gets from one state to another by taking octets. A scalar that has been written is
taken as one token: texts, truth values, and whole numbers that are not too long and are not gone on with.
-/

namespace ApiContract.Json.Octets

/-!
## Written strings

A string that has been written is read again (`stringToken_written`): an escape stands for its character, and
every other octet for itself.
-/

open Text.Utf8

/-- The octets between the quotes of a written string. -/
def inside (cs : List Char) : List UInt8 :=
  (cs.flatMap plainChar).flatMap String.utf8EncodeChar

theorem inside_cons (c : Char) (cs : List Char) :
    inside (c :: cs) = (plainChar c).flatMap String.utf8EncodeChar ++ inside cs := by
  rw [inside, List.flatMap_cons, List.flatMap_append, inside]

theorem octetsOf_eq (c : Char) : octetsOf c = String.utf8EncodeChar c := by
  rw [octetsOf, encode_eq, String.toList_singleton, List.flatMap_singleton]

/-- Octets that are no quote, no backslash and no control character stand for themselves. -/
theorem scanString_plain {bs : List UInt8} (hbs : ∀ b ∈ bs, b ≠ 34 ∧ b ≠ 92 ∧ 32 ≤ b)
    (length fuel place : Nat) (done more : List UInt8) :
    scanString length (bs.length + fuel) place done (bs ++ more) =
      scanString length fuel (place + bs.length) (bs.reverse ++ done) more := by
  induction bs generalizing place done with
  | nil => rw [List.length_nil, Nat.zero_add]; rfl
  | cons b bs ih =>
    obtain ⟨⟨hquote, hslash, hcontrol⟩, hbs⟩ := List.forall_mem_cons.1 hbs
    have hlow : ¬ b < 32 := UInt8.not_lt.2 hcontrol
    have hstep : scanString length (bs.length + fuel + 1) place done (b :: (bs ++ more)) =
        scanString length (bs.length + fuel) (place + 1) (b :: done) (bs ++ more) := by
      rw [scanString.eq_def]
      simp only [beq_iff_eq, hquote, hslash, hlow, if_false]
    rw [List.length_cons, Nat.add_right_comm, List.cons_append, hstep, ih hbs, List.reverse_cons,
      List.append_assoc, List.singleton_append, Nat.add_assoc, Nat.add_comm 1]

theorem length_short {c letter : Char} (h : (c, letter) ∈ shortEscapes) :
    (['\\', letter].flatMap String.utf8EncodeChar).length = 2 := by
  simp only [shortEscapes, List.mem_cons, Prod.mk.injEq, List.not_mem_nil, or_false] at h
  rcases h with ⟨-, rfl⟩ | ⟨-, rfl⟩ | ⟨-, rfl⟩ | ⟨-, rfl⟩ | ⟨-, rfl⟩ | ⟨-, rfl⟩ | ⟨-, rfl⟩ <;> rfl

theorem scanString_short {c letter : Char} (h : (c, letter) ∈ shortEscapes)
    (length fuel place : Nat) (done more : List UInt8) :
    scanString length (fuel + 1) place done (['\\', letter].flatMap String.utf8EncodeChar ++ more) =
      scanString length fuel (place + 2) ((String.utf8EncodeChar c).reverse ++ done) more := by
  rw [← octetsOf_eq]
  simp only [shortEscapes, List.mem_cons, Prod.mk.injEq, List.not_mem_nil, or_false] at h
  rcases h with ⟨rfl, rfl⟩ | ⟨rfl, rfl⟩ | ⟨rfl, rfl⟩ | ⟨rfl, rfl⟩ | ⟨rfl, rfl⟩ | ⟨rfl, rfl⟩ | ⟨rfl, rfl⟩ <;>
    rfl

/-- The escape of a control character is read as it. -/
theorem unitEscape_written {n : Nat} (hn : n < 32) (length place : Nat) (more : List UInt8) :
    unitEscape length place ((Text.hexPadded 4 n).flatMap String.utf8EncodeChar ++ more) =
      .ok (octetsOf (Char.ofNat n), 4) := by
  interval_cases n <;> rfl

theorem length_hexPadded {n : Nat} (hn : n < 32) :
    ((Text.hexPadded 4 n).flatMap String.utf8EncodeChar).length = 4 := by
  interval_cases n <;> rfl

theorem scanString_unit {c : Char} (h : c.toNat < 32) (length fuel place : Nat)
    (done more : List UInt8) :
    scanString length (fuel + 1) place done
        ((Json.unitEscape c.toNat).flatMap String.utf8EncodeChar ++ more) =
      scanString length fuel (place + 6) ((String.utf8EncodeChar c).reverse ++ done) more := by
  have hread : unitEscape length (place + 2)
      ((Text.hexPadded 4 c.toNat).flatMap String.utf8EncodeChar ++ more) =
      .ok (String.utf8EncodeChar c, 4) := by
    rw [unitEscape_written h, octetsOf_eq, Char.ofNat_toNat]
  have hdrop : ((Text.hexPadded 4 c.toNat).flatMap String.utf8EncodeChar ++ more).drop 4 = more :=
    List.drop_left' (length_hexPadded h)
  show (unitEscape length (place + 2)
      ((Text.hexPadded 4 c.toNat).flatMap String.utf8EncodeChar ++ more) >>= fun r =>
        scanString length fuel (place + 2 + r.2) (r.1.reverse ++ done)
          (((Text.hexPadded 4 c.toNat).flatMap String.utf8EncodeChar ++ more).drop r.2)) = _
  rw [hread]
  show scanString length fuel (place + 2 + 4) _ (List.drop 4 _) = _
  rw [hdrop]

/-- A character that is written as itself has no octet of another meaning. -/
theorem of_mem_utf8EncodeChar {c : Char} (hquote : c ≠ '"') (hslash : c ≠ '\\') (hlow : 32 ≤ c.toNat)
    {b : UInt8} (hb : b ∈ String.utf8EncodeChar c) : b ≠ 34 ∧ b ≠ 92 ∧ 32 ≤ b := by
  simp only [ne_eq, ← UInt8.toNat_inj, UInt8.le_iff_toNat_le]
  by_cases hascii : c.toNat < 128
  · rw [utf8EncodeChar_ascii hascii, List.mem_singleton] at hb
    have hnat : b.toNat = c.toNat := by
      rw [hb, UInt8.toNat_ofNat']
      omega
    have h₁ : c.toNat ≠ 34 := fun h => hquote (Char.toNat_inj.1 h)
    have h₂ : c.toNat ≠ 92 := fun h => hslash (Char.toNat_inj.1 h)
    exact ⟨hnat ▸ h₁, hnat ▸ h₂, hnat ▸ hlow⟩
  · have hb := UInt8.le_iff_toNat_le.1 (le_of_mem_utf8EncodeChar (Nat.le_of_not_lt hascii) hb)
    have h128 : (128 : UInt8).toNat = 128 := rfl
    have h34 : (34 : UInt8).toNat = 34 := rfl
    have h92 : (92 : UInt8).toNat = 92 := rfl
    have h32 : (32 : UInt8).toNat = 32 := rfl
    omega

/-- One character as it has been written. -/
theorem scanString_char (c : Char) {fuel : Nat} (length place : Nat) (done more : List UInt8)
    (hfuel : ((plainChar c).flatMap String.utf8EncodeChar ++ more).length < fuel) :
    ∃ fuel', more.length < fuel' ∧
      scanString length fuel place done ((plainChar c).flatMap String.utf8EncodeChar ++ more) =
        scanString length fuel' (place + ((plainChar c).flatMap String.utf8EncodeChar).length)
          ((String.utf8EncodeChar c).reverse ++ done) more := by
  rw [List.length_append] at hfuel
  rcases plainChar_cases c with ⟨letter, hletter, hc⟩ | ⟨hlow, hc⟩ | ⟨hquote, hslash, hlow, hc⟩
  · obtain ⟨fuel, rfl⟩ : ∃ n, fuel = n + 1 := ⟨fuel - 1, by omega⟩
    have hlen := length_short hletter
    rw [hc, hlen] at hfuel
    exact ⟨fuel, by omega, by rw [hc, scanString_short hletter, hlen]⟩
  · obtain ⟨fuel, rfl⟩ : ∃ n, fuel = n + 1 := ⟨fuel - 1, by omega⟩
    have hlen : ((Json.unitEscape c.toNat).flatMap String.utf8EncodeChar).length = 6 := by
      show ((Text.hexPadded 4 c.toNat).flatMap String.utf8EncodeChar).length + 1 + 1 = 6
      rw [length_hexPadded hlow]
    rw [hc, hlen] at hfuel
    exact ⟨fuel, by omega, by rw [hc, scanString_unit hlow, hlen]⟩
  · rw [hc, List.flatMap_singleton] at hfuel ⊢
    refine ⟨fuel - (String.utf8EncodeChar c).length, by omega, ?_⟩
    have h := scanString_plain (fun b => of_mem_utf8EncodeChar hquote hslash hlow) length
      (fuel - (String.utf8EncodeChar c).length) place done more
    rwa [Nat.add_sub_cancel' (by omega)] at h

theorem scanString_written (cs : List Char) {fuel : Nat} (length place : Nat) (done more : List UInt8)
    (hfuel : (inside cs ++ 34 :: more).length < fuel) :
    scanString length fuel place done (inside cs ++ 34 :: more) =
      .ok ⟨done.reverse ++ cs.flatMap String.utf8EncodeChar, place + (inside cs).length + 1⟩ := by
  induction cs generalizing fuel place done with
  | nil =>
    obtain ⟨fuel, rfl⟩ : ∃ n, fuel = n + 1 := ⟨fuel - 1, by omega⟩
    simp [inside, scanString]
  | cons c cs ih =>
    rw [inside_cons, List.append_assoc] at hfuel ⊢
    obtain ⟨fuel', hfuel', h⟩ := scanString_char c length place done _ hfuel
    rw [h, ih _ _ hfuel']
    simp [Nat.add_assoc]

/-- A written string is read after its opening quote. -/
theorem stringToken_written (s : String) (length position : Nat) (more : List UInt8) :
    stringToken length position (inside s.toList ++ 34 :: more) =
      (.text s, (inside s.toList).length + 1) := by
  have hplace : position + 1 + (inside s.toList).length + 1 - position - 1 =
      (inside s.toList).length + 1 := by omega
  rw [stringToken, scanString_written _ _ _ _ _ (Nat.lt_succ_self _)]
  simp only [List.reverse_nil, List.nil_append, ← encode_eq, decode?_encode, hplace]

/-! ## Taking octets -/

/-- From the first state and octets on, reading goes on as from the second. -/
def Reads (r : Reader) (octets : List UInt8) (r' : Reader) (rest : List UInt8) : Prop :=
  ∀ length position, ∃ position', Reader.run length r (tokensFrom length position octets) =
    Reader.run length r' (tokensFrom length position' rest)

theorem Reads.trans {r r' r'' : Reader} {octets rest rest' : List UInt8} (h : Reads r octets r' rest)
    (h' : Reads r' rest r'' rest') : Reads r octets r'' rest' := by
  intro length position
  obtain ⟨position', heq⟩ := h length position
  obtain ⟨position'', heq'⟩ := h' length position'
  exact ⟨position'', heq.trans heq'⟩

/-- One token is taken. -/
theorem reads_token {r r' : Reader} {b : UInt8} {octets rest : List UInt8} {t : Token} {n : Nat}
    (hspace : isSpace (charOf b) = false)
    (htoken : ∀ length position, token length position b octets = (t, n))
    (hrest : octets.drop n = rest) (hstep : ∀ position, r.step position t = .ok r') :
    Reads r (b :: octets) r' rest := by
  intro length position
  refine ⟨position + 1 + n, ?_⟩
  rw [tokensFrom, hspace, if_neg Bool.false_ne_true]
  simp only [htoken, hrest]
  rw [Reader.run, hstep]

/-- What separates or closes is taken as a token of its own. -/
theorem reads_mark {r r' : Reader} {b : UInt8} {rest : List UInt8} {t : Token}
    (hspace : isSpace (charOf b) = false) (htoken : ∀ length position rest, token length position b rest = (t, 0))
    (hstep : ∀ position, r.step position t = .ok r') : Reads r (b :: rest) r' rest :=
  reads_token hspace (fun _ _ => htoken _ _ _) List.drop_zero hstep

theorem stringText_octets (s : String) (rest : List UInt8) :
    encode (stringText false s) ++ rest = 34 :: (inside s.toList ++ 34 :: rest) := by
  rw [stringText, encode_ofList, List.flatMap_append]
  show (34 :: (s.toList.flatMap plainChar).flatMap String.utf8EncodeChar) ++ [34] ++ rest = _
  rw [List.append_assoc, List.cons_append]
  rfl

theorem reads_text {r r' : Reader} {s : String} {rest : List UInt8}
    (hstep : ∀ position, r.step position (.text s) = .ok r') :
    Reads r (encode (stringText false s) ++ rest) r' rest := by
  rw [stringText_octets]
  refine reads_token rfl (fun length position => stringToken_written s length position rest) ?_ hstep
  rw [← List.drop_drop, List.drop_left]
  rfl

/-! ## Scalars -/

/-- Whether a value may come next. -/
def TakesValue : Expected → Prop
  | .value | .itemOrEnd | .itemAfterComma => True
  | _ => False

theorem step_value {frames : List Frame} {e : Expected} {t : Token} (he : TakesValue e)
    (ht : t ≠ .closeList) (position : Nat) :
    Reader.step ⟨frames, e⟩ position t = Reader.takeValue frames position t := by
  cases e with
  | value => rfl
  | itemOrEnd => cases t <;> first | rfl | exact absurd rfl ht
  | itemAfterComma => exact if_neg ht
  | _ => exact he.elim

theorem step_scalar {frames : List Frame} {e : Expected} {s : Scalar} (he : TakesValue e)
    (hdepth : frames.length ≤ Reader.depthLimit) (position : Nat) :
    Reader.step ⟨frames, e⟩ position (.scalar s) = .ok ⟨frames, .separator (.scalar s)⟩ := by
  rw [step_value he (by simp), Reader.takeValue, if_neg (Nat.not_lt.2 hdepth)]

theorem step_text {frames : List Frame} {e : Expected} {s : String} (he : TakesValue e)
    (hdepth : frames.length ≤ Reader.depthLimit) (position : Nat) :
    Reader.step ⟨frames, e⟩ position (.text s) = .ok ⟨frames, .separator (.text s)⟩ := by
  rw [step_value he (by simp), Reader.takeValue, if_neg (Nat.not_lt.2 hdepth)]

theorem wordToken_written (place : Nat) (tail : String) (s : Scalar) (rest : List UInt8) :
    wordToken place tail s (encode tail ++ rest) = (.scalar s, (encode tail).length) := by
  refine if_pos ?_
  show (List.take (encode tail).length (encode tail ++ rest) == encode tail) = true
  rw [List.take_left]
  exact beq_self_eq_true _

theorem reads_word (word tail : String) {r r' : Reader} {b : UInt8} {s : Scalar} {rest : List UInt8}
    (hword : word.toList.flatMap String.utf8EncodeChar = b :: tail.toList.flatMap String.utf8EncodeChar)
    (hspace : isSpace (charOf b) = false)
    (htoken : ∀ length position rest, token length position b rest = wordToken position tail s rest)
    (hstep : ∀ position, r.step position (.scalar s) = .ok r') :
    Reads r (encode word ++ rest) r' rest := by
  rw [encode_eq, hword, ← encode_eq, List.cons_append]
  refine reads_token hspace (fun length position => ?_) List.drop_left hstep
  rw [htoken, wordToken_written]

theorem numberToken_natural {n : Nat} {b : UInt8} {bs rest : List UInt8} (position : Nat)
    (hn : digitOctets n = b :: bs) (hlimit : (digitOctets n).length ≤ digitLimit)
    (hrest : EndsValue rest) :
    numberToken position b (bs ++ rest) = (.scalar (.int n), bs.length) := by
  have hdigit : isDigit b = true := isDigit_digitOctets n b (hn ▸ List.mem_cons_self)
  have hpart := numberPart_written n false position hrest (by simpa using hlimit)
  rw [hn, List.cons_append] at hpart
  unfold numberToken
  split
  · cases hdigit
  · cases hdigit
  · rw [hpart]
    rfl

theorem numberToken_negative (n position : Nat) {rest : List UInt8}
    (hlimit : 1 + (digitOctets n).length ≤ digitLimit) (hrest : EndsValue rest) :
    numberToken position 45 (digitOctets n ++ rest) = (.scalar (.int (-n)), (digitOctets n).length) := by
  have hpart := numberPart_written n true (position + 1) hrest (by simpa using hlimit)
  unfold numberToken
  split
  · rename_i more h
    cases hn : digitOctets n with
    | nil => exact absurd hn (digitOctets_ne_nil n)
    | cons b bs =>
      have hdigit : isDigit b = true := isDigit_digitOctets n b (hn ▸ List.mem_cons_self)
      rw [hn] at h
      cases h
      cases hdigit
  · rw [hpart]
    rfl
  · rename_i h _
    exact absurd rfl h

theorem token_digit {b : UInt8} (hb : isDigit b = true) (length position : Nat) (rest : List UInt8) :
    token length position b rest = numberToken position b rest :=
  of_isDigit (P := fun b => token length position b rest = numberToken position b rest)
    (fun n hlow hhigh => by interval_cases n <;> rfl) hb

theorem isSpace_digit {b : UInt8} (hb : isDigit b = true) : isSpace (charOf b) = false :=
  of_isDigit (P := fun b => isSpace (charOf b) = false)
    (fun n hlow hhigh => by interval_cases n <;> rfl) hb

theorem reads_int {r r' : Reader} {n : Int} {rest : List UInt8}
    (hlimit : (encode (toString n)).length ≤ digitLimit) (hrest : EndsValue rest)
    (hstep : ∀ position, r.step position (.scalar (.int n)) = .ok r') :
    Reads r (encode (toString n) ++ rest) r' rest := by
  cases n with
  | ofNat n =>
    have htext : encode (toString (Int.ofNat n)) = digitOctets n := encode_repr n
    rw [htext] at hlimit ⊢
    cases hn : digitOctets n with
    | nil => exact absurd hn (digitOctets_ne_nil n)
    | cons b bs =>
      have hdigit : isDigit b = true := isDigit_digitOctets n b (hn ▸ List.mem_cons_self)
      refine reads_token (isSpace_digit hdigit) (fun length position => ?_) List.drop_left hstep
      rw [token_digit hdigit]
      exact numberToken_natural position hn hlimit hrest
  | negSucc n =>
    have htext : encode (toString (Int.negSucc n)) = 45 :: digitOctets (n + 1) := by
      show encode ("-" ++ toString (n + 1)) = _
      rw [encode_append, encode_repr, encode_eq]
      rfl
    rw [htext] at hlimit ⊢
    rw [List.length_cons, Nat.add_comm] at hlimit
    rw [List.cons_append]
    exact reads_token rfl (fun length position => numberToken_negative (n + 1) position hlimit hrest)
      List.drop_left hstep

end ApiContract.Json.Octets
