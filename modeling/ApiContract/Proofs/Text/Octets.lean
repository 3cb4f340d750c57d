import ApiContract.Text.Base64
import ApiContract.Text.Utf8

/-!
# Texts and octets

The octets of a text are those of its characters (`Utf8.encode_eq`), and encode nothing but it
(`Utf8.decode?_encode`). A character beyond ASCII has no octet in common with one of ASCII. Octets that have been
written in base 64 are read again (`Base64.decode?_encode`), group by group.
-/

namespace ApiContract.Text.Utf8

theorem toList_eq (octets : ByteArray) : octets.toList = octets.data.toList := by
  have hloop (n i : Nat) (done : List UInt8) (hn : octets.size - i = n) :
      ByteArray.toList.loop octets i done = done.reverse ++ octets.data.toList.drop i := by
    rw [ByteArray.toList.loop]
    induction n generalizing i done with
    | zero =>
      have hi : ¬ i < octets.size := by omega
      have hdrop : octets.data.toList.drop i = [] := List.drop_of_length_le (by
        rw [Array.length_toList]
        exact Nat.le_of_not_lt hi)
      rw [if_neg hi, hdrop, List.append_nil]
    | succ n ih =>
      have hi : i < octets.size := by omega
      have hget : octets.get! i = octets.data.toList[i] := by
        show octets.data[i]! = _
        rw [getElem!_pos octets.data i hi, Array.getElem_toList]
      rw [if_pos hi, ByteArray.toList.loop, ih (i + 1) _ (by omega), hget, List.reverse_cons,
        List.append_assoc, List.singleton_append, List.getElem_cons_drop]
  exact hloop _ 0 [] rfl

theorem encode_ofList (cs : List Char) : encode (String.ofList cs) = cs.flatMap String.utf8EncodeChar := by
  rw [encode, toList_eq, String.toUTF8_eq_toByteArray, String.toByteArray_ofList, List.utf8Encode,
    List.toList_data_toByteArray]

theorem encode_eq (s : String) : encode s = s.toList.flatMap String.utf8EncodeChar := by
  rw [← encode_ofList, String.ofList_toList]

theorem encode_append (s t : String) : encode (s ++ t) = encode s ++ encode t := by
  rw [encode_eq, encode_eq, encode_eq, String.toList_append, List.flatMap_append]

theorem decode?_encode (s : String) : decode? (encode s) = some s := by
  have hbytes : (⟨(encode s).toArray⟩ : ByteArray) = s.toByteArray := by
    rw [encode, toList_eq]
    rfl
  rw [decode?, hbytes, String.fromUTF8?, dif_pos s.isValidUTF8]
  rfl

/-! ## Characters -/

theorem utf8EncodeChar_ascii {c : Char} (h : c.toNat < 128) :
    String.utf8EncodeChar c = [UInt8.ofNat c.toNat] :=
  if_pos (Nat.le_of_lt_succ h)

theorem le_of_mem_utf8EncodeChar {c : Char} (h : 128 ≤ c.toNat) {b : UInt8}
    (hb : b ∈ String.utf8EncodeChar c) : 128 ≤ b := by
  have hle (n : Nat) (h : 128 ≤ n % 256) : 128 ≤ UInt8.ofNat n := by
    rw [UInt8.le_iff_toNat_le, UInt8.toNat_ofNat']
    exact h
  have hv : ¬ c.val.toNat ≤ 0x7f := by
    have : c.toNat = c.val.toNat := rfl
    omega
  rw [String.utf8EncodeChar, if_neg hv] at hb
  split at hb
  · simp only [List.mem_cons, List.not_mem_nil, or_false] at hb
    rcases hb with rfl | rfl <;> exact hle _ (by omega)
  split at hb
  · simp only [List.mem_cons, List.not_mem_nil, or_false] at hb
    rcases hb with rfl | rfl | rfl <;> exact hle _ (by omega)
  · simp only [List.mem_cons, List.not_mem_nil, or_false] at hb
    rcases hb with rfl | rfl | rfl | rfl <;> exact hle _ (by omega)

end ApiContract.Text.Utf8

namespace ApiContract.Text.Base64

theorem digit_spec : ∀ n : Fin 64, value? (digit n) = some n.val ∧ digit n ≠ '=' := by decide

theorem value?_digit {n : Nat} (h : n < 64) : value? (digit n) = some n :=
  (digit_spec ⟨n, h⟩).1

theorem digit_ne_pad {n : Nat} (h : n < 64) : digit n ≠ '=' :=
  (digit_spec ⟨n, h⟩).2

section
variable {p q r s : Nat} (hp : p < 64) (hq : q < 64) (first : Bool)
include hp hq

/-- A whole group stands for three octets. -/
theorem decodeFrom_three (hr : r < 64) (hs : s < 64) (rest : List Char) :
    decodeFrom first (digit p :: digit q :: digit r :: digit s :: rest) =
      (decodeFrom false rest).map fun octets =>
        UInt8.ofNat ((((p * 64 + q) * 64 + r) * 64 + s) / 65536) ::
          UInt8.ofNat ((((p * 64 + q) * 64 + r) * 64 + s) / 256 % 256) ::
            UInt8.ofNat ((((p * 64 + q) * 64 + r) * 64 + s) % 256) :: octets := by
  rw [decodeFrom.eq_4 _ _ _ _ _ _ (fun _ h => absurd h (digit_ne_pad hs))
    (fun h => absurd h (digit_ne_pad hs)), value?_digit hp, value?_digit hq, value?_digit hr,
    value?_digit hs, if_neg (by simp [digit_ne_pad hp])]
  cases decodeFrom false rest <;> rfl

theorem decodeFrom_two (hr : r < 64) : decodeFrom first [digit p, digit q, digit r, '='] =
    some [UInt8.ofNat (((p * 64 + q) * 64 + r) / 1024),
      UInt8.ofNat (((p * 64 + q) * 64 + r) / 4 % 256)] := by
  rw [decodeFrom.eq_3 _ _ _ _ (digit_ne_pad hr), value?_digit hp, value?_digit hq, value?_digit hr,
    if_neg (by simp [digit_ne_pad hp])]
  rfl

theorem decodeFrom_one : decodeFrom first [digit p, digit q, '=', '='] =
    some [UInt8.ofNat ((p * 64 + q) / 16)] := by
  rw [decodeFrom.eq_2, value?_digit hp, value?_digit hq, if_neg (by simp [digit_ne_pad hp])]
  rfl

end

theorem ofNat_of_eq {n : Nat} {b : UInt8} (h : n = b.toNat) : UInt8.ofNat n = b := by
  rw [h, UInt8.ofNat_toNat]

theorem decodeFrom_encodeList (octets : List UInt8) (first : Bool) :
    decodeFrom first (encodeList octets) = some octets := by
  induction octets using encodeList.induct generalizing first with
  | case1 a b c rest ih =>
    have ha := a.toNat_lt
    have hb := b.toNat_lt
    have hc := c.toNat_lt
    rw [encodeList, decodeFrom_three (by omega) (by omega) _ (by omega) (by omega), ih false,
      ofNat_of_eq (b := a) (by omega), ofNat_of_eq (b := b) (by omega),
      ofNat_of_eq (b := c) (by omega)]
    rfl
  | case2 a b =>
    have ha := a.toNat_lt
    have hb := b.toNat_lt
    rw [encodeList, decodeFrom_two (by omega) (by omega) _ (by omega),
      ofNat_of_eq (b := a) (by omega), ofNat_of_eq (b := b) (by omega)]
  | case3 a =>
    have ha := a.toNat_lt
    rw [encodeList, decodeFrom_one (by omega) (by omega), ofNat_of_eq (b := a) (by omega)]
  | case4 => rfl

theorem decode?_encode (octets : List UInt8) : decode? (encode octets) = some octets := by
  rw [decode?, encode, String.toList_ofList, decodeFrom_encodeList]

end ApiContract.Text.Base64
