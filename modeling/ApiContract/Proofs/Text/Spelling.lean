import ApiContract.Proofs.Text.Identifier

/-!
# How type names are spelled

Making a type name of a text keeps its letters and digits in their order, and changes no more than their case
and what separates them (`letters_typeIdentifier`). So two texts with one type name are spelled alike
(`spelling_eq_of_typeIdentifier`): up to case and separators they are the same, or one says `Model` before a
digit, where the other leaves that to be added.
-/

namespace ApiContract.Text

/-- The letters and digits of a text, in lower case. -/
def letters (text : String) : List Char :=
  (text.toList.filter isWordChar).map Char.toLower

/-- How the type name of a text is spelled. -/
def spelling (text : String) : List Char :=
  if (letters text).head?.all Char.isDigit then "model".toList ++ letters text else letters text

theorem isDigit_toLower (c : Char) : c.toLower.isDigit = c.isDigit := by
  cases hupper : c.isUpper with
  | true =>
    have hrange := isUpper_iff.1 hupper
    have hnot : ∀ d : Char, 57 < d.toNat → d.isDigit = false := fun d hd => by
      rw [Bool.eq_false_iff, ne_eq, isDigit_iff]
      omega
    rw [hnot c (by omega), hnot c.toLower (by rw [toNat_toLower hupper]; omega)]
  | false => rw [toLower_of_not_isUpper hupper]

theorem toNat_toUpper {c : Char} (h : c.isLower = true) : c.toUpper.toNat = c.toNat - 32 := by
  have hrange := isLower_iff.1 h
  have hval : 'a'.val ≤ c.val ∧ c.val ≤ 'z'.val := by
    simpa [UInt32.le_iff_toNat_le, ← Char.toNat_val] using hrange
  have hupper : c.toUpper = ⟨c.val + ('A'.val - 'a'.val), _⟩ := dif_pos hval
  have hstep : ('A'.val - 'a'.val).toNat = 4294967264 := rfl
  rw [← Char.toNat_val, hupper, UInt32.toNat_add, Char.toNat_val, hstep]
  omega

theorem toUpper_of_not_isLower {c : Char} (h : c.isLower = false) : c.toUpper = c := by
  refine dif_neg fun hval => ?_
  rw [Bool.eq_false_iff, ne_eq, isLower_iff] at h
  simp only [UInt32.le_iff_toNat_le, Char.toNat_val] at hval
  exact h hval

/-- A letter in upper case is in lower case what the letter is. -/
theorem toLower_toUpper (c : Char) : c.toUpper.toLower = c.toLower := by
  cases hlower : c.isLower with
  | true =>
    have hrange := isLower_iff.1 hlower
    have hnat := toNat_toUpper hlower
    have hcapital : c.toUpper.isUpper = true := isUpper_iff.2 (by omega)
    have hsmall : c.isUpper = false := by
      rw [Bool.eq_false_iff, ne_eq, isUpper_iff]
      omega
    refine Char.toNat_inj.1 ?_
    rw [toNat_toLower hcapital, toLower_of_not_isUpper hsmall]
    omega
  | false => rw [toUpper_of_not_isLower hlower]

theorem isWordChar_toUpper {c : Char} (h : isWordChar c = true) : isWordChar c.toUpper = true := by
  cases hlower : c.isLower with
  | true =>
    have hrange := isLower_iff.1 hlower
    have hcapital : c.toUpper.isUpper = true := by
      rw [isUpper_iff, toNat_toUpper hlower]
      omega
    rw [isWordChar, hcapital]
    rfl
  | false => rwa [toUpper_of_not_isLower hlower]

/-! ## Words -/

/-- Where no word starts, there is no letter or digit. -/
theorem isWordChar_of_wordLength {c : Char} {cs : List Char} (h : wordLength (c :: cs) = 0) :
    isWordChar c = false := by
  cases hupper : c.isUpper with
  | true =>
    have huppers : ((c :: cs).takeWhile Char.isUpper).length = (cs.takeWhile Char.isUpper).length + 1 := by
      rw [List.takeWhile_cons_of_pos hupper, List.length_cons]
    unfold wordLength at h
    dsimp only at h
    rw [huppers] at h
    generalize (cs.takeWhile Char.isUpper).length = uppers at h
    split at h
    · rename_i hzero
      simp at hzero
    · split at h
      · omega
      · split at h
        · omega
        · rename_i hone
          simp only [beq_iff_eq] at hone
          omega
  | false =>
    cases hlower : c.isLower with
    | true => simp [wordLength, hupper, hlower] at h
    | false =>
      cases hdigit : c.isDigit with
      | true => simp [wordLength, hupper, hlower, hdigit] at h
      | false => simp [isWordChar, hupper, hlower, hdigit]

/-- The words of a text have all its letters and digits. -/
theorem flatten_wordsOf (cs : List Char) : (wordsOf cs).flatten = cs.filter isWordChar := by
  induction cs using wordsOf.induct with
  | case1 =>
    rw [wordsOf]
    rfl
  | case2 c rest hlen ih =>
    rw [wordsOf, hlen, List.filter_cons_of_neg (by simp [isWordChar_of_wordLength hlen])]
    exact ih
  | case3 c rest n hlen ih =>
    have hword : ∀ d ∈ c :: rest.take n, isWordChar d = true := by
      intro d hd
      have hd : d ∈ (c :: rest).take (wordLength (c :: rest)) := by rwa [hlen]
      exact isWordChar_of_kind (take_wordLength _) d hd
    have hsplit : c :: rest = (c :: rest.take n) ++ rest.drop n := by
      rw [List.cons_append, List.take_append_drop]
    rw [wordsOf, hlen, hsplit, List.filter_append, List.filter_eq_self.2 hword, ← ih]
    rfl

theorem capitalized_word {w : List Char} (h : ∀ c ∈ w, isWordChar c = true) :
    (∀ c ∈ capitalized w, isWordChar c = true) ∧ (capitalized w).map Char.toLower = w.map Char.toLower := by
  cases w with
  | nil => exact ⟨nofun, rfl⟩
  | cons c w =>
    obtain ⟨hc, hw⟩ := List.forall_mem_cons.1 h
    refine ⟨List.forall_mem_cons.2 ⟨isWordChar_toUpper hc, List.forall_mem_map.2 fun d hd => ?_⟩, ?_⟩
    · have hsmall := isSmall_toLower (hw d hd)
      rw [isSmall, Bool.or_eq_true] at hsmall
      rw [isWordChar, Bool.or_assoc, Bool.or_eq_true, Bool.or_eq_true]
      exact .inr hsmall
    · rw [capitalized, List.map_cons, List.map_cons, toLower_toUpper, List.map_map]
      congr 1
      refine List.map_congr_left fun d hd => ?_
      have hsmall := isSmall_toLower (hw d hd)
      refine toLower_of_not_isUpper ?_
      rw [isSmall, Bool.or_eq_true, isLower_iff, isDigit_iff] at hsmall
      rw [Bool.eq_false_iff, ne_eq, isUpper_iff]
      omega

theorem pascal_chars (text : String) : ∀ c ∈ (pascal text).toList, isWordChar c = true := by
  rw [pascal, String.toList_ofList]
  intro c hc
  obtain ⟨w, hw, hc⟩ := List.mem_flatMap.1 hc
  exact (capitalized_word (mem_wordsOf _ w hw).2).1 c hc

/-- Pascal case keeps letters and digits. -/
theorem letters_pascal (text : String) : letters (pascal text) = letters text := by
  unfold letters
  rw [List.filter_eq_self.2 (pascal_chars text), ← flatten_wordsOf, pascal, String.toList_ofList,
    List.map_flatMap, List.map_flatten, List.flatMap]
  congr 1
  exact List.map_congr_left fun w hw => (capitalized_word (mem_wordsOf _ w hw).2).2

/-! ## Type names -/

theorem letters_append (a b : String) : letters (a ++ b) = letters a ++ letters b := by
  simp [letters]

/-- A type name has the letters and digits of the text, after `model` where no letter comes first. -/
theorem letters_typeIdentifier (text : String) : letters (typeIdentifier text) = spelling text := by
  have hmodel : letters "Model" = "model".toList := by decide
  unfold typeIdentifier spelling
  dsimp only
  rw [← letters_pascal text, orElseText]
  cases hchars : (pascal text).toList with
  | nil =>
    obtain hempty : pascal text = "" := String.toList_eq_nil_iff.1 hchars
    rw [hempty]
    decide
  | cons c cs =>
    have hnonempty : (pascal text).isEmpty = false := by
      rw [Bool.eq_false_iff, ne_eq, String.isEmpty_iff, ← String.toList_eq_nil_iff, hchars]
      exact List.cons_ne_nil _ _
    have hhead : (letters (pascal text)).head? = some c.toLower := by
      rw [letters, List.filter_eq_self.2 (pascal_chars text), hchars]
      rfl
    rw [hnonempty, if_neg Bool.false_ne_true, startsWithDigit_cons hchars, hhead, Option.all_some,
      isDigit_toLower]
    split
    · rw [letters_append, hmodel]
    · rfl

/-- Texts that have one type name are spelled alike. -/
theorem spelling_eq_of_typeIdentifier {a b : String} (h : typeIdentifier a = typeIdentifier b) :
    spelling a = spelling b := by
  rw [← letters_typeIdentifier, ← letters_typeIdentifier, h]

example : spelling "foo_bar" = spelling "FooBar" ∧ typeIdentifier "foobar" ≠ typeIdentifier "foo_bar" := by
  decide +kernel

end ApiContract.Text
