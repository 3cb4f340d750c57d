import ApiContract.Proofs.Text.Unique
import ApiContract.Text.Identifier
import ApiContract.Text.NameChar
import Mathlib.Data.List.TakeWhile

/-!
# The form of generated names

A generated variable name starts with a small letter, goes on with small letters, digits and
underscores, and is no keyword (`IsName`). A number at its end changes none of that
(`IsName.uniqueName`). So it names something in the target language (`IsName.isIdentifier`) and starts
with no underscore (`IsName.startsWith`).
-/

namespace ApiContract.Text

/-! ## Characters -/

theorem isUpper_iff {c : Char} : c.isUpper = true ↔ 65 ≤ c.toNat ∧ c.toNat ≤ 90 := by
  show decide (c.val ≥ 'A'.val ∧ c.val ≤ 'Z'.val) = true ↔ _
  simp [UInt32.le_iff_toNat_le, ← Char.toNat_val]

theorem isLower_iff {c : Char} : c.isLower = true ↔ 97 ≤ c.toNat ∧ c.toNat ≤ 122 := by
  show (decide (c.val ≥ 'a'.val) && decide (c.val ≤ 'z'.val)) = true ↔ _
  simp [UInt32.le_iff_toNat_le, ← Char.toNat_val]

theorem isDigit_iff {c : Char} : c.isDigit = true ↔ 48 ≤ c.toNat ∧ c.toNat ≤ 57 := by
  show (decide (c.val ≥ '0'.val) && decide (c.val ≤ '9'.val)) = true ↔ _
  simp [UInt32.le_iff_toNat_le, ← Char.toNat_val]

theorem toNat_toLower {c : Char} (h : c.isUpper = true) : c.toLower.toNat = c.toNat + 32 := by
  have hrange := isUpper_iff.1 h
  have hval : c.val ≥ 'A'.val ∧ c.val ≤ 'Z'.val := by
    simpa [UInt32.le_iff_toNat_le, ← Char.toNat_val] using hrange
  have hlower : c.toLower.val = c.val + 32 := congrArg Char.val (dif_pos hval)
  have hstep : (32 : UInt32).toNat = 32 := rfl
  rw [← Char.toNat_val, hlower, UInt32.toNat_add, Char.toNat_val]
  omega

theorem toLower_of_not_isUpper {c : Char} (h : c.isUpper = false) : c.toLower = c := by
  refine dif_neg fun hval => ?_
  rw [Bool.eq_false_iff, ne_eq, isUpper_iff] at h
  simp only [ge_iff_le, UInt32.le_iff_toNat_le, Char.toNat_val] at hval
  exact h hval

theorem isAlpha_eq (c : Char) : c.isAlpha = (c.isUpper || c.isLower) := rfl

/-- Whether a character stands in the words of a name. -/
def isWordChar (c : Char) : Bool := c.isUpper || c.isLower || c.isDigit

/-- Whether a character stands in the words of a generated variable name. -/
def isSmall (c : Char) : Bool := c.isLower || c.isDigit

theorem isSmall_toLower {c : Char} (h : isWordChar c = true) : isSmall c.toLower = true := by
  cases hu : c.isUpper with
  | true =>
    have hrange := isUpper_iff.1 hu
    have hlower : c.toLower.isLower = true := by
      rw [isLower_iff, toNat_toLower hu]
      omega
    rw [isSmall, hlower, Bool.true_or]
  | false =>
    rw [toLower_of_not_isUpper hu]
    simpa [isWordChar, isSmall, hu] using h

/-! ## Words -/

theorem mem_take_takeWhile {p : Char → Bool} {cs : List Char} {c : Char}
    (hc : c ∈ cs.take (cs.takeWhile p).length) : p c = true := by
  rw [← List.prefix_iff_eq_take.1 (List.takeWhile_prefix p)] at hc
  exact List.mem_takeWhile_imp hc

/-- A word is a number or consists of letters. -/
theorem take_wordLength (cs : List Char) :
    (∀ c ∈ cs.take (wordLength cs), c.isDigit = true) ∨
      ∀ c ∈ cs.take (wordLength cs), c.isAlpha = true := by
  have hletters : ∀ n, n ≤ (cs.takeWhile Char.isUpper).length +
      ((cs.drop (cs.takeWhile Char.isUpper).length).takeWhile Char.isLower).length →
        ∀ c ∈ cs.take n, c.isAlpha = true := by
    intro n hn c hc
    have hc := List.take_subset_take_left cs hn hc
    rw [List.take_add] at hc
    rcases List.mem_append.1 hc with hc | hc
    · simp [isAlpha_eq, mem_take_takeWhile hc]
    · simp [isAlpha_eq, mem_take_takeWhile hc]
  unfold wordLength
  dsimp only
  split
  · split
    · exact .inl fun c hc => mem_take_takeWhile hc
    · exact .inr (hletters _ (by omega))
  · split
    · exact .inr (hletters _ (by omega))
    · split
      · rename_i hone
        have hone : (cs.takeWhile Char.isUpper).length = 1 := by simpa using hone
        exact .inr (hletters _ (by omega))
      · exact .inr (hletters _ (by omega))

theorem isWordChar_of_kind {w : List Char}
    (h : (∀ c ∈ w, c.isDigit = true) ∨ ∀ c ∈ w, c.isAlpha = true) : ∀ c ∈ w, isWordChar c = true := by
  intro c hc
  obtain hdigits | hletters := h
  · rw [isWordChar, hdigits c hc, Bool.or_true]
  · rw [isWordChar, ← isAlpha_eq, hletters c hc, Bool.true_or]

/-- Words are numbers or consist of letters, and none is empty. -/
theorem kind_of_mem_wordsOf (cs : List Char) : ∀ w ∈ wordsOf cs,
    w ≠ [] ∧ ((∀ c ∈ w, c.isDigit = true) ∨ ∀ c ∈ w, c.isAlpha = true) := by
  induction cs using wordsOf.induct with
  | case1 =>
    intro w hw
    rw [wordsOf] at hw
    exact absurd hw List.not_mem_nil
  | case2 c rest hlen ih =>
    rw [wordsOf, hlen]
    exact ih
  | case3 c rest n hlen ih =>
    have hkind := take_wordLength (c :: rest)
    rw [hlen, List.take_succ_cons] at hkind
    rw [wordsOf, hlen]
    exact List.forall_mem_cons.2 ⟨⟨List.cons_ne_nil _ _, hkind⟩, ih⟩

theorem mem_wordsOf (cs : List Char) :
    ∀ w ∈ wordsOf cs, w ≠ [] ∧ ∀ c ∈ w, isWordChar c = true := fun w hw =>
  (kind_of_mem_wordsOf cs w hw).imp_right isWordChar_of_kind

/-! ## Names -/

/-- Whether a character stands in a generated variable name. -/
def isNameChar (c : Char) : Bool := isSmall c || c == '_'

theorem mem_intercalate {sep : List Char} {c : Char} :
    ∀ {ws : List (List Char)}, c ∈ sep.intercalate ws → c ∈ sep ∨ ∃ w ∈ ws, c ∈ w
  | [], h => by
    rw [List.intercalate_nil] at h
    exact absurd h List.not_mem_nil
  | [w], h => by
    rw [List.intercalate_singleton] at h
    exact .inr ⟨w, List.mem_cons_self, h⟩
  | w :: v :: ws, h => by
    rw [List.intercalate_cons_cons, List.mem_append, List.mem_append] at h
    obtain (h | h) | h := h
    · exact .inr ⟨w, List.mem_cons_self, h⟩
    · exact .inl h
    · obtain h | ⟨u, hu, hc⟩ := mem_intercalate h
      · exact .inl h
      · exact .inr ⟨u, List.mem_cons_of_mem _ hu, hc⟩

theorem head?_intercalate {sep : List Char} {c : Char} {ws : List (List Char)}
    (hne : ∀ w ∈ ws, w ≠ []) (h : (sep.intercalate ws).head? = some c) : ∃ w ∈ ws, c ∈ w := by
  cases ws with
  | nil => cases h
  | cons w ws =>
    refine ⟨w, List.mem_cons_self, ?_⟩
    cases w with
    | nil => exact absurd rfl (hne [] List.mem_cons_self)
    | cons d w =>
      have hd : (sep.intercalate ((d :: w) :: ws)).head? = some d := by
        cases ws with
        | nil => rw [List.intercalate_singleton, List.head?_cons]
        | cons v ws => rw [List.intercalate_cons_cons, List.append_assoc, List.cons_append, List.head?_cons]
      cases hd.symm.trans h
      exact List.mem_cons_self

/-- A text in snake case starts with a letter or digit, if it is not empty. -/
theorem snake_chars (text : String) : (∀ c ∈ (snake text).toList, isNameChar c = true) ∧
    ∀ c, (snake text).toList.head? = some c → isSmall c = true := by
  have hwords : ∀ w ∈ (wordsOf text.toList).map fun w => w.map Char.toLower,
      w ≠ [] ∧ ∀ c ∈ w, isSmall c = true := by
    intro w hw
    obtain ⟨v, hv, rfl⟩ := List.mem_map.1 hw
    obtain ⟨hne, hchars⟩ := mem_wordsOf _ v hv
    refine ⟨by simpa using hne, fun c hc => ?_⟩
    obtain ⟨d, hd, rfl⟩ := List.mem_map.1 hc
    exact isSmall_toLower (hchars d hd)
  have hsnake : (snake text).toList =
      ['_'].intercalate ((wordsOf text.toList).map fun w => w.map Char.toLower) := by
    rw [snake, String.toList_intercalate, List.map_map]
    congr 1
    refine List.map_congr_left fun w _ => ?_
    rw [Function.comp, String.toList_ofList]
  rw [hsnake]
  constructor
  · intro c hc
    obtain hc | ⟨w, hw, hc⟩ := mem_intercalate hc
    · rw [List.mem_singleton.1 hc]
      rfl
    · rw [isNameChar, (hwords w hw).2 c hc, Bool.true_or]
  · intro c hc
    obtain ⟨w, hw, hc⟩ := head?_intercalate (fun w hw => (hwords w hw).1) hc
    exact (hwords w hw).2 c hc

/-- The form of a generated variable name. -/
structure IsName (name : String) : Prop where
  head : ∃ c cs, name.toList = c :: cs ∧ c.isLower = true
  chars : ∀ c ∈ name.toList, isNameChar c = true
  notKeyword : keywords.contains name = false

theorem IsName.ne_empty {name : String} (h : IsName name) : name ≠ "" := by
  rintro rfl
  obtain ⟨c, cs, hcs, -⟩ := h.head
  cases hcs

/-- Whether each of these words ends with a letter. -/
def endInLetters (words : List String) : Bool :=
  words.all fun w => w.toList.getLast?.all Char.isAlpha

/-- What ends with no letter is no word that ends with one. -/
theorem append_notMem {words : List String} (hwords : endInLetters words = true) {name tail : String}
    {c : Char} (hlast : tail.toList.getLast? = some c) (hc : c.isAlpha = false) : name ++ tail ∉ words := by
  intro h
  have hall := List.all_eq_true.1 hwords _ h
  rw [String.toList_append, List.getLast?_append, hlast] at hall
  exact absurd (hc.symm.trans hall) Bool.false_ne_true

theorem not_keyword_append {name tail : String} {c : Char} (hlast : tail.toList.getLast? = some c)
    (hc : c.isAlpha = false) : keywords.contains (name ++ tail) = false := by
  rw [Bool.eq_false_iff]
  exact fun h => append_notMem (by decide) hlast hc (List.contains_iff_mem.1 h)

/-- A name with more name characters at its end, the last of which is no letter. -/
theorem append_chars {name tail : String} {c : Char} (hhead : ∃ c cs, name.toList = c :: cs ∧ c.isLower = true)
    (hchars : ∀ c ∈ name.toList, isNameChar c = true)
    (htail : ∀ c ∈ tail.toList, isNameChar c = true) (hlast : tail.toList.getLast? = some c)
    (hc : c.isAlpha = false) : IsName (name ++ tail) := by
  obtain ⟨d, ds, hname, hd⟩ := hhead
  refine ⟨⟨d, ds ++ tail.toList, ?_, hd⟩, fun e he => ?_, not_keyword_append hlast hc⟩
  · rw [String.toList_append, hname, List.cons_append]
  · rw [String.toList_append] at he
    exact (List.mem_append.1 he).elim (hchars e) (htail e)

theorem IsName.append {name tail : String} (h : IsName name) {c : Char}
    (htail : ∀ c ∈ tail.toList, isNameChar c = true) (hlast : tail.toList.getLast? = some c)
    (hc : c.isAlpha = false) : IsName (name ++ tail) :=
  append_chars h.head h.chars htail hlast hc

/-- A number has digits, the last of which is no letter. -/
theorem digits_toString (k : Nat) : (∀ c ∈ (toString k).toList, c.isDigit = true) ∧
    ∃ c, (toString k).toList.getLast? = some c ∧ c.isAlpha = false := by
  rw [Nat.toString_eq_repr, Nat.repr_eq_ofList_toDigits, String.toList_ofList]
  have hdigits : ∀ c ∈ Nat.toDigits 10 k, c.isDigit = true := fun c hc =>
    Nat.isDigit_of_mem_toDigits (by decide) (by decide) hc
  have hne : Nat.toDigits 10 k ≠ [] := Nat.toDigits_ne_nil
  refine ⟨hdigits, _, List.getLast?_eq_some_getLast hne, ?_⟩
  have hdigit := isDigit_iff.1 (hdigits _ (List.getLast_mem hne))
  rw [isAlpha_eq, Bool.or_eq_false_iff, Bool.eq_false_iff, Bool.eq_false_iff, ne_eq, ne_eq, isUpper_iff,
    isLower_iff]
  omega

/-- A number at the end makes a name another one. -/
theorem IsName.number {name : String} (h : IsName name) (k : Nat) : IsName (name ++ toString k) := by
  obtain ⟨hdigits, c, hlast, hc⟩ := digits_toString k
  refine h.append (fun c hc => ?_) hlast hc
  simp [isNameChar, isSmall, hdigits c hc]

theorem IsName.uniqueName {name : String} (h : IsName name) (taken : List String) :
    IsName (uniqueName name taken) := by
  obtain heq | ⟨k, heq⟩ := uniqueName_eq name taken
  · rwa [heq]
  · rw [heq]
    exact h.number k

theorem IsName.uniqueNames {taken names : List String} (h : ∀ n ∈ names, IsName n) :
    ∀ n ∈ uniqueNames taken names, IsName n :=
  forall_mem_uniqueNames (fun _ k hn => hn.number k) h

theorem startsWithDigit_cons {c : Char} {cs : List Char} {name : String} (h : name.toList = c :: cs) :
    startsWithDigit name = c.isDigit := by
  rw [startsWithDigit, h]
  rfl

/-- Before keywords are avoided, a name starts with a small letter. -/
theorem head_chars {name : String} (hne : name.toList ≠ [])
    (hhead : ∀ c, name.toList.head? = some c → isSmall c = true)
    (hchars : ∀ c ∈ name.toList, isNameChar c = true) :
    let name := if startsWithDigit name then "n_" ++ name else name
    (∃ c cs, name.toList = c :: cs ∧ c.isLower = true) ∧ ∀ c ∈ name.toList, isNameChar c = true := by
  obtain ⟨c, cs, hname⟩ := List.exists_cons_of_ne_nil hne
  have hsmall : isSmall c = true := hhead c (by rw [hname, List.head?_cons])
  dsimp only
  rw [startsWithDigit_cons hname]
  split
  · refine ⟨⟨'n', '_' :: name.toList, by rw [String.toList_append]; rfl, by decide⟩, fun d hd => ?_⟩
    have hprefix : "n_".toList.all isNameChar = true := by decide
    rw [String.toList_append] at hd
    exact (List.mem_append.1 hd).elim (List.all_eq_true.1 hprefix d) (hchars d)
  · rename_i hdigit
    refine ⟨⟨c, cs, hname, ?_⟩, hchars⟩
    simpa [isSmall, hdigit] using hsmall

theorem underscore_chars : ∀ c ∈ "_".toList, isNameChar c = true :=
  List.all_eq_true.1 (by decide)

/-- Generated names have that form, whatever they are made from. -/
theorem isName_identifier (text : String) (reserved : List String) :
    IsName (identifier text reserved) := by
  have hbase : (orElseText (snake text) "value").toList ≠ [] ∧
      (∀ c, (orElseText (snake text) "value").toList.head? = some c → isSmall c = true) ∧
        ∀ c ∈ (orElseText (snake text) "value").toList, isNameChar c = true := by
    obtain ⟨hchars, hhead⟩ := snake_chars text
    rw [orElseText]
    split
    · refine ⟨by decide, fun c hc => ?_, List.all_eq_true.1 (by decide)⟩
      cases hc
      rfl
    · rename_i hempty
      refine ⟨fun hnil => hempty ?_, hhead, hchars⟩
      rw [String.isEmpty_iff, ← String.toList_eq_nil_iff]
      exact hnil
  obtain ⟨hhead, hchars⟩ := head_chars hbase.1 hbase.2.1 hbase.2.2
  unfold identifier
  dsimp only at hhead hchars ⊢
  generalize (if startsWithDigit (orElseText (snake text) "value") then _ else _) = name
    at hhead hchars ⊢
  split
  · exact append_chars hhead hchars underscore_chars rfl rfl
  · rename_i hfree
    rw [Bool.or_eq_true, not_or] at hfree
    exact ⟨hhead, hchars, by simpa using hfree.1⟩

theorem isName_fieldIdentifier (text : String) : IsName (fieldIdentifier text) := by
  unfold fieldIdentifier
  dsimp only
  have h := isName_identifier text recordAttributes
  split
  · exact h.append underscore_chars rfl rfl
  · exact h

/-- A name keeps off reserved words that do not end with an underscore. -/
theorem identifier_notMem {text : String} {reserved : List String}
    (h : ∀ w ∈ reserved, w.toList.getLast? ≠ some '_') : identifier text reserved ∉ reserved := by
  unfold identifier
  dsimp only
  generalize (if startsWithDigit (orElseText (snake text) "value") then _ else _) = name
  split
  · intro hmem
    refine h _ hmem ?_
    rw [String.toList_append, List.getLast?_append]
    rfl
  · rename_i hfree
    rw [Bool.or_eq_true, not_or] at hfree
    exact fun hmem => hfree.2 (List.contains_iff_mem.2 hmem)

/-! ## Use of names -/

theorem IsName.startsWith {name : String} (h : IsName name) : name.startsWith "_" = false := by
  obtain ⟨c, cs, hname, hc⟩ := h.head
  rw [Bool.eq_false_iff]
  intro hstart
  rw [String.startsWith_string_iff, hname] at hstart
  obtain ⟨hhead, -⟩ := List.cons_prefix_cons.1 hstart
  subst hhead
  cases hc

theorem inRanges_of_mem {ranges : List (Nat × Nat)} {r : Nat × Nat} {n : Nat} (hr : r ∈ ranges)
    (h : r.1 ≤ n ∧ n ≤ r.2) : inRanges ranges n = true :=
  List.any_eq_true.2 ⟨r, hr, by simpa using h⟩

theorem IsName.isIdentifier {name : String} (h : IsName name) : isIdentifier name = true := by
  obtain ⟨c, cs, hname, hc⟩ := h.head
  have hchars := h.chars
  rw [Text.isIdentifier, hname]
  rw [hname] at hchars
  refine Bool.and_eq_true_iff.2 ⟨?_, List.all_eq_true.2 fun d hd => ?_⟩
  · exact inRanges_of_mem (show (97, 122) ∈ _ by decide) (isLower_iff.1 hc)
  · have hd := hchars d (List.mem_cons_of_mem _ hd)
    rw [isNameChar, isSmall, Bool.or_eq_true, Bool.or_eq_true, beq_iff_eq] at hd
    obtain (hd | hd) | rfl := hd
    · exact inRanges_of_mem (show (97, 122) ∈ _ by decide) (isLower_iff.1 hd)
    · exact inRanges_of_mem (show (48, 57) ∈ _ by decide) (isDigit_iff.1 hd)
    · exact inRanges_of_mem (show (95, 95) ∈ _ by decide) ⟨by decide, by decide⟩

end ApiContract.Text
