import ApiContract.Proofs.Text.Words

/-!
# How texts fall into words

`wordPattern` says what a word is, as an ordered choice with a look at what follows: capitals before a capital that
opens the next word, small letters after at most one capital, capitals, digits. The words of a text are the matches
of this pattern from left to right, of the first alternative that fits each time and of the longest run
(`wordsOf_eq_occurrences`).

* `wordForm_of_rests`: whatever the pattern matches has the form of a word.
* `words_lossless`: the words have all letters and digits of a text, in their order, and only what separates
  words stands between two of them.
-/

namespace ApiContract.Text

/-! ## Patterns -/

/-- Patterns of characters. Of two alternatives the first goes before the second; an option is rather taken than
left, and a repetition is rather long than short. What is ahead is looked at and left. -/
inductive Pattern where
  | one (p : Char → Bool)
  | repeated (p : Char → Bool)
  | optional (a : Pattern)
  | seq (a b : Pattern)
  | either (a b : Pattern)
  | ahead (a : Pattern)

/-- What can be left of a text after one or more characters of a class, the longest run first. -/
def afterRun (p : Char → Bool) : List Char → List (List Char)
  | [] => []
  | c :: cs => if p c then afterRun p cs ++ [cs] else []

namespace Pattern

/-- What the matches at the start of a text leave of it, in the order in which they are tried. -/
def rests : Pattern → List Char → List (List Char)
  | one _, [] => []
  | one p, c :: cs => if p c then [cs] else []
  | repeated p, cs => afterRun p cs
  | optional a, cs => a.rests cs ++ [cs]
  | seq a b, cs => (a.rests cs).flatMap b.rests
  | either a b, cs => a.rests cs ++ b.rests cs
  | ahead a, cs => if (a.rests cs).isEmpty then [] else [cs]

/-- The matches in a text from left to right, without empty ones; the search goes on where a match ends. -/
def occurrences (a : Pattern) : List Char → List (List Char)
  | [] => []
  | c :: cs =>
    match (a.rests (c :: cs)).head? with
    | none => a.occurrences cs
    | some rest =>
      if rest.length ≤ cs.length then
        (c :: cs).take (cs.length + 1 - rest.length) :: a.occurrences rest
      else a.occurrences cs
termination_by cs => cs.length

end Pattern

/-- The pattern of a word. -/
def wordPattern : Pattern :=
  .either (.seq (.repeated Char.isUpper) (.ahead (.seq (.one Char.isUpper) (.one Char.isLower))))
    (.either (.seq (.optional (.one Char.isUpper)) (.repeated Char.isLower))
      (.either (.repeated Char.isUpper) (.repeated Char.isDigit)))

/-! ## The first match -/

/-- The longest run leaves what comes after the characters of the class. -/
theorem head?_afterRun (p : Char → Bool) (cs : List Char) : (afterRun p cs).head? =
    if (cs.takeWhile p).length = 0 then none else some (cs.drop (cs.takeWhile p).length) := by
  induction cs with
  | nil => rfl
  | cons c cs ih =>
    rw [afterRun, List.takeWhile_cons]
    cases hc : p c with
    | false => rfl
    | true =>
      rw [if_pos rfl, if_pos rfl, List.head?_append, ih]
      split
      · rename_i hzero
        rw [List.length_cons, hzero]
        rfl
      · rfl

/-- How many capitals a text starts with. -/
def capitals (cs : List Char) : Nat := (cs.takeWhile Char.isUpper).length

/-- How many small letters come after these capitals. -/
def smalls (cs : List Char) : Nat := ((cs.drop (capitals cs)).takeWhile Char.isLower).length

theorem capitals_cons_of_pos {c : Char} (h : c.isUpper = true) (cs : List Char) :
    capitals (c :: cs) = capitals cs + 1 := by
  rw [capitals, List.takeWhile_cons_of_pos h, List.length_cons, capitals]

theorem capitals_cons_of_neg {c : Char} (h : c.isUpper = false) (cs : List Char) : capitals (c :: cs) = 0 := by
  rw [capitals, List.takeWhile_cons_of_neg (by simp [h])]
  rfl

theorem smalls_cons_of_pos {c : Char} (h : c.isUpper = true) (cs : List Char) :
    smalls (c :: cs) = smalls cs := by
  rw [smalls, capitals_cons_of_pos h, List.drop_succ_cons, smalls]

theorem smalls_cons_of_neg {c : Char} (h : c.isUpper = false) (cs : List Char) :
    smalls (c :: cs) = ((c :: cs).takeWhile Char.isLower).length := by
  rw [smalls, capitals_cons_of_neg h, List.drop_zero]

/-- Whether a text starts with a capital and then a small letter. -/
def opensWord : List Char → Bool
  | c :: d :: _ => c.isUpper && d.isLower
  | _ => false

theorem opensWord_iff (cs : List Char) : opensWord cs = true ↔ capitals cs = 1 ∧ 0 < smalls cs := by
  cases cs with
  | nil => decide
  | cons c cs =>
    cases hc : c.isUpper with
    | false =>
      rw [capitals_cons_of_neg hc]
      cases cs <;> simp [opensWord, hc]
    | true =>
      rw [capitals_cons_of_pos hc, smalls_cons_of_pos hc]
      cases cs with
      | nil => simp [opensWord, smalls]
      | cons d cs =>
        rw [opensWord, hc, Bool.true_and]
        cases hd : d.isUpper with
        | false =>
          rw [capitals_cons_of_neg hd, smalls_cons_of_neg hd, List.takeWhile_cons]
          cases d.isLower <;> simp
        | true =>
          rw [capitals_cons_of_pos hd, isLower_of_isUpper hd]
          simp

/-- Of a run of capitals before a small letter the last one opens the next word. -/
theorem filter_afterRun (cs : List Char) : (afterRun Char.isUpper cs).filter opensWord =
    if 2 ≤ capitals cs ∧ 0 < smalls cs then [cs.drop (capitals cs - 1)] else [] := by
  induction cs with
  | nil => rfl
  | cons c cs ih =>
    rw [afterRun]
    cases hc : c.isUpper with
    | false =>
      rw [capitals_cons_of_neg hc, if_neg Bool.false_ne_true, if_neg (by omega)]
      rfl
    | true =>
      rw [if_pos rfl, List.filter_append, ih, capitals_cons_of_pos hc, smalls_cons_of_pos hc,
        List.filter_singleton]
      cases hopens : opensWord cs with
      | true =>
        obtain ⟨hone, hsmall⟩ := (opensWord_iff cs).1 hopens
        rw [if_neg (by omega), if_pos (by omega), hone]
        rfl
      | false =>
        have hnot : ¬ (capitals cs = 1 ∧ 0 < smalls cs) := by rw [← opensWord_iff, hopens]; decide
        by_cases hmore : 2 ≤ capitals cs ∧ 0 < smalls cs
        · obtain ⟨n, hn⟩ := Nat.exists_eq_add_of_le' hmore.1
          rw [if_pos hmore, if_pos (by omega), hn]
          rfl
        · rw [if_neg hmore, if_neg (by omega)]
          rfl

theorem rests_ahead (cs : List Char) :
    (Pattern.ahead (.seq (.one Char.isUpper) (.one Char.isLower))).rests cs =
      if opensWord cs then [cs] else [] := by
  cases cs with
  | nil => rfl
  | cons c cs =>
    cases cs with
    | nil => cases hc : c.isUpper <;> simp [Pattern.rests, opensWord, hc]
    | cons d cs =>
      cases hc : c.isUpper <;> cases hd : d.isLower <;> simp [Pattern.rests, opensWord, hc, hd]

/-- Capitals before the next word leave its capital. -/
theorem rests_capitals_ahead (cs : List Char) :
    (Pattern.seq (.repeated Char.isUpper)
      (.ahead (.seq (.one Char.isUpper) (.one Char.isLower)))).rests cs =
        if 2 ≤ capitals cs ∧ 0 < smalls cs then [cs.drop (capitals cs - 1)] else [] := by
  rw [← filter_afterRun, Pattern.rests, Pattern.rests]
  generalize afterRun Char.isUpper cs = runs
  induction runs with
  | nil => rfl
  | cons r runs ih =>
    rw [List.flatMap_cons, ih, rests_ahead, List.filter_cons]
    split <;> rfl

theorem smalls_of_capitals {cs : List Char} (h : capitals cs = 0) :
    smalls cs = (cs.takeWhile Char.isLower).length := by
  rw [smalls, h, List.drop_zero]

theorem takeWhile_isLower_of_capitals {cs : List Char} (h : capitals cs ≠ 0) :
    cs.takeWhile Char.isLower = [] := by
  cases cs with
  | nil => rfl
  | cons c cs =>
    cases hc : c.isUpper with
    | false => exact absurd (capitals_cons_of_neg hc cs) h
    | true => rw [List.takeWhile_cons_of_neg (by simp [isLower_of_isUpper hc])]

/-- Small letters may have one capital before them. -/
theorem head?_rests_small (cs : List Char) :
    ((Pattern.seq (.optional (.one Char.isUpper)) (.repeated Char.isLower)).rests cs).head? =
      if capitals cs ≤ 1 ∧ 0 < smalls cs then some (cs.drop (capitals cs + smalls cs)) else none := by
  cases cs with
  | nil => rfl
  | cons c cs =>
    cases hc : c.isUpper with
    | false =>
      have hrest : (Pattern.optional (.one Char.isUpper)).rests (c :: cs) = [c :: cs] := by
        simp [Pattern.rests, hc]
      rw [Pattern.rests, hrest, List.flatMap_singleton, Pattern.rests, head?_afterRun,
        ← smalls_cons_of_neg hc, capitals_cons_of_neg hc, Nat.zero_add]
      by_cases hsmall : smalls (c :: cs) = 0
      · rw [if_pos hsmall, if_neg (by omega)]
      · rw [if_neg hsmall, if_pos (by omega)]
    | true =>
      have hrest : (Pattern.optional (.one Char.isUpper)).rests (c :: cs) = [cs, c :: cs] := by
        simp [Pattern.rests, hc]
      -- Without the capital nothing matches, since the capital is no small letter.
      have hlost : (Pattern.repeated Char.isLower).rests (c :: cs) = [] := by
        simp [Pattern.rests, afterRun, isLower_of_isUpper hc]
      rw [Pattern.rests, hrest, List.flatMap_cons, List.flatMap_singleton, hlost, List.append_nil,
        Pattern.rests, head?_afterRun, capitals_cons_of_pos hc, smalls_cons_of_pos hc]
      by_cases hcapitals : capitals cs = 0
      · rw [← smalls_of_capitals hcapitals, hcapitals, Nat.zero_add, Nat.add_comm, List.drop_succ_cons]
        by_cases hsmall : smalls cs = 0
        · rw [if_pos hsmall, if_neg (by omega)]
        · rw [if_neg hsmall, if_pos (by omega)]
      · rw [takeWhile_isLower_of_capitals hcapitals, List.length_nil, if_pos rfl, if_neg (by omega)]

theorem wordLength_eq (cs : List Char) : wordLength cs =
    if capitals cs = 0 then if smalls cs = 0 then (cs.takeWhile Char.isDigit).length else smalls cs
    else if smalls cs = 0 then capitals cs
    else if capitals cs = 1 then 1 + smalls cs else capitals cs - 1 := by
  unfold wordLength
  dsimp only
  rw [← capitals, ← smalls]
  simp only [beq_iff_eq]

/-- The first match of the pattern is the first word. -/
theorem head?_rests_wordPattern (cs : List Char) : (wordPattern.rests cs).head? =
    if wordLength cs = 0 then none else some (cs.drop (wordLength cs)) := by
  have hrests : wordPattern.rests cs =
      (Pattern.seq (.repeated Char.isUpper)
        (.ahead (.seq (.one Char.isUpper) (.one Char.isLower)))).rests cs ++
      ((Pattern.seq (.optional (.one Char.isUpper)) (.repeated Char.isLower)).rests cs ++
        (afterRun Char.isUpper cs ++ afterRun Char.isDigit cs)) := rfl
  rw [hrests, List.head?_append, List.head?_append, List.head?_append, rests_capitals_ahead,
    head?_rests_small, head?_afterRun, head?_afterRun, ← capitals, wordLength_eq]
  obtain hsmall | hsmall := Nat.eq_zero_or_pos (smalls cs)
  · obtain hnone | hsome := Nat.eq_zero_or_pos (capitals cs)
    · simp [hsmall, hnone]
    · simp [hsmall, Nat.ne_of_gt hsome]
  · obtain hnone | hone | htwo : capitals cs = 0 ∨ capitals cs = 1 ∨ 2 ≤ capitals cs := by omega
    · simp [hsmall, hnone, Nat.ne_of_gt hsmall]
    · simp [hsmall, hone, Nat.ne_of_gt hsmall]
    · have hlength : capitals cs - 1 ≠ 0 := by omega
      simp [hsmall, htwo, Nat.ne_of_gt hsmall, show capitals cs ≠ 0 by omega, show capitals cs ≠ 1 by omega,
        hlength]

/-- The words of a text are the matches of the pattern in it. -/
theorem wordsOf_eq_occurrences (cs : List Char) : wordsOf cs = wordPattern.occurrences cs := by
  induction cs using wordsOf.induct with
  | case1 => rw [wordsOf, Pattern.occurrences]
  | case2 c rest hlen ih =>
    rw [wordsOf, hlen, Pattern.occurrences, head?_rests_wordPattern, hlen]
    exact ih
  | case3 c rest n hlen ih =>
    have hword : (c :: rest).take (rest.length + 1 - (rest.drop n).length) = c :: rest.take n := by
      rw [List.length_drop, show rest.length + 1 - (rest.length - n) = min n rest.length + 1 by omega,
        List.take_succ_cons]
      exact congrArg (c :: ·) (List.take_eq_take_iff.2 (by omega))
    rw [wordsOf, hlen, Pattern.occurrences, head?_rests_wordPattern, hlen, if_neg (Nat.succ_ne_zero n)]
    dsimp only
    rw [List.drop_succ_cons, if_pos (by simp), hword, ih]

/-! ## Forms of words -/

/-- A number, capitals, or small letters with at most one capital before them. -/
inductive WordForm : List Char → Prop
  | number {w : List Char} (hne : w ≠ []) (hw : ∀ c ∈ w, c.isDigit = true) : WordForm w
  | capitals {w : List Char} (hne : w ≠ []) (hw : ∀ c ∈ w, c.isUpper = true) : WordForm w
  | small {head tail : List Char} (hone : head.length ≤ 1) (hhead : ∀ c ∈ head, c.isUpper = true)
      (hne : tail ≠ []) (htail : ∀ c ∈ tail, c.isLower = true) : WordForm (head ++ tail)

theorem WordForm.ne_nil {w : List Char} (h : WordForm w) : w ≠ [] := by
  cases h with
  | number hne | capitals hne => exact hne
  | small _ _ hne => exact List.append_ne_nil_of_right_ne_nil _ hne

/-- A run leaves what comes after some characters of the class. -/
theorem mem_afterRun {p : Char → Bool} {cs rest : List Char} (h : rest ∈ afterRun p cs) :
    ∃ w, cs = w ++ rest ∧ w ≠ [] ∧ ∀ c ∈ w, p c = true := by
  induction cs with
  | nil => cases h
  | cons c cs ih =>
    rw [afterRun] at h
    split at h
    · rename_i hc
      rcases List.mem_append.1 h with h | h
      · obtain ⟨w, rfl, -, hw⟩ := ih h
        exact ⟨c :: w, rfl, List.cons_ne_nil _ _, List.forall_mem_cons.2 ⟨hc, hw⟩⟩
      · obtain rfl := List.mem_singleton.1 h
        exact ⟨[c], rfl, List.cons_ne_nil _ _, List.forall_mem_singleton.2 hc⟩
    · cases h

theorem mem_rests_either {a b : Pattern} {cs rest : List Char} :
    rest ∈ (Pattern.either a b).rests cs ↔ rest ∈ a.rests cs ∨ rest ∈ b.rests cs :=
  List.mem_append

theorem mem_rests_seq {a b : Pattern} {cs rest : List Char} :
    rest ∈ (Pattern.seq a b).rests cs ↔ ∃ r ∈ a.rests cs, rest ∈ b.rests r :=
  List.mem_flatMap

theorem eq_of_mem_rests_ahead {a : Pattern} {cs rest : List Char} (h : rest ∈ (Pattern.ahead a).rests cs) :
    rest = cs := by
  rw [Pattern.rests] at h
  split at h
  · cases h
  · exact List.mem_singleton.1 h

/-- Whatever the pattern of a word matches has the form of one. -/
theorem wordForm_of_rests {cs rest : List Char} (h : rest ∈ wordPattern.rests cs) :
    ∃ w, cs = w ++ rest ∧ WordForm w := by
  simp only [wordPattern, mem_rests_either, mem_rests_seq] at h
  rcases h with ⟨r, hr, hrest⟩ | ⟨r, hr, hrest⟩ | h | h
  · obtain rfl := eq_of_mem_rests_ahead hrest
    obtain ⟨w, rfl, hne, hw⟩ := mem_afterRun hr
    exact ⟨w, rfl, .capitals hne hw⟩
  · rcases List.mem_append.1 hr with hr | hr
    · obtain ⟨w, rfl, hne, hw⟩ := mem_afterRun hrest
      cases cs with
      | nil => cases hr
      | cons c cs =>
        rw [Pattern.rests] at hr
        split at hr
        · rename_i hc
          obtain rfl := List.mem_singleton.1 hr
          exact ⟨[c] ++ w, rfl, .small (Nat.le_refl _) (List.forall_mem_singleton.2 hc) hne hw⟩
        · cases hr
    · obtain ⟨w, rfl, hne, hw⟩ := mem_afterRun hrest
      obtain rfl := List.mem_singleton.1 hr
      exact ⟨[] ++ w, rfl, .small (Nat.zero_le _) nofun hne hw⟩
  · obtain ⟨w, rfl, hne, hw⟩ := mem_afterRun h
    exact ⟨w, rfl, .capitals hne hw⟩
  · obtain ⟨w, rfl, hne, hw⟩ := mem_afterRun h
    exact ⟨w, rfl, .number hne hw⟩

/-- Every word has the form of one. -/
theorem wordForm_of_mem_wordsOf (cs : List Char) : ∀ w ∈ wordsOf cs, WordForm w := by
  induction cs using wordsOf.induct with
  | case1 =>
    rw [wordsOf]
    exact List.forall_mem_nil _
  | case2 c rest hlen ih =>
    rw [wordsOf, hlen]
    exact ih
  | case3 c rest n hlen ih =>
    rw [wordsOf, hlen]
    refine List.forall_mem_cons.2 ⟨?_, ih⟩
    have hfirst := head?_rests_wordPattern (c :: rest)
    rw [hlen, if_neg (Nat.succ_ne_zero n)] at hfirst
    obtain ⟨w, hw, hform⟩ := wordForm_of_rests (List.mem_of_head? hfirst)
    have htake : c :: rest.take n = w :=
      List.append_cancel_right ((List.take_append_drop (n + 1) (c :: rest)).trans hw)
    exact htake ▸ hform

/-! ## Gaps -/

/-- A text is made of its words, with gaps of other characters around them. -/
theorem exists_gaps (cs : List Char) : ∃ (gaps : List (List Char)) (last : List Char),
    gaps.length = (wordsOf cs).length ∧ cs = (List.zipWith (· ++ ·) gaps (wordsOf cs)).flatten ++ last ∧
      ∀ g ∈ last :: gaps, ∀ c ∈ g, isWordChar c = false := by
  induction cs using wordsOf.induct with
  | case1 =>
    rw [wordsOf]
    exact ⟨[], [], rfl, rfl, List.forall_mem_singleton.2 (List.forall_mem_nil _)⟩
  | case2 c rest hlen ih =>
    obtain ⟨gaps, last, hlength, hrest, hgaps⟩ := ih
    obtain ⟨hlast, hgaps⟩ := List.forall_mem_cons.1 hgaps
    have hc := isWordChar_of_wordLength hlen
    rw [wordsOf, hlen]
    dsimp only
    -- The character belongs to the first gap, which is the last one if there are no words.
    cases gaps with
    | nil =>
      refine ⟨[], c :: last, hlength, ?_, List.forall_mem_singleton.2 (List.forall_mem_cons.2 ⟨hc, hlast⟩)⟩
      exact congrArg (c :: ·) hrest
    | cons g gaps =>
      cases hwords : wordsOf rest with
      | nil => rw [hwords] at hlength; cases hlength
      | cons w ws =>
        rw [hwords] at hlength hrest
        obtain ⟨hg, hgaps⟩ := List.forall_mem_cons.1 hgaps
        refine ⟨(c :: g) :: gaps, last, hlength, congrArg (c :: ·) hrest, ?_⟩
        exact List.forall_mem_cons.2 ⟨hlast, List.forall_mem_cons.2 ⟨List.forall_mem_cons.2 ⟨hc, hg⟩, hgaps⟩⟩
  | case3 c rest n hlen ih =>
    obtain ⟨gaps, last, hlength, hrest, hgaps⟩ := ih
    obtain ⟨hlast, hgaps⟩ := List.forall_mem_cons.1 hgaps
    rw [wordsOf, hlen]
    refine ⟨[] :: gaps, last, congrArg (· + 1) hlength, ?_,
      List.forall_mem_cons.2 ⟨hlast, List.forall_mem_cons.2 ⟨List.forall_mem_nil _, hgaps⟩⟩⟩
    rw [List.zipWith_cons_cons, List.flatten_cons, List.nil_append, List.append_assoc, ← hrest,
      List.cons_append, List.take_append_drop]

/-- Splitting a text loses none of its letters and digits and changes neither them nor their order: the words
are what the pattern finds, each has the form of a word, and between two of them, before and after them, stand
only other characters, which no word holds. -/
theorem words_lossless (text : String) :
    words text = (wordPattern.occurrences text.toList).map String.ofList ∧
    (∀ w ∈ words text, w ≠ "" ∧ WordForm w.toList) ∧
    (String.join (words text)).toList = text.toList.filter isWordChar ∧
    ∃ (gaps : List (List Char)) (last : List Char), gaps.length = (words text).length ∧
      text.toList = (List.zipWith (fun g w => g ++ w.toList) gaps (words text)).flatten ++ last ∧
      ∀ g ∈ last :: gaps, ∀ c ∈ g, isWordChar c = false := by
  refine ⟨by rw [words, wordsOf_eq_occurrences], List.forall_mem_map.2 fun w hw => ?_, ?_, ?_⟩
  · have hform := wordForm_of_mem_wordsOf _ w hw
    rw [String.toList_ofList]
    exact ⟨fun hempty => hform.ne_nil (by rw [← String.toList_ofList (l := w), hempty]; rfl), hform⟩
  · rw [String.toList_join, words, List.flatMap_map, ← flatten_wordsOf, List.flatten_eq_flatMap]
    exact List.flatMap_congr fun w _ => String.toList_ofList
  · obtain ⟨gaps, last, hlength, htext, hgaps⟩ := exists_gaps text.toList
    refine ⟨gaps, last, by rw [words, List.length_map, hlength], ?_, hgaps⟩
    rw [words, List.zipWith_map_right]
    simpa only [String.toList_ofList] using htext

/-- A text with capitals before a capital that opens a word, with numbers, and with other characters. -/
def sampleMixed : String := "HTTPStatus-A1bÉ"

theorem words_sampleMixed :
    words sampleMixed = ["HTTP", "Status", "A", "1", "b"] ∧
    ("Status" ∈ words sampleMixed ∧ WordForm "Status".toList) ∧
    (String.join (words sampleMixed)).toList = sampleMixed.toList.filter isWordChar ∧
    ∃ gaps last, sampleMixed.toList =
      (List.zipWith (fun g w => g ++ w.toList) gaps ["HTTP", "Status", "A", "1", "b"]).flatten ++ last ∧
        ∀ c ∈ last, isWordChar c = false := by
  have hwords : words sampleMixed = ["HTTP", "Status", "A", "1", "b"] := by decide +kernel
  have hmem : "Status" ∈ words sampleMixed := by
    rw [hwords]
    decide
  obtain ⟨-, hform, hjoin, gaps, last, -, htext, hgaps⟩ := words_lossless sampleMixed
  rw [hwords] at htext
  exact ⟨hwords, ⟨hmem, (hform _ hmem).2⟩, hjoin, gaps, last, htext, hgaps last List.mem_cons_self⟩

end ApiContract.Text
