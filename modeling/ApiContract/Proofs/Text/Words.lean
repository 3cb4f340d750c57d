import ApiContract.Proofs.Lists
import ApiContract.Proofs.Text.Spelling

/-!
# Words in names of types

A name of a type runs the words of a text together, each with a capital. The capitals tell where a word of
letters starts, and digits where a number does, but nothing stands between two numbers. So a name shows
the words of a text up to their case and to numbers in succession, which it shows as one
(`typeIdentifier_eq_iff`); where a text is `Legible`, it shows the words as they are
(`shownWords_of_legible`).

Variable names put an underscore between any two words, so that they may differ where names of types do not.
-/

namespace ApiContract.Text

/-- The words of a text in lower case. -/
def plainWords (text : String) : List (List Char) :=
  (wordsOf text.toList).map fun w => w.map Char.toLower

/-- Whether a word is a number. -/
def isNumber (w : List Char) : Bool := w.all Char.isDigit

/-- Puts a word before others; of two numbers it makes one. -/
def joinWord (w : List Char) : List (List Char) → List (List Char)
  | [] => [w]
  | v :: ws => if isNumber w && isNumber v then (w ++ v) :: ws else w :: v :: ws

/-- Numbers in succession become one. -/
def joinNumbers (ws : List (List Char)) : List (List Char) := ws.foldr joinWord []

/-- Words that a name of a type can have: one of letters comes first. -/
def withLetters (ws : List (List Char)) : List (List Char) :=
  if ws.head?.all isNumber then "model".toList :: ws else ws

/-- The words that the type name of a text shows. -/
def shownWords (text : String) : List (List Char) := withLetters (joinNumbers (plainWords text))

/-- A text has a word, of letters comes the first, and no number follows another. -/
def Legible (text : String) : Prop :=
  (plainWords text).head?.any (fun w => !isNumber w) = true ∧
    (plainWords text).IsChain fun v w => isNumber v = true → isNumber w = false

/-! ## Words that are set off from each other -/

/-- Words in lower case, of which no two in succession are numbers. -/
inductive SetOff : List (List Char) → Prop
  | nil : SetOff []
  | letters {w : List Char} {ws : List (List Char)} (hne : w ≠ []) (hw : ∀ c ∈ w, c.isLower = true)
      (hws : SetOff ws) : SetOff (w :: ws)
  | number {w : List Char} {ws : List (List Char)} (hne : w ≠ []) (hw : ∀ c ∈ w, c.isDigit = true)
      (hnext : ∀ v ∈ ws.head?, isNumber v = false) (hws : SetOff ws) : SetOff (w :: ws)

theorem isLower_of_isDigit {c : Char} (h : c.isDigit = true) : c.isLower = false := by
  rw [isDigit_iff] at h
  rw [Bool.eq_false_iff, ne_eq, isLower_iff]
  omega

theorem isDigit_of_isUpper {c : Char} (h : c.isUpper = true) : c.isDigit = false := by
  rw [isUpper_iff] at h
  rw [Bool.eq_false_iff, ne_eq, isDigit_iff]
  omega

theorem isLower_of_isUpper {c : Char} (h : c.isUpper = true) : c.isLower = false := by
  rw [isUpper_iff] at h
  rw [Bool.eq_false_iff, ne_eq, isLower_iff]
  omega

theorem isUpper_of_isSmall {c : Char} (h : isSmall c = true) : c.isUpper = false := by
  rw [isSmall, Bool.or_eq_true, isLower_iff, isDigit_iff] at h
  rw [Bool.eq_false_iff, ne_eq, isUpper_iff]
  omega

theorem isNumber_of_letters {w : List Char} (hne : w ≠ []) (hw : ∀ c ∈ w, c.isLower = true) :
    isNumber w = false := by
  obtain ⟨c, cs, rfl⟩ := List.exists_cons_of_ne_nil hne
  cases hdigit : c.isDigit with
  | false => rw [isNumber, List.all_cons, hdigit, Bool.false_and]
  | true => cases (isLower_of_isDigit hdigit).symm.trans (hw c List.mem_cons_self)

theorem isNumber_of_digits {w : List Char} (hw : ∀ c ∈ w, c.isDigit = true) : isNumber w = true :=
  List.all_eq_true.2 hw

/-- A word before words that are set off, joined to them where need be, is set off. -/
theorem SetOff.joinWord {w : List Char} {ws : List (List Char)} (hne : w ≠ [])
    (hw : (∀ c ∈ w, c.isDigit = true) ∨ ∀ c ∈ w, c.isLower = true) (h : SetOff ws) :
    SetOff (joinWord w ws) := by
  obtain hdigits | hletters := hw
  · cases h with
    | nil => exact .number hne hdigits (fun v hv => nomatch hv) .nil
    | @letters v vs hne' hv hvs =>
      have hnot := isNumber_of_letters hne' hv
      rw [Text.joinWord, hnot, Bool.and_false, if_neg Bool.false_ne_true]
      refine .number hne hdigits (fun u hu => ?_) (.letters hne' hv hvs)
      cases hu
      exact hnot
    | @number v vs hne' hv hnext hvs =>
      rw [Text.joinWord, isNumber_of_digits hdigits, isNumber_of_digits hv, Bool.and_self, if_pos rfl]
      refine .number (List.append_ne_nil_of_left_ne_nil hne _) (fun c hc => ?_) hnext hvs
      exact (List.mem_append.1 hc).elim (hdigits c) (hv c)
  · have hjoin : Text.joinWord w ws = w :: ws := by
      cases ws with
      | nil => rfl
      | cons v vs =>
        rw [Text.joinWord, isNumber_of_letters hne hletters, Bool.false_and, if_neg Bool.false_ne_true]
    rw [hjoin]
    exact .letters hne hletters h

theorem mem_plainWords {text : String} {w : List Char} (hw : w ∈ plainWords text) :
    w ≠ [] ∧ ((∀ c ∈ w, c.isDigit = true) ∨ ∀ c ∈ w, c.isLower = true) := by
  obtain ⟨v, hv, rfl⟩ := List.mem_map.1 hw
  obtain ⟨hne, hkind⟩ := kind_of_mem_wordsOf _ v hv
  refine ⟨by simpa using hne, hkind.imp (fun hdigits => ?_) fun hletters => ?_⟩
  · exact List.forall_mem_map.2 fun c hc => by rw [isDigit_toLower, hdigits c hc]
  · refine List.forall_mem_map.2 fun c hc => ?_
    have hsmall := isSmall_toLower (isWordChar_of_kind (.inr hletters) c hc)
    have hdigit : c.isDigit = false := by
      have halpha := hletters c hc
      rw [isAlpha_eq, Bool.or_eq_true, isUpper_iff, isLower_iff] at halpha
      rw [Bool.eq_false_iff, ne_eq, isDigit_iff]
      omega
    rwa [isSmall, isDigit_toLower, hdigit, Bool.or_false] at hsmall

theorem setOff_joinNumbers (text : String) : SetOff (joinNumbers (plainWords text)) := by
  have h : ∀ w ∈ plainWords text, _ := fun w => mem_plainWords
  unfold joinNumbers
  generalize plainWords text = ws at h
  induction ws with
  | nil => exact .nil
  | cons w ws ih =>
    obtain ⟨⟨hne, hkind⟩, hws⟩ := List.forall_mem_cons.1 h
    exact (ih hws).joinWord hne hkind

theorem setOff_shownWords (text : String) : SetOff (shownWords text) := by
  unfold shownWords withLetters
  split
  · exact .letters (by decide) (List.all_eq_true.1 (by decide)) (setOff_joinNumbers text)
  · exact setOff_joinNumbers text

/-! ## Words run together -/

theorem toLower_toLower (c : Char) (h : isWordChar c = true) : c.toLower.toLower = c.toLower :=
  toLower_of_not_isUpper (isUpper_of_isSmall (isSmall_toLower h))

theorem toUpper_toLower (c : Char) : c.toLower.toUpper = c.toUpper := by
  cases hupper : c.isUpper with
  | false => rw [toLower_of_not_isUpper hupper]
  | true =>
    have hrange := isUpper_iff.1 hupper
    have hlower : c.toLower.isLower = true := by
      rw [isLower_iff, toNat_toLower hupper]
      omega
    refine Char.toNat_inj.1 ?_
    rw [toNat_toUpper hlower, toNat_toLower hupper, toUpper_of_not_isLower (isLower_of_isUpper hupper)]
    omega

theorem capitalized_map_toLower {w : List Char} (hw : ∀ c ∈ w, isWordChar c = true) :
    capitalized (w.map Char.toLower) = capitalized w := by
  cases w with
  | nil => rfl
  | cons c cs =>
    rw [List.map_cons, capitalized, capitalized, toUpper_toLower, List.map_map]
    refine congrArg _ (List.map_congr_left fun d hd => ?_)
    exact toLower_toLower d (hw d (List.mem_cons_of_mem _ hd))

theorem capitalized_digits {w : List Char} (hw : ∀ c ∈ w, c.isDigit = true) : capitalized w = w := by
  have hlower : ∀ c ∈ w, c.toLower = c := fun c hc =>
    toLower_of_not_isUpper (isUpper_of_isSmall (by rw [isSmall, hw c hc, Bool.or_true]))
  cases w with
  | nil => rfl
  | cons c cs =>
    obtain ⟨hc, -⟩ := List.forall_mem_cons.1 hw
    rw [capitalized, toUpper_of_not_isLower (isLower_of_isDigit hc)]
    refine congrArg _ ((List.map_congr_left fun d hd => ?_).trans (List.map_id cs))
    exact hlower d (List.mem_cons_of_mem _ hd)

/-- A word of letters starts with a capital, and small letters follow. -/
theorem capitalized_letters {w : List Char} (hne : w ≠ []) (hw : ∀ c ∈ w, c.isLower = true) :
    ∃ c cs, w = c :: cs ∧ capitalized w = c.toUpper :: cs ∧ c.toUpper.isUpper = true := by
  obtain ⟨c, cs, rfl⟩ := List.exists_cons_of_ne_nil hne
  obtain ⟨hc, hcs⟩ := List.forall_mem_cons.1 hw
  have hrange := isLower_iff.1 hc
  refine ⟨c, cs, rfl, ?_, ?_⟩
  · refine congrArg _ ((List.map_congr_left fun d hd => ?_).trans (List.map_id cs))
    exact toLower_of_not_isUpper (isUpper_of_isSmall (by rw [isSmall, hcs d hd, Bool.true_or]))
  · rw [isUpper_iff, toNat_toUpper hc]
    omega

theorem flatMap_joinWord (w : List Char) (ws : List (List Char)) :
    (joinWord w ws).flatMap capitalized = capitalized w ++ ws.flatMap capitalized := by
  cases ws with
  | nil => rfl
  | cons v vs =>
    rw [joinWord]
    split
    · rename_i hnumbers
      obtain ⟨hw, hv⟩ := Bool.and_eq_true_iff.1 hnumbers
      have hw := List.all_eq_true.1 hw
      have hv := List.all_eq_true.1 hv
      have hboth : ∀ c ∈ w ++ v, c.isDigit = true := fun c hc =>
        (List.mem_append.1 hc).elim (hw c) (hv c)
      rw [List.flatMap_cons, List.flatMap_cons, capitalized_digits hboth, capitalized_digits hw,
        capitalized_digits hv, List.append_assoc]
    · rfl

theorem flatMap_joinNumbers (ws : List (List Char)) :
    (joinNumbers ws).flatMap capitalized = ws.flatMap capitalized := by
  induction ws with
  | nil => rfl
  | cons w ws ih =>
    rw [joinNumbers, List.foldr_cons, flatMap_joinWord, List.flatMap_cons, ← ih]
    rfl

theorem toList_pascal (text : String) :
    (pascal text).toList = (joinNumbers (plainWords text)).flatMap capitalized := by
  rw [pascal, String.toList_ofList, flatMap_joinNumbers, plainWords, List.flatMap_map]
  refine List.flatMap_congr fun w hw => ?_
  exact (capitalized_map_toLower (mem_wordsOf _ w hw).2).symm

/-- What words run together start with tells whether the first is a number. -/
theorem SetOff.head {ws : List (List Char)} (h : SetOff ws) {c : Char}
    (hc : (ws.flatMap capitalized).head? = some c) :
    (c.isDigit = true ∧ ws.head?.all isNumber = true) ∨
      (c.isUpper = true ∧ ws.head?.all isNumber = false) := by
  cases h with
  | nil => cases hc
  | letters hne hw hws =>
    obtain ⟨d, ds, -, hcap, hd⟩ := capitalized_letters hne hw
    rw [List.flatMap_cons, hcap] at hc
    cases hc
    exact .inr ⟨hd, isNumber_of_letters hne hw⟩
  | @number w ws hne hw hnext hws =>
    obtain ⟨d, ds, rfl⟩ := List.exists_cons_of_ne_nil hne
    rw [List.flatMap_cons, capitalized_digits hw] at hc
    cases hc
    exact .inl ⟨hw _ List.mem_cons_self, isNumber_of_digits hw⟩

theorem SetOff.eq_nil {ws : List (List Char)} (h : SetOff ws) (hnil : ws.flatMap capitalized = []) :
    ws = [] := by
  have hall := List.flatMap_eq_nil_iff.1 hnil
  cases h with
  | nil => rfl
  | letters hne hw hws =>
    obtain ⟨c, cs, -, hcap, -⟩ := capitalized_letters hne hw
    cases hcap.symm.trans (hall _ List.mem_cons_self)
  | number hne hw hnext hws =>
    exact absurd ((capitalized_digits hw).symm.trans (hall _ List.mem_cons_self)) hne

/-- A type name is the words that it shows, each with a capital. -/
theorem toList_typeIdentifier (text : String) :
    (typeIdentifier text).toList = (shownWords text).flatMap capitalized := by
  have hset := setOff_joinNumbers text
  have hpascal := toList_pascal text
  unfold typeIdentifier shownWords withLetters orElseText
  generalize joinNumbers (plainWords text) = ws at hset hpascal ⊢
  dsimp only
  cases hchars : (pascal text).toList with
  | nil =>
    have hempty : pascal text = "" := String.toList_eq_nil_iff.1 hchars
    rw [hset.eq_nil (hpascal.symm.trans hchars), hempty]
    decide
  | cons c cs =>
    have hnonempty : (pascal text).isEmpty = false := by
      rw [Bool.eq_false_iff, ne_eq, String.isEmpty_iff, ← String.toList_eq_nil_iff, hchars]
      exact List.cons_ne_nil _ _
    have hhead : (ws.flatMap capitalized).head? = some c := by rw [← hpascal, hchars, List.head?_cons]
    rw [hnonempty, if_neg Bool.false_ne_true, startsWithDigit_cons hchars]
    obtain ⟨hdigit, hnumber⟩ | ⟨hupper, hletters⟩ := hset.head hhead
    · rw [hdigit, if_pos rfl, if_pos hnumber, String.toList_append, hpascal, List.flatMap_cons]
      rfl
    · rw [isDigit_of_isUpper hupper, if_neg Bool.false_ne_true, hletters, if_neg Bool.false_ne_true,
        hpascal]

theorem SetOff.not_lower {ws : List (List Char)} (h : SetOff ws) :
    ∀ c ∈ (ws.flatMap capitalized).head?, c.isLower = false := by
  intro c hc
  obtain ⟨hdigit, -⟩ | ⟨hupper, -⟩ := h.head hc
  · exact isLower_of_isDigit hdigit
  · exact isLower_of_isUpper hupper

theorem SetOff.not_digit {ws : List (List Char)} (h : SetOff ws)
    (hnext : ∀ v ∈ ws.head?, isNumber v = false) :
    ∀ c ∈ (ws.flatMap capitalized).head?, c.isDigit = false := by
  intro c hc
  cases ws with
  | nil => cases hc
  | cons v vs =>
    obtain ⟨-, hnumber⟩ | ⟨hupper, -⟩ := h.head hc
    · cases (hnext v rfl).symm.trans hnumber
    · exact isDigit_of_isUpper hupper

theorem letters_ne_number {w v r s : List Char} (hne : w ≠ []) (hw : ∀ c ∈ w, c.isLower = true)
    (hne' : v ≠ []) (hv : ∀ c ∈ v, c.isDigit = true) : capitalized w ++ r ≠ capitalized v ++ s := by
  obtain ⟨c, cs, -, hcap, hc⟩ := capitalized_letters hne hw
  obtain ⟨d, ds, rfl⟩ := List.exists_cons_of_ne_nil hne'
  rw [hcap, capitalized_digits hv]
  intro h
  obtain ⟨hhead, -⟩ := List.cons.inj h
  rw [hhead] at hc
  cases (isDigit_of_isUpper hc).symm.trans (hv d List.mem_cons_self)

/-- A small letter is known by its capital. -/
theorem toUpper_inj {c d : Char} (hc : c.isLower = true) (hd : d.isLower = true)
    (h : c.toUpper = d.toUpper) : c = d := by
  have hsmall : ∀ e : Char, e.isLower = true → e.toUpper.toLower = e := fun e he => by
    rw [toLower_toUpper, toLower_of_not_isUpper (isUpper_of_isSmall (by rw [isSmall, he, Bool.true_or]))]
  rw [← hsmall c hc, ← hsmall d hd, h]

/-- Words that are set off from each other can be told from what they run together to. -/
theorem SetOff.eq_of_flatMap {ws vs : List (List Char)} (h : SetOff ws) (h' : SetOff vs)
    (heq : ws.flatMap capitalized = vs.flatMap capitalized) : ws = vs := by
  induction h generalizing vs with
  | nil => exact (h'.eq_nil heq.symm).symm
  | @letters w ws hne hw hws ih =>
    cases h' with
    | nil => exact (SetOff.letters hne hw hws).eq_nil heq
    | @letters v vs hne' hv hvs =>
      obtain ⟨c, cs, rfl, hcap, -⟩ := capitalized_letters hne hw
      obtain ⟨d, ds, rfl, hcap', -⟩ := capitalized_letters hne' hv
      obtain ⟨hc, hcs⟩ := List.forall_mem_cons.1 hw
      obtain ⟨hd, hds⟩ := List.forall_mem_cons.1 hv
      rw [List.flatMap_cons, List.flatMap_cons, hcap, hcap'] at heq
      obtain ⟨hhead, htail⟩ := List.cons.inj heq
      obtain ⟨rfl, hrest⟩ := append_inj_of_forall hcs hds hws.not_lower hvs.not_lower htail
      rw [toUpper_inj hc hd hhead, ih hvs hrest]
    | number hne' hv hnext hvs => exact absurd heq (letters_ne_number hne hw hne' hv)
  | @number w ws hne hw hnext hws ih =>
    cases h' with
    | nil => exact (SetOff.number hne hw hnext hws).eq_nil heq
    | letters hne' hv hvs => exact absurd heq.symm (letters_ne_number hne' hv hne hw)
    | @number v vs hne' hv hnext' hvs =>
      rw [List.flatMap_cons, List.flatMap_cons, capitalized_digits hw, capitalized_digits hv] at heq
      obtain ⟨rfl, hrest⟩ := append_inj_of_forall hw hv (hws.not_digit hnext) (hvs.not_digit hnext') heq
      rw [ih hvs hrest]

/-- Texts have one type name if and only if it shows the same words of them. -/
theorem typeIdentifier_eq_iff {a b : String} :
    typeIdentifier a = typeIdentifier b ↔ shownWords a = shownWords b := by
  rw [← String.toList_inj, toList_typeIdentifier, toList_typeIdentifier]
  exact ⟨(setOff_shownWords a).eq_of_flatMap (setOff_shownWords b), fun h => by rw [h]⟩

/-! ## Legible texts -/

theorem joinNumbers_of_isChain {ws : List (List Char)}
    (h : ws.IsChain fun v w => isNumber v = true → isNumber w = false) : joinNumbers ws = ws := by
  induction ws with
  | nil => rfl
  | cons w ws ih =>
    cases ws with
    | nil => rfl
    | cons v ws =>
      obtain ⟨hnext, hchain⟩ := List.isChain_cons_cons.1 h
      have hnot : (isNumber w && isNumber v) = false := by
        cases hw : isNumber w with
        | false => rfl
        | true => rw [hnext hw, Bool.and_false]
      rw [joinNumbers, List.foldr_cons, ← joinNumbers, ih hchain, joinWord, hnot,
        if_neg Bool.false_ne_true]

/-- The type name of a legible text shows its words as they are. -/
theorem shownWords_of_legible {text : String} (h : Legible text) : shownWords text = plainWords text := by
  obtain ⟨hfirst, hchain⟩ := h
  rw [shownWords, joinNumbers_of_isChain hchain, withLetters]
  cases hwords : plainWords text with
  | nil => rw [hwords] at hfirst; cases hfirst
  | cons w ws =>
    rw [hwords, List.head?_cons, Option.any_some, Bool.not_eq_true'] at hfirst
    rw [List.head?_cons, Option.all_some, hfirst, if_neg Bool.false_ne_true]

/-- A variable name depends on the words alone. -/
theorem identifier_congr {a b : String} (h : plainWords a = plainWords b) (reserved : List String) :
    identifier a reserved = identifier b reserved := by
  have hsnake : snake a = snake b := by
    have hwords : ∀ text, snake text = "_".intercalate ((plainWords text).map String.ofList) :=
      fun text => by rw [snake, plainWords, List.map_map]; rfl
    rw [hwords, hwords, h]
  rw [identifier, identifier, hsnake]

/-- Legible texts with one type name have one variable name. -/
theorem identifier_eq_of_typeIdentifier {a b : String} (ha : Legible a) (hb : Legible b)
    (h : typeIdentifier a = typeIdentifier b) (reserved : List String) :
    identifier a reserved = identifier b reserved := by
  refine identifier_congr ?_ reserved
  rw [← shownWords_of_legible ha, ← shownWords_of_legible hb, typeIdentifier_eq_iff.1 h]

end ApiContract.Text
