import ApiContract.Plan.Request
import ApiContract.Proofs.Text.Words
import ApiContract.TypeModel.Literal

/-!
# Legal names

The names of fields, arguments and enumeration members are legal in the target language (`IsLegal`), all
different, and none is one that is to be avoided (`LegalNames`), whatever texts they are made from. Keywords
and avoided names all end with a letter. So a name that is legal and avoids them stays so when an underscore or a
number is put at its end (`IsWord.legal_append`, `append_notMem`), and making names differ does no more than that
(`legalNames_uniqueNames`).

The names of types and of the variants of a union are words, but nothing keeps them off the keywords that start
with a capital: just the texts of which `none`, `true` or `false` is the only word have a type name that is no
legal one (`isLegal_typeIdentifier_iff`, `legal_variantNames_iff`).
-/

namespace ApiContract.Text

/-- A text that starts with a letter and goes on with letters, digits and underscores, all of ASCII. -/
def IsWord (text : String) : Prop :=
  ∃ c cs, text.toList = c :: cs ∧ c.isAlpha = true ∧ ∀ d ∈ cs, d.isAlphanum = true ∨ d = '_'

/-- A legal name is such a word and no keyword. -/
structure IsLegal (name : String) : Prop where
  word : IsWord name
  notKeyword : name ∉ keywords

theorem isAlphanum_of_isWordChar {c : Char} (h : isWordChar c = true) : c.isAlphanum = true := h

theorem isWord_of_chars {text : String} (hhead : text.toList.head?.any Char.isAlpha = true)
    (hchars : ∀ c ∈ text.toList, isWordChar c = true) : IsWord text := by
  cases htext : text.toList with
  | nil => simp [htext] at hhead
  | cons c cs =>
    rw [htext] at hhead hchars
    exact ⟨c, cs, htext, hhead, fun d hd =>
      .inl (isAlphanum_of_isWordChar (hchars d (List.mem_cons_of_mem _ hd)))⟩

theorem IsWord.append {text tail : String} (h : IsWord text)
    (htail : ∀ d ∈ tail.toList, d.isAlphanum = true ∨ d = '_') : IsWord (text ++ tail) := by
  obtain ⟨c, cs, htext, hc, hcs⟩ := h
  refine ⟨c, cs ++ tail.toList, ?_, hc, List.forall_mem_append.2 ⟨hcs, htail⟩⟩
  rw [String.toList_append, htext, List.cons_append]

/-- What ends with no letter is no keyword. -/
theorem IsWord.legal_append {text tail : String} (h : IsWord text)
    (htail : ∀ d ∈ tail.toList, d.isAlphanum = true ∨ d = '_') {c : Char}
    (hlast : tail.toList.getLast? = some c) (hc : c.isAlpha = false) : IsLegal (text ++ tail) :=
  ⟨h.append htail, append_notMem (by decide) hlast hc⟩

theorem IsName.isLegal {name : String} (h : IsName name) : IsLegal name := by
  obtain ⟨c, cs, hname, hc⟩ := h.head
  refine ⟨⟨c, cs, hname, by rw [isAlpha_eq, hc, Bool.or_true], fun d hd => ?_⟩, fun hmem => ?_⟩
  · have hchar := h.chars d (hname ▸ List.mem_cons_of_mem _ hd)
    rw [isNameChar, isSmall, Bool.or_eq_true, beq_iff_eq] at hchar
    refine hchar.imp_left fun hsmall => isAlphanum_of_isWordChar ?_
    rw [isWordChar, Bool.or_assoc, hsmall, Bool.or_true]
  · exact Bool.false_ne_true (h.notKeyword.symm.trans (List.contains_iff_mem.2 hmem))

theorem IsLegal.number {name : String} (h : IsLegal name) (k : Nat) : IsLegal (name ++ toString k) := by
  obtain ⟨hdigits, c, hlast, hc⟩ := digits_toString k
  refine h.word.legal_append (fun d hd => .inl ?_) hlast hc
  rw [Char.isAlphanum, hdigits d hd, Bool.or_true]

/-! ## Lists of names -/

/-- Names that are legal and all different, and none of which is to be avoided. -/
structure LegalNames (avoided names : List String) : Prop where
  legal : ∀ n ∈ names, IsLegal n
  nodup : names.Nodup
  free : ∀ n ∈ names, n ∉ avoided

/-- Making names differ keeps them legal, and off words that end with letters. -/
theorem legalNames_uniqueNames {avoided taken names : List String} (hwords : endInLetters avoided = true)
    (h : ∀ n ∈ names, IsLegal n ∧ n ∉ avoided) : LegalNames avoided (uniqueNames taken names) := by
  have hnumber : ∀ n (k : Nat), IsLegal n ∧ n ∉ avoided →
      IsLegal (n ++ toString k) ∧ n ++ toString k ∉ avoided := by
    intro n k hn
    obtain ⟨-, c, hlast, hc⟩ := digits_toString k
    exact ⟨hn.1.number k, append_notMem hwords hlast hc⟩
  have hall : ∀ n ∈ uniqueNames taken names, IsLegal n ∧ n ∉ avoided := forall_mem_uniqueNames hnumber h
  exact ⟨fun n hn => (hall n hn).1, (uniqueNames_free taken names).2, fun n hn => (hall n hn).2⟩

/-! ## Fields -/

/-- The names of fields with wire names. -/
def fieldNames (wireNames : List String) : List String :=
  uniqueNames [] (wireNames.map fieldIdentifier)

theorem fieldIdentifier_notMem (text : String) : fieldIdentifier text ∉ recordAttributes := by
  unfold fieldIdentifier
  dsimp only
  split
  · exact append_notMem (by decide) rfl rfl
  · exact identifier_notMem (by decide)

/-- Fields have legal names, and none that every record has, whatever their wire names are. -/
theorem legalNames_fields (wireNames : List String) :
    LegalNames recordAttributes (fieldNames wireNames) :=
  legalNames_uniqueNames (by decide) (List.forall_mem_map.2 fun text _ =>
    ⟨(isName_fieldIdentifier text).isLegal, fieldIdentifier_notMem text⟩)

/-! ## Arguments -/

/-- The names of the arguments of parameters. -/
def argumentNames (parameters : List String) : List String :=
  uniqueNames ParameterPlan.handlerArguments
    (parameters.map fun name => identifier name ParameterPlan.handlerArguments)

/-- Arguments have legal names, and none that every handler has, whatever the parameters are called. -/
theorem legalNames_arguments (parameters : List String) :
    LegalNames ParameterPlan.handlerArguments (argumentNames parameters) :=
  legalNames_uniqueNames (by decide) (List.forall_mem_map.2 fun name _ =>
    ⟨(isName_identifier name _).isLegal, identifier_notMem (by decide)⟩)

/-! ## Members -/

/-- What is put before a literal that starts with no letter. -/
theorem isWord_value {text : String} (htext : ∀ c ∈ text.toList, isWordChar c = true) (negative : Bool) :
    IsWord ("Value" ++ (if negative then "Minus" else "") ++ text) := by
  have hvalue : IsWord "Value" := isWord_of_chars rfl (List.all_eq_true.1 (by decide))
  have hminus : ∀ c ∈ (if negative then "Minus" else "").toList, isWordChar c = true := by
    cases negative with
    | false => exact nofun
    | true => exact List.all_eq_true.1 (by decide)
  exact (hvalue.append fun c hc => .inl (hminus c hc)).append fun c hc => .inl (htext c hc)

/-- Every literal has a legal name. -/
theorem isLegal_memberName (value : Tree) : IsLegal (Literal.memberName value) := by
  unfold Literal.memberName
  split
  · exact ⟨isWord_of_chars rfl (List.all_eq_true.1 (by decide)), by decide⟩
  · have hchars := pascal_chars (Literal.written value)
    dsimp only
    generalize hname : (if (Text.pascal _).toList.head?.any Char.isAlpha = true then _ else _ : String) = name
    have hword : IsWord name := by
      subst hname
      split
      · exact isWord_of_chars ‹_› hchars
      · exact isWord_value hchars _
    split
    · exact hword.legal_append (List.forall_mem_singleton.2 (.inr rfl)) rfl rfl
    · rename_i hfree
      exact ⟨hword, fun hmem => hfree (List.contains_iff_mem.2 hmem)⟩

/-- The members of an enumeration have legal names, whatever its literals are. -/
theorem legalNames_members (values : List Tree) : LegalNames [] (Literal.memberNames values) :=
  legalNames_uniqueNames rfl (List.forall_mem_map.2 fun value _ =>
    ⟨isLegal_memberName value, List.not_mem_nil⟩)

/-! ## Types -/

/-- A type's name starts with a letter, and letters and digits follow. -/
theorem isWord_typeIdentifier (text : String) : IsWord (typeIdentifier text) := by
  have hmodel : IsWord "Model" := isWord_of_chars rfl (List.all_eq_true.1 (by decide))
  have hchars : ∀ c ∈ (orElseText (pascal text) "Model").toList, isWordChar c = true := by
    rw [orElseText]
    split
    · exact List.all_eq_true.1 (by decide)
    · exact pascal_chars text
  have hne : (orElseText (pascal text) "Model").toList ≠ [] := by
    rw [orElseText]
    split
    · decide
    · rename_i hempty
      exact fun hnil => hempty (String.isEmpty_iff.2 (String.toList_eq_nil_iff.1 hnil))
  unfold typeIdentifier
  dsimp only
  obtain ⟨c, cs, hname⟩ := List.exists_cons_of_ne_nil hne
  split
  · exact hmodel.append fun d hd => .inl (hchars d hd)
  · rename_i hdigit
    rw [startsWithDigit_cons hname] at hdigit
    refine isWord_of_chars ?_ hchars
    have hc := hchars c (hname ▸ List.mem_cons_self)
    rw [hname, List.head?_cons, Option.any_some, isAlpha_eq]
    simpa [isWordChar, hdigit] using hc

/-- The words of the keywords that start with a capital. -/
def constants : List String := ["none", "true", "false"]

/-- A text has one word, and that is one of these. -/
def SpellsConstant (text : String) : Prop := ∃ w ∈ constants, plainWords text = [w.toList]

instance (text : String) : Decidable (SpellsConstant text) := inferInstanceAs (Decidable (∃ w ∈ constants, _))

theorem joinWord_ne_nil (w : List Char) (ws : List (List Char)) : joinWord w ws ≠ [] := by
  cases ws with
  | nil => exact List.cons_ne_nil _ _
  | cons v vs =>
    rw [joinWord]
    split <;> exact List.cons_ne_nil _ _

/-- What is shown as one word of letters is that word. -/
theorem joinNumbers_eq_singleton {ws : List (List Char)} {w : List Char} (hw : isNumber w = false)
    (h : joinNumbers ws = [w]) : ws = [w] := by
  cases ws with
  | nil => cases h
  | cons v vs =>
    have hjoin : joinWord v (joinNumbers vs) = [w] := h
    cases hrest : joinNumbers vs with
    | nil =>
      rw [hrest] at hjoin
      cases vs with
      | nil => exact hjoin
      | cons u us => exact absurd hrest (joinWord_ne_nil _ _)
    | cons u us =>
      rw [hrest, joinWord] at hjoin
      split at hjoin
      · rename_i hnumbers
        obtain ⟨rfl, -⟩ := List.cons.inj hjoin
        rw [isNumber, List.all_append] at hw
        cases hw.symm.trans hnumbers
      · cases (List.cons.inj hjoin).2

theorem isNumber_head?_shownWords (text : String) : (shownWords text).head?.all isNumber = false := by
  unfold shownWords withLetters
  split
  · exact (by decide : isNumber "model".toList = false)
  · rename_i hletters
    exact Bool.eq_false_iff.2 hletters

/-- A type's name starts with a capital. -/
theorem isUpper_head?_typeIdentifier {text : String} {c : Char}
    (hc : c ∈ (typeIdentifier text).toList.head?) : c.isUpper = true := by
  rw [toList_typeIdentifier] at hc
  obtain ⟨-, hnumber⟩ | ⟨hupper, -⟩ := (setOff_shownWords text).head hc
  · cases hnumber.symm.trans (isNumber_head?_shownWords text)
  · exact hupper

/-- The type's name is a keyword just for the texts of which the words of `constants` are the only word. -/
theorem typeIdentifier_mem_keywords_iff {text : String} :
    typeIdentifier text ∈ keywords ↔ SpellsConstant text := by
  have hwords : ∀ w ∈ constants, plainWords w = [w.toList] ∧ typeIdentifier w ∈ keywords := by
    decide +kernel
  constructor
  · intro h
    have hcapital : ∀ k ∈ keywords, k.toList.head?.all Char.isUpper = true →
        ∃ w ∈ constants, typeIdentifier w = k := by decide +kernel
    have hshown : ∀ w ∈ constants, shownWords w = [w.toList] ∧ isNumber w.toList = false ∧
        w.toList ≠ "model".toList := by decide +kernel
    obtain ⟨w, hw, hname⟩ := hcapital _ h ((Option.all_eq_true _ _).2 fun c hc => isUpper_head?_typeIdentifier hc)
    obtain ⟨hsame, hletters, hmodel⟩ := hshown w hw
    refine ⟨w, hw, joinNumbers_eq_singleton hletters ?_⟩
    have hlone := (typeIdentifier_eq_iff.1 hname).symm.trans hsame
    unfold shownWords withLetters at hlone
    split at hlone
    · exact absurd (List.cons.inj hlone).1.symm hmodel
    · exact hlone
  · rintro ⟨w, hw, htext⟩
    have hname : typeIdentifier text = typeIdentifier w := by
      rw [typeIdentifier_eq_iff, shownWords, shownWords, htext, (hwords w hw).1]
    exact hname ▸ (hwords w hw).2

theorem isLegal_typeIdentifier_iff {text : String} :
    IsLegal (typeIdentifier text) ↔ ¬ SpellsConstant text := by
  rw [← typeIdentifier_mem_keywords_iff]
  exact ⟨fun h => h.notKeyword, fun h => ⟨isWord_typeIdentifier text, h⟩⟩

/-- The names of the variants of a union, which are made of the names of their schemas. -/
def variantNames (schemaNames : List String) : List String :=
  uniqueNames [] (schemaNames.map typeIdentifier)

theorem isWord_variantNames (schemaNames : List String) : ∀ n ∈ variantNames schemaNames, IsWord n :=
  forall_mem_uniqueNames (fun _ k hn => hn.append fun c hc =>
    .inl (by rw [Char.isAlphanum, (digits_toString k).1 c hc, Bool.or_true]))
    (List.forall_mem_map.2 fun text _ => isWord_typeIdentifier text)

/-- The first variant of a type name has that name, since a number makes no keyword of another name. -/
theorem legal_variantNames_iff {schemaNames : List String} :
    (∀ n ∈ variantNames schemaNames, IsLegal n) ↔ ∀ text ∈ schemaNames, ¬ SpellsConstant text := by
  constructor
  · intro h text htext hspells
    have hkeyword := typeIdentifier_mem_keywords_iff.2 hspells
    have hnumber : ∀ m (k : Nat), m ++ toString k ≠ typeIdentifier text := by
      intro m k heq
      obtain ⟨-, c, hlast, hc⟩ := digits_toString k
      exact append_notMem (by decide) hlast hc (heq ▸ hkeyword)
    exact (h _ (mem_uniqueNames hnumber (List.mem_map_of_mem htext) List.not_mem_nil)).notKeyword hkeyword
  · intro h
    refine forall_mem_uniqueNames (fun _ k hn => hn.number k) (List.forall_mem_map.2 fun text htext => ?_)
    exact isLegal_typeIdentifier_iff.2 (h text htext)

end ApiContract.Text
