import ApiContract.Proofs.Lists
import ApiContract.Scaffold
import Mathlib.Data.List.TakeWhile

/-!
# Where comments end

The comment of a method stands between three quotes, and a text from the description that holds three quotes
could end it. A reader of the comment goes on after a backslash and ends at the first three quotes in a row
(`Reading`, `closing?`).

* What goes through `comment` ends nothing, whatever it says (`harmless_comment`).
* The path, the identifier and the names of parameters are put into the comment as they are. So the comment of
  a method ends where the scaffold ends it if and only if none of these ends it before
  (`closing_docstring_iff`), and a path with three quotes does (`closing_samplePath`).
-/

namespace ApiContract.Scaffold

/-! ## Reading between three quotes -/

/-- How far a text between three quotes has been read: up to some quotes in a row, up to a backslash, or past
the quotes that close it. -/
inductive Reading where
  | text (quotes : Nat)
  | escaped
  | closed
deriving DecidableEq

namespace Reading

/-- Reads one more character. -/
def step : Reading → Char → Reading
  | .text n, c =>
    if c = '"' then (if n < 2 then .text (n + 1) else .closed)
    else if c = '\\' then .escaped
    else .text 0
  | .escaped, _ => .text 0
  | .closed, _ => .closed

/-- Reads some characters. -/
def run (r : Reading) (cs : List Char) : Reading :=
  cs.foldl step r

theorem run_cons (r : Reading) (c : Char) (cs : List Char) : r.run (c :: cs) = (r.step c).run cs := rfl

theorem run_append (r : Reading) (a b : List Char) : r.run (a ++ b) = (r.run a).run b :=
  List.foldl_append

theorem run_closed (cs : List Char) : closed.run cs = .closed := by
  induction cs with
  | nil => rfl
  | cons c cs ih => exact ih

end Reading

open Reading

/-- How many characters there are up to the end of the three quotes that close a text. -/
def closing? (r : Reading) : List Char → Option Nat
  | [] => none
  | c :: cs => if r.step c = .closed then some 1 else (closing? (r.step c) cs).map (· + 1)

/-- What does not close is read, and reading goes on. -/
theorem closing?_append {r : Reading} {a : List Char} (b : List Char) (h : r.run a ≠ .closed) :
    closing? r (a ++ b) = (closing? (r.run a) b).map (· + a.length) := by
  induction a generalizing r with
  | nil => exact Option.map_id'.symm
  | cons c a ih =>
    have hstep : r.step c ≠ .closed := fun hc => h (by rw [run_cons, hc, run_closed])
    rw [List.cons_append, closing?, if_neg hstep, ih h, Option.map_map, run_cons]
    rfl

/-- What closes does so within itself. -/
theorem closing?_le {r : Reading} {a : List Char} (b : List Char) (hr : r ≠ .closed)
    (h : r.run a = .closed) : ∃ n ≤ a.length, closing? r (a ++ b) = some n := by
  induction a generalizing r with
  | nil => exact absurd h hr
  | cons c a ih =>
    rw [List.cons_append, closing?]
    split
    · exact ⟨1, Nat.succ_le_succ (Nat.zero_le _), rfl⟩
    · obtain ⟨n, hn, hclosing⟩ := ih ‹_› h
      exact ⟨n + 1, Nat.succ_le_succ hn, by rw [hclosing]; rfl⟩

/-! ## Texts that close nothing -/

/-- A text that closes nothing where it starts anew. -/
def Harmless (cs : List Char) : Prop := run (.text 0) cs ≠ .closed

instance (cs : List Char) : Decidable (Harmless cs) := inferInstanceAs (Decidable (_ ≠ _))

/-- Whether a character is neither a quote nor a backslash. -/
def isNeutral (c : Char) : Bool := c != '"' && c != '\\'

theorem step_of_isNeutral {r : Reading} {c : Char} (hc : isNeutral c = true) (hr : r ≠ .closed) :
    r.step c = .text 0 := by
  simp only [isNeutral, Bool.and_eq_true, bne_iff_ne] at hc
  cases r with
  | text n => rw [step, if_neg hc.1, if_neg hc.2]
  | escaped => rfl
  | closed => exact absurd rfl hr

theorem Harmless.of_append {a b : List Char} (h : Harmless (a ++ b)) : Harmless a := fun ha =>
  h (by rw [run_append, ha, run_closed])

/-- After a neutral character a text starts anew. -/
theorem harmless_append_cons {a b : List Char} {c : Char} (hc : isNeutral c = true) :
    Harmless (a ++ c :: b) ↔ Harmless a ∧ Harmless b := by
  refine ⟨fun h => ⟨h.of_append, ?_⟩, fun ⟨ha, hb⟩ => ?_⟩
  · have ha := h.of_append
    rwa [Harmless, run_append, run_cons, step_of_isNeutral hc ha] at h
  · rwa [Harmless, run_append, run_cons, step_of_isNeutral hc ha]

theorem harmless_cons {b : List Char} {c : Char} (hc : isNeutral c = true) :
    Harmless (c :: b) ↔ Harmless b :=
  (harmless_append_cons (a := []) hc).trans (and_iff_right (by decide))

/-- Neutral characters between two texts keep them apart. -/
theorem harmless_append {a s b : List Char} (hs : s.all isNeutral = true) (hne : s ≠ []) :
    Harmless (a ++ (s ++ b)) ↔ Harmless a ∧ Harmless b := by
  obtain ⟨c, s, rfl⟩ := List.exists_cons_of_ne_nil hne
  rw [List.all_cons, Bool.and_eq_true] at hs
  rw [List.cons_append, harmless_append_cons hs.1]
  refine and_congr_right fun _ => ?_
  clear hne
  induction s with
  | nil => rfl
  | cons d s ih =>
    obtain ⟨hc, hs⟩ := hs
    rw [List.all_cons, Bool.and_eq_true] at hs
    rw [List.cons_append, harmless_cons hs.1]
    exact ih ⟨hc, hs.2⟩

theorem harmless_neutral {s b : List Char} (hs : s.all isNeutral = true) : Harmless (s ++ b) ↔ Harmless b := by
  cases s with
  | nil => rfl
  | cons c s => exact (harmless_append (a := []) hs (List.cons_ne_nil _ _)).trans (and_iff_right (by decide))

/-- Neutral characters around a text change nothing. -/
theorem harmless_framed {before text after : String} (hbefore : before.toList.all isNeutral = true)
    (hafter : after.toList.all isNeutral = true) :
    Harmless (before ++ text ++ after).toList ↔ Harmless text.toList := by
  rw [String.toList_append, String.toList_append, List.append_assoc, harmless_neutral hbefore]
  by_cases hempty : after.toList = []
  · rw [hempty, List.append_nil]
  · rw [← List.append_nil after.toList, harmless_append hafter hempty]
    exact and_iff_left (by decide)

/-! ## Texts that are escaped -/

theorem escapeBackslash_of_ne {c : Char} (h : c ≠ '\\') : escapeBackslash c = [c] := by
  unfold escapeBackslash
  split
  · exact absurd rfl h
  · rfl

/-- Doubling backslashes puts no quote at the front. -/
theorem flatMap_escapeBackslash_eq {cs rest : List Char} (h : cs.flatMap escapeBackslash = '"' :: rest) :
    ∃ cs', cs = '"' :: cs' ∧ cs'.flatMap escapeBackslash = rest := by
  cases cs with
  | nil => cases h
  | cons c cs =>
    by_cases hslash : c = '\\'
    · subst hslash
      cases h
    · rw [List.flatMap_cons, escapeBackslash_of_ne hslash] at h
      obtain ⟨rfl, hrest⟩ := List.cons.inj h
      exact ⟨cs, rfl, hrest⟩

/-- Some quotes in a row, of which these characters do not make three. -/
def Apart (cs : List Char) : Nat → Prop
  | 0 => True
  | 1 => ∀ rest, cs ≠ '"' :: '"' :: rest
  | 2 => ∀ rest, cs ≠ '"' :: rest
  | _ => False

theorem Apart.quote {rest : List Char} {n : Nat} (hthree : ∀ r, rest ≠ '"' :: '"' :: r)
    (h : Apart ('"' :: rest) n) : n < 2 ∧ Apart rest (n + 1) := by
  match n, h with
  | 0, _ => exact ⟨by decide, hthree⟩
  | 1, h => exact ⟨by decide, fun r hr => h r (by rw [hr])⟩
  | 2, h => exact absurd rfl (h rest)

/-- An escaped text closes nothing, not even together with quotes before it. -/
theorem run_escaped (cs : List Char) : ∀ n, Apart cs n →
    run (.text n) (escapeQuotes (cs.flatMap escapeBackslash)) ≠ .closed := by
  induction cs using escapeQuotes.induct with
  | case1 rest ih =>
    intro n hn
    match n, hn with
    | 0, _ => exact ih 0 trivial
    | 1, h => exact absurd rfl (h _)
    | 2, h => exact absurd rfl (h _)
  | case2 c rest hthree ih =>
    intro n hn
    by_cases hquote : c = '"'
    · subst hquote
      have hrest : ∀ r, rest ≠ '"' :: '"' :: r := fun r hr => hthree r rfl hr
      have hescaped : ∀ r, rest.flatMap escapeBackslash ≠ '"' :: '"' :: r := by
        intro r hr
        obtain ⟨rest₁, hrest₁, hr₁⟩ := flatMap_escapeBackslash_eq hr
        obtain ⟨rest₂, hrest₂, -⟩ := flatMap_escapeBackslash_eq hr₁
        exact hrest rest₂ (by rw [hrest₁, hrest₂])
      obtain ⟨hlt, hapart⟩ := hn.quote hrest
      have hstep : (Reading.text n).step '"' = .text (n + 1) := by
        rw [step, if_pos rfl, if_pos hlt]
      rw [List.flatMap_cons, show escapeBackslash '"' = ['"'] from rfl, List.singleton_append,
        escapeQuotes.eq_2 _ _ fun r _ hr => hescaped r hr, run_cons, hstep]
      exact ih (n + 1) hapart
    · have hclear : ∀ d es, d ≠ '"' → escapeQuotes (d :: es) = d :: escapeQuotes es :=
        fun d es hd => escapeQuotes.eq_2 d es fun _ hquote _ => hd hquote
      by_cases hslash : c = '\\'
      · subst hslash
        rw [List.flatMap_cons, show escapeBackslash '\\' = ['\\', '\\'] from rfl, List.cons_append,
          List.singleton_append, hclear _ _ (by decide), hclear _ _ (by decide)]
        exact ih 0 trivial
      · have hneutral : isNeutral c = true := by simp [isNeutral, hquote, hslash]
        have hopen : Reading.text n ≠ .closed := Reading.noConfusion
        rw [List.flatMap_cons, escapeBackslash_of_ne hslash, List.singleton_append, hclear c _ hquote,
          run_cons, step_of_isNeutral hneutral hopen]
        exact ih 0 trivial
  | case3 => exact fun n _ => nofun

theorem isNeutral_of_isBlank {c : Char} (h : Text.isBlank c = true) : isNeutral c = true := by
  rw [isNeutral, Bool.and_eq_true, bne_iff_ne, bne_iff_ne]
  constructor <;> rintro rfl <;> exact absurd h (by decide)

theorem harmless_trimBy {cs : List Char} (h : Harmless cs) : Harmless (Text.trimBy Text.isBlank cs) := by
  have hfront : Harmless (cs.dropWhile Text.isBlank) := by
    rw [← List.takeWhile_append_dropWhile (p := Text.isBlank) (l := cs)] at h
    refine (harmless_neutral (List.all_eq_true.2 fun c hc => ?_)).1 h
    exact isNeutral_of_isBlank (List.mem_takeWhile_imp hc)
  obtain ⟨blanks, hblanks⟩ := List.dropWhile_suffix (l := (cs.dropWhile Text.isBlank).reverse) Text.isBlank
  rw [← List.reverse_reverse (cs.dropWhile Text.isBlank), ← hblanks, List.reverse_append] at hfront
  exact hfront.of_append

/-- What can stand inside a comment closes nothing, whatever it says. -/
theorem harmless_comment (text : String) : Harmless (comment text).toList := by
  rw [comment, String.toList_ofList]
  exact harmless_trimBy (run_escaped _ 0 trivial)

/-! ## Lines -/

/-- Lines, each with its end. -/
def joined (lines : List String) : String := String.join (lines.map (· ++ "\n"))

theorem joined_cons (line : String) (lines : List String) :
    (joined (line :: lines)).toList = line.toList ++ '\n' :: (joined lines).toList := by
  simp [joined, String.toList_append]

theorem joined_append (a b : List String) : joined (a ++ b) = joined a ++ joined b := by
  simp [joined]

/-- After whole lines, reading starts anew. -/
theorem run_joined {lines : List String} :
    (Harmless (joined lines).toList ↔ ∀ line ∈ lines, Harmless line.toList) ∧
      (Harmless (joined lines).toList → run (.text 0) (joined lines).toList = .text 0) := by
  induction lines with
  | nil => exact ⟨iff_of_true (by decide) nofun, fun _ => rfl⟩
  | cons line lines ih =>
    rw [joined_cons, harmless_append_cons (by decide), List.forall_mem_cons, ih.1]
    refine ⟨Iff.rfl, fun ⟨hline, hlines⟩ => ?_⟩
    rw [run_append, run_cons, step_of_isNeutral (by decide) hline]
    exact ih.2 (ih.1.2 hlines)

theorem isNeutral_of_endsLine {c : Char} (h : endsLine c = true) : isNeutral c = true := by
  rw [isNeutral, Bool.and_eq_true, bne_iff_ne, bne_iff_ne]
  constructor <;> rintro rfl <;> exact absurd h (by decide)

/-- What a reading of lines closes nothing in: the first line, where the reading goes on, and the others, where
it starts anew. -/
def Unclosed (r : Reading) (lines : List (List Char)) : Prop :=
  ∀ first rest, lines = first :: rest → r.run first ≠ .closed ∧ ∀ line ∈ rest, Harmless line

theorem Unclosed.harmless {lines : List (List Char)} (h : Unclosed (.text 0) lines) :
    ∀ line ∈ lines, Harmless line := by
  cases lines with
  | nil => exact nofun
  | cons first rest =>
    obtain ⟨hfirst, hrest⟩ := h first rest rfl
    exact List.forall_mem_cons.2 ⟨hfirst, hrest⟩

/-- The lines of a text that closes nothing close nothing. -/
theorem unclosed_linesOf (cs : List Char) : ∀ r : Reading, r.run cs ≠ .closed → Unclosed r (linesOf cs) := by
  -- At the end of a line the reading starts anew.
  have hends : ∀ {r : Reading} {c : Char} {rest : List Char}, endsLine c = true →
      r.run (c :: rest) ≠ .closed → r ≠ .closed ∧ run (.text 0) rest ≠ .closed := by
    intro r c rest hend h
    have hr : r ≠ .closed := fun hr => h (by rw [hr, run_closed])
    rw [run_cons, step_of_isNeutral (isNeutral_of_endsLine hend) hr] at h
    exact ⟨hr, h⟩
  induction cs using linesOf.induct with
  | case1 => exact fun _ _ => nofun
  | case2 rest ih =>
    intro r h
    obtain ⟨hr, h⟩ := hends (by decide) h
    obtain ⟨-, h⟩ := hends (by decide) h
    rintro _ _ ⟨⟩
    exact ⟨hr, (ih _ h).harmless⟩
  | case3 c rest hcrlf hend ih =>
    intro r h
    obtain ⟨hr, h⟩ := hends hend h
    rw [linesOf.eq_3 c rest hcrlf, if_pos hend]
    rintro _ _ ⟨⟩
    exact ⟨hr, (ih _ h).harmless⟩
  | case4 c rest hcrlf hend line lines hlines ih =>
    intro r h
    rw [linesOf.eq_3 c rest hcrlf, if_neg hend, hlines]
    rintro _ _ ⟨⟩
    exact ih _ h _ _ hlines
  | case5 c rest hcrlf hend hlines ih =>
    intro r h
    rw [linesOf.eq_3 c rest hcrlf, if_neg hend, hlines]
    rintro _ _ ⟨⟩
    refine ⟨fun hclosed => h ?_, nofun⟩
    rw [← List.singleton_append, run_append, hclosed, run_closed]

theorem harmless_intercalate : ∀ {lines : List (List Char)}, (∀ line ∈ lines, Harmless line) →
    Harmless (['\n'].intercalate lines)
  | [], _ => by decide
  | [line], h => by
    rw [List.intercalate_singleton]
    exact h line List.mem_cons_self
  | line :: next :: lines, h => by
    obtain ⟨hline, hlines⟩ := List.forall_mem_cons.1 h
    rw [List.intercalate_cons_cons, List.append_assoc, List.singleton_append,
      harmless_append_cons (by decide)]
    exact ⟨hline, harmless_intercalate hlines⟩

/-- Indenting the lines of a text that closes nothing does not change that. -/
theorem harmless_indented {text : String} (n : Nat) (h : Harmless text.toList) :
    Harmless (indented n text).toList := by
  have hspaces : (List.replicate n ' ').all isNeutral = true :=
    List.all_eq_true.2 fun c hc => by rw [List.eq_of_mem_replicate hc]; decide
  have hlines := (unclosed_linesOf text.toList _ h).harmless
  unfold indented
  split
  · decide
  · rename_i first rest heq
    obtain ⟨hfirst, hrest⟩ := List.forall_mem_cons.1 (heq ▸ hlines)
    rw [String.toList_intercalate, List.map_cons]
    refine harmless_intercalate (List.forall_mem_cons.2 ⟨by rwa [String.toList_ofList], ?_⟩)
    refine List.forall_mem_map.2 (List.forall_mem_map.2 fun line hline => ?_)
    split
    · decide
    · rw [String.toList_ofList, harmless_neutral hspaces]
      exact hrest line hline

/-! ## Comments of methods -/

/-- The lines of a method's comment after its first one and before the quotes that close it. -/
def furtherLines (p : OperationPlan) : List String :=
  let description := orElse p.description ""
  [""] ++
    (if description.isEmpty then [] else ["        " ++ indented 8 (comment description), ""]) ++
    ["        Endpoint: `" ++ Operation.endpointText p.method p.path ++ "`",
      "        Operation ID: `" ++ p.id ++ "`"] ++
    (if p.parameters.isEmpty then [] else ["", "        Args:"] ++ p.parameters.map parameterLine)

/-- What stands between the quotes that open a method's comment and those that close it. -/
def docstring (p : OperationPlan) : String :=
  joined (comment (orElse p.summary (Operation.endpointText p.method p.path)) :: furtherLines p) ++ "        "

/-- The texts of a plan that are put into the comment as they are. -/
def bareTexts (p : OperationPlan) : List String :=
  p.path :: p.id :: p.parameters.flatMap fun a => [a.argument, a.name]

theorem joined_commentLines (p : OperationPlan) :
    joined (commentLines p) = "        \"\"\"" ++ docstring p ++ "\"\"\"" ++ "\n" := by
  have hlines : commentLines p =
      ("        \"\"\"" ++ comment (orElse p.summary (Operation.endpointText p.method p.path))) ::
        (furtherLines p ++ ["        \"\"\""]) := by
    simp [commentLines, furtherLines]
  rw [hlines, docstring]
  simp [joined, String.append_assoc]

theorem harmless_parameterLine (a : ParameterPlan) :
    Harmless (parameterLine a).toList ↔ Harmless a.argument.toList ∧ Harmless a.name.toList := by
  have hplace : a.place.name.toList.all isNeutral = true := by cases a.place <;> decide
  have hdescription : Harmless (if (joinWords (a.description.getD "")).isEmpty then ""
      else " " ++ comment (joinWords (a.description.getD ""))).toList := by
    split
    · decide
    · rw [String.toList_append, harmless_neutral (by decide)]
      exact harmless_comment _
  unfold parameterLine
  dsimp only
  generalize (if (joinWords _).isEmpty then _ else _ : String) = description at hdescription ⊢
  have hbetween : (": ".toList ++ (a.place.name.toList ++ " parameter `".toList)).all isNeutral = true := by
    rw [List.all_append, List.all_append, hplace]
    decide
  simp only [String.toList_append, List.append_assoc]
  rw [harmless_neutral (by decide)]
  rw [show ": ".toList ++ (a.place.name.toList ++ (" parameter `".toList ++ (a.name.toList ++ ("`.".toList ++
      description.toList)))) = (": ".toList ++ (a.place.name.toList ++ " parameter `".toList)) ++
        (a.name.toList ++ ("`.".toList ++ description.toList)) by simp only [List.append_assoc]]
  rw [harmless_append hbetween (List.cons_ne_nil _ _), harmless_append (by decide) (by decide)]
  exact and_congr_right fun _ => and_iff_left hdescription

/-- The comment of a method closes nothing if and only if the texts that are put into it as they are close
nothing. -/
theorem harmless_docstring (p : OperationPlan) :
    Harmless (docstring p).toList ↔ ∀ t ∈ bareTexts p, Harmless t.toList := by
  have hmethod : ("        Endpoint: `" ++ (p.method.name ++ " ")).toList.all isNeutral = true := by
    cases p.method <;> decide
  have hpath : Harmless ("        Endpoint: `" ++ Operation.endpointText p.method p.path ++ "`").toList ↔
      Harmless p.path.toList := by
    rw [Operation.endpointText, ← String.append_assoc]
    exact harmless_framed hmethod (by decide)
  have hid : Harmless ("        Operation ID: `" ++ p.id ++ "`").toList ↔ Harmless p.id.toList :=
    harmless_framed (by decide) (by decide)
  have hplaced : (∀ line ∈ ["        Endpoint: `" ++ Operation.endpointText p.method p.path ++ "`",
      "        Operation ID: `" ++ p.id ++ "`"], Harmless line.toList) ↔
        Harmless p.path.toList ∧ Harmless p.id.toList := by
    rw [List.forall_mem_cons, List.forall_mem_singleton, hpath, hid]
  have hdescription : ∀ line ∈ [""] ++ (if (orElse p.description "").isEmpty then [] else
      ["        " ++ indented 8 (comment (orElse p.description "")), ""]), Harmless line.toList := by
    refine List.forall_mem_append.2 ⟨List.forall_mem_singleton.2 (by decide), ?_⟩
    split
    · exact nofun
    · refine List.forall_mem_cons.2 ⟨?_, List.forall_mem_singleton.2 (by decide)⟩
      rw [String.toList_append, harmless_neutral (by decide)]
      exact harmless_indented 8 (harmless_comment _)
  have hparameters : (∀ line ∈ (if p.parameters.isEmpty then [] else
      ["", "        Args:"] ++ p.parameters.map parameterLine), Harmless line.toList) ↔
        ∀ t ∈ p.parameters.flatMap fun a => [a.argument, a.name], Harmless t.toList := by
    have hall : (∀ line ∈ p.parameters.map parameterLine, Harmless line.toList) ↔
        ∀ t ∈ p.parameters.flatMap fun a => [a.argument, a.name], Harmless t.toList := by
      rw [List.forall_mem_map, List.forall_mem_flatMap]
      refine forall₂_congr fun a _ => ?_
      rw [harmless_parameterLine, List.forall_mem_cons, List.forall_mem_singleton]
    split
    · rename_i hempty
      rw [List.isEmpty_iff.1 hempty]
      exact iff_of_true nofun nofun
    · rw [List.forall_mem_append, hall]
      exact and_iff_right (by decide)
  rw [docstring, String.toList_append, ← List.append_nil "        ".toList,
    harmless_append (by decide) (by decide), and_iff_left (by decide), run_joined.1, List.forall_mem_cons,
    and_iff_right (harmless_comment _), furtherLines, List.forall_mem_append, List.forall_mem_append,
    hparameters, hplaced, and_iff_right hdescription, bareTexts, List.forall_mem_cons, List.forall_mem_cons,
    and_assoc]

/-- After the comment of a method, reading starts anew if it has not been closed. -/
theorem run_docstring {p : OperationPlan} (h : Harmless (docstring p).toList) :
    run (.text 0) (docstring p).toList = .text 0 := by
  rw [docstring, String.toList_append] at h ⊢
  rw [run_append, run_joined.2 h.of_append]
  rfl

/-- Three quotes after the comment of a method are those that close it, unless it has been closed before. -/
theorem closing?_docstring (p : OperationPlan) (rest : List Char) :
    closing? (.text 0) ((docstring p).toList ++ '"' :: '"' :: '"' :: rest) = some ((docstring p).length + 3) ↔
      Harmless (docstring p).toList := by
  constructor
  · intro h hclosed
    obtain ⟨n, hn, hclosing⟩ := closing?_le ('"' :: '"' :: '"' :: rest) Reading.noConfusion hclosed
    rw [hclosing, Option.some.injEq, ← String.length_toList] at h
    omega
  · intro h
    rw [closing?_append _ h, run_docstring h, ← String.length_toList]
    simp [closing?, step, Nat.add_comm]

/-- What comes after the quotes that close a method's comment, with these methods after it. -/
def afterComment (after : List OperationPlan) : String :=
  "\n        raise NotImplementedError\n" ++ joined (after.flatMap methodLines)

/-- A scaffold opens the comment of each method after its signature and closes it before its body. -/
theorem text_eq (unit descriptionPath : String) (before after : List OperationPlan) (p : OperationPlan) :
    ∃ preamble signature,
      lines unit descriptionPath (before ++ p :: after) =
        preamble ++ (before ++ p :: after).flatMap methodLines ∧
      methodLines p = signature ++ commentLines p ++ ["        raise NotImplementedError"] ∧
      text unit descriptionPath (before ++ p :: after) =
        joined (preamble ++ before.flatMap methodLines ++ signature) ++ "        \"\"\"" ++ docstring p ++
          "\"\"\"" ++ afterComment after := by
  obtain ⟨preamble, hpreamble⟩ : (before ++ p :: after).flatMap methodLines <:+
      lines unit descriptionPath (before ++ p :: after) := by
    unfold lines
    exact List.suffix_append _ _
  obtain ⟨signature, hsignature⟩ : commentLines p ++ ["        raise NotImplementedError"] <:+
      methodLines p := by
    unfold methodLines
    rw [List.append_assoc]
    exact List.suffix_append _ _
  rw [← List.append_assoc] at hsignature
  refine ⟨preamble, signature, hpreamble.symm, hsignature.symm, ?_⟩
  show joined (lines unit descriptionPath (before ++ p :: after)) = _
  unfold afterComment
  rw [← hpreamble, List.flatMap_append, List.flatMap_cons, ← hsignature]
  simp only [joined_append, joined_commentLines, String.append_assoc]
  rfl

/-- The comment of each method stands between three quotes after its signature and three before its body. The
first three quotes in a row in it that no backslash stands before are those that close it, if and only if no
such quotes stand in the path, in the identifier or in a name of a parameter. What the summary, the description
and the descriptions of parameters say never closes it. -/
theorem closing_docstring_iff (unit descriptionPath : String) (before after : List OperationPlan)
    (p : OperationPlan) :
    (∃ preamble signature,
      lines unit descriptionPath (before ++ p :: after) =
        preamble ++ (before ++ p :: after).flatMap methodLines ∧
      methodLines p = signature ++ commentLines p ++ ["        raise NotImplementedError"] ∧
      text unit descriptionPath (before ++ p :: after) =
        joined (preamble ++ before.flatMap methodLines ++ signature) ++ "        \"\"\"" ++ docstring p ++
          "\"\"\"" ++ afterComment after) ∧
    (closing? (.text 0) (docstring p ++ "\"\"\"" ++ afterComment after).toList =
        some ((docstring p).length + 3) ↔
      ∀ t ∈ bareTexts p, Harmless t.toList) := by
  refine ⟨text_eq unit descriptionPath before after p, ?_⟩
  rw [String.append_assoc, String.toList_append, String.toList_append, ← harmless_docstring]
  exact closing?_docstring p _

/-- An operation whose path has three quotes at its end. -/
def samplePath : OperationPlan where
  id := "getPet"
  handler := "get_pet"
  responseType := "GetPetResponse"
  method := .get
  path := "/p\"\"\""
  summary := none
  description := none
  tags := []
  parameters := []
  requestBody := none
  responses := []
  authenticated := false

/-- Its comment is closed by its path, before half of it has been read. -/
theorem closing_samplePath :
    (∃ head, text "pet" "openapi.yaml" [samplePath] =
      head ++ "        \"\"\"" ++ docstring samplePath ++ "\"\"\"" ++ afterComment []) ∧
    closing? (.text 0) (docstring samplePath ++ "\"\"\"" ++ afterComment []).toList = some 42 ∧
    (docstring samplePath).length + 3 = 86 := by
  obtain ⟨_, _, -, -, htext⟩ := text_eq "pet" "openapi.yaml" [] [] samplePath
  exact ⟨⟨_, htext⟩, by decide +kernel, by decide +kernel⟩

end ApiContract.Scaffold
