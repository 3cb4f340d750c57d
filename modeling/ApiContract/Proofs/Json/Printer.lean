import ApiContract.Json.Printer
import ApiContract.Proofs.Lists
import ApiContract.Proofs.Tree.Plain

/-!
# Printed trees

What is printed of a character (`plainChar_cases`, `asciiChar_cases`), and of a list or a map in a style
without lines: the parts between brackets, with a separator between them (`printAt_list`, `printAt_map`).
-/

namespace ApiContract.Json

theorem allSome_eq_some {α : Type} {l : List (Option α)} {as : List α} :
    allSome l = some as ↔ List.Forall₂ (fun o a => o = some a) l as := by
  induction l generalizing as with
  | nil => simp [allSome, eq_comm]
  | cons o l ih =>
    cases as with
    | nil => cases o <;> cases h : allSome l <;> simp [allSome, h]
    | cons a as =>
      rw [List.forall₂_cons, ← ih]
      cases o <;> cases h : allSome l <;> simp [allSome, h]

/-! ## Characters -/

/-- The characters that are written as a backslash and a letter, with the letter. -/
def shortEscapes : List (Char × Char) :=
  [('"', '"'), ('\\', '\\'), ('\n', 'n'), ('\r', 'r'), ('\t', 't'), ('\x08', 'b'), ('\x0c', 'f')]

/-- How a character is written: with a letter, with its number, or as itself. -/
theorem plainChar_cases (c : Char) :
    (∃ letter, (c, letter) ∈ shortEscapes ∧ plainChar c = ['\\', letter]) ∨
    (c.toNat < 32 ∧ plainChar c = unitEscape c.toNat) ∨
    (c ≠ '"' ∧ c ≠ '\\' ∧ 32 ≤ c.toNat ∧ plainChar c = [c]) := by
  have hchar : ∀ {d : Char}, c.toNat = d.toNat → c = d := fun h => Char.toNat_inj.1 h
  unfold plainChar shortEscapes
  simp only [beq_iff_eq]
  split
  · exact .inl ⟨_, by simp_all, rfl⟩
  split
  · exact .inl ⟨_, by simp_all, rfl⟩
  split
  · exact .inl ⟨_, by simp_all, rfl⟩
  split
  · exact .inl ⟨_, by simp_all, rfl⟩
  split
  · exact .inl ⟨_, by simp_all, rfl⟩
  split
  · rename_i h
    obtain rfl : c = '\x08' := hchar h
    exact .inl ⟨'b', by decide, rfl⟩
  split
  · rename_i h
    obtain rfl : c = '\x0c' := hchar h
    exact .inl ⟨'f', by decide, rfl⟩
  split
  · rename_i h
    exact .inr (.inl ⟨h, rfl⟩)
  · rename_i hquote hslash _ _ _ _ _ h
    exact .inr (.inr ⟨hquote, hslash, Nat.le_of_not_lt h, rfl⟩)

/-- How a character is written in ASCII: with a letter, with its number, as itself, or as two code units. -/
theorem asciiChar_cases (c : Char) :
    (∃ letter, (c, letter) ∈ shortEscapes ∧ asciiChar c = ['\\', letter]) ∨
    (c.toNat < 0x10000 ∧ asciiChar c = unitEscape c.toNat) ∨
    (c ≠ '"' ∧ c ≠ '\\' ∧ 32 ≤ c.toNat ∧ asciiChar c = [c]) ∨
    (0x10000 ≤ c.toNat ∧ asciiChar c =
      unitEscape (0xD800 + (c.toNat - 0x10000) / 1024) ++
        unitEscape (0xDC00 + (c.toNat - 0x10000) % 1024)) := by
  unfold asciiChar
  split
  · rcases plainChar_cases c with h | ⟨hlow, h⟩ | h
    · exact .inl h
    · exact .inr (.inl ⟨by omega, h⟩)
    · exact .inr (.inr (.inl h))
  split
  · exact .inr (.inl ⟨‹_›, rfl⟩)
  · exact .inr (.inr (.inr ⟨Nat.le_of_not_lt ‹_›, rfl⟩))

/-! ## Containers -/

section

variable (style : Style)

theorem printAt_list_eq (a : Anchor) (ts : List Tree) (depth : Nat) : printAt style (.list a ts) depth =
    (allSome (ts.map fun t => printAt style t (depth + 1))).map (bracketed style depth "[" "]") := by
  show printAt.listText style ((Tree.paraItems _ ts).map (·.2)) depth = _
  rw [Tree.paraItems_eq, printAt.listText, List.map_map, List.map_map, Option.map_eq_bind]
  rfl

theorem printAt_pair_eq (x y : Tree) (depth : Nat) : printAt style (.pair x y) depth =
    (allSome [printAt style x (depth + 1), printAt style y (depth + 1)]).map
      (bracketed style depth "[" "]") := by
  show printAt.listText style [printAt style x, printAt style y] depth = _
  rw [printAt.listText, Option.map_eq_bind]
  rfl

theorem printAt_map_eq (a : Anchor) (es : Entries) (depth : Nat) : printAt style (.map a es) depth =
    (allSome (es.map fun e => (keyText style e.1).bind fun k =>
      (printAt style e.2 (depth + 1)).bind fun t => some (k ++ style.keySeparator ++ t))).map
        (bracketed style depth "\x7b" "\x7d") := by
  show (allSome ((Tree.paraEntries _ es).map _)).bind _ = _
  rw [Tree.paraEntries_eq, List.map_map, Option.map_eq_bind]
  rfl

end

variable {style : Style} (hline : style.indent = none)
include hline

theorem bracketed_line (depth : Nat) (opening closing : String) (parts : List String) :
    bracketed style depth opening closing parts =
      opening ++ style.itemSeparator.intercalate parts ++ closing := by
  cases parts with
  | nil => show opening ++ closing = opening ++ "" ++ closing; rw [String.append_empty]
  | cons part parts =>
    unfold bracketed
    rw [hline]
    rfl

theorem printAt_list {ts : List Tree} {a : Anchor} {depth : Nat} {text : String} :
    printAt style (.list a ts) depth = some text ↔ ∃ parts,
      List.Forall₂ (fun t part => printAt style t (depth + 1) = some part) ts parts ∧
        "[" ++ style.itemSeparator.intercalate parts ++ "]" = text := by
  rw [printAt_list_eq, Option.map_eq_some_iff]
  simp only [allSome_eq_some, List.forall₂_map_left_iff, bracketed_line hline]

theorem printAt_map {es : Entries} {a : Anchor} {depth : Nat} {text : String} :
    printAt style (.map a es) depth = some text ↔ ∃ parts,
      List.Forall₂ (fun e part => ∃ k t, keyText style e.1 = some k ∧
        printAt style e.2 (depth + 1) = some t ∧ k ++ style.keySeparator ++ t = part) es parts ∧
        "\x7b" ++ style.itemSeparator.intercalate parts ++ "\x7d" = text := by
  rw [printAt_map_eq, Option.map_eq_some_iff]
  simp only [allSome_eq_some, List.forall₂_map_left_iff, bracketed_line hline, Option.bind_eq_some_iff,
    Option.some.injEq, exists_and_left]

/-- Without lines a tree is written in the same way at every depth. -/
theorem printAt_depth (t : Tree) : ∀ depth depth', printAt style t depth = printAt style t depth' := by
  have hbracketed (depth depth' : Nat) (opening closing : String) :
      bracketed style depth opening closing = bracketed style depth' opening closing :=
    funext fun parts => (bracketed_line hline _ _ _ _).trans (bracketed_line hline _ _ _ _).symm
  induction t using Tree.induct with
  | scalar | set | back => exact fun _ _ => rfl
  | list a ts ih =>
    intro depth depth'
    rw [printAt_list_eq, printAt_list_eq, hbracketed depth depth',
      List.map_congr_left fun t ht => ih t ht (depth + 1) (depth' + 1)]
  | map a es ih =>
    intro depth depth'
    rw [printAt_map_eq, printAt_map_eq, hbracketed depth depth',
      List.map_congr_left fun e he => by rw [ih e he (depth + 1) (depth' + 1)]]
  | pair x y ihx ihy =>
    intro depth depth'
    rw [printAt_pair_eq, printAt_pair_eq, hbracketed depth depth', ihx (depth + 1) (depth' + 1),
      ihy (depth + 1) (depth' + 1)]

/-- A list has a text if its items do. -/
theorem exists_print_list {ts : List Tree} {a : Anchor} (hitems : ∀ t ∈ ts, ∃ text, print? style t = some text) :
    ∃ text, print? style (.list a ts) = some text := by
  have hparts : ∀ t ∈ ts, ∃ part, printAt style t (0 + 1) = some part := fun t ht =>
    (hitems t ht).imp fun text htext => (printAt_depth hline t _ _).trans htext
  obtain ⟨parts, hparts⟩ := exists_forall₂.2 hparts
  exact ⟨_, (printAt_list hline).2 ⟨parts, hparts, rfl⟩⟩

/-- A map of texts to values has a text if the values do. -/
theorem exists_print_map {es : Entries} {a : Anchor} (hkeys : ∀ e ∈ es, ∃ k, e.1 = .text k)
    (hvalues : ∀ e ∈ es, ∃ text, print? style e.2 = some text) :
    ∃ text, print? style (.map a es) = some text := by
  have hparts : ∀ e ∈ es, ∃ part, ∃ k t, keyText style e.1 = some k ∧
      printAt style e.2 (0 + 1) = some t ∧ k ++ style.keySeparator ++ t = part := by
    intro e he
    obtain ⟨k, hk⟩ := hkeys e he
    obtain ⟨text, htext⟩ := hvalues e he
    exact ⟨_, _, text, by rw [hk]; rfl, (printAt_depth hline e.2 _ _).trans htext, rfl⟩
  obtain ⟨parts, hparts⟩ := exists_forall₂.2 hparts
  exact ⟨_, (printAt_map hline).2 ⟨parts, hparts, rfl⟩⟩

end ApiContract.Json
