import ApiContract.Json.Text
import ApiContract.Proofs.Json.Number
import ApiContract.Proofs.Json.Printer
import ApiContract.Proofs.Lists
import Mathlib.Tactic.IntervalCases

/-!
# Text of trees

A string that has been written in ASCII is read again (`scanString_written`): an escape stands for its
character, and a character beyond the basic plane for the two code units that it has been written as.

A tree of texts, truth values, whole numbers, lists and maps that breaks no limit of reading (`Within`) has a
JSON text (`exists_print`), and is read from it again (`read_print`). As with octets, a value leads from any
state that expects one to the state behind it, whatever follows the value (`readsAs_print`).
-/

namespace ApiContract.Json

/-! ## Code units -/

theorem hexPadded_four {n : Nat} (hn : n < 0x10000) : Text.hexPadded 4 n =
    [(n / 4096).digitChar, (n / 256 % 16).digitChar, (n / 16 % 16).digitChar, (n % 16).digitChar] := by
  have hstep {k : Nat} (hk : 16 ≤ k) :
      Nat.toDigits 16 k = Nat.toDigits 16 (k / 16) ++ [(k % 16).digitChar] :=
    Nat.toDigits_of_base_le (by decide) hk
  have hdiv : n / 16 / 16 = n / 256 ∧ n / 256 / 16 = n / 4096 := by omega
  rw [Text.hexPadded]
  by_cases h₁ : n < 16
  · rw [Nat.toDigits_of_lt_base h₁, Nat.div_eq_of_lt (by omega), Nat.div_eq_of_lt (by omega),
      Nat.div_eq_of_lt h₁, Nat.mod_eq_of_lt h₁]
    rfl
  rw [hstep (by omega)]
  by_cases h₂ : n / 16 < 16
  · rw [Nat.toDigits_of_lt_base h₂, Nat.div_eq_of_lt (b := 4096) (by omega),
      Nat.div_eq_of_lt (b := 256) (by omega), Nat.mod_eq_of_lt h₂]
    rfl
  rw [hstep (by omega), hdiv.1]
  by_cases h₃ : n / 256 < 16
  · rw [Nat.toDigits_of_lt_base h₃, Nat.div_eq_of_lt (b := 4096) (by omega), Nat.mod_eq_of_lt h₃]
    rfl
  · rw [hstep (by omega), hdiv.2, Nat.toDigits_of_lt_base (by omega)]
    rfl

theorem hexDigit?_digitChar : ∀ n : Fin 16, hexDigit? (Nat.digitChar n) = some n.val := by decide

theorem hexFour?_digitChar {a b c d : Nat} (ha : a < 16) (hb : b < 16) (hc : c < 16) (hd : d < 16) :
    hexFour? a.digitChar b.digitChar c.digitChar d.digitChar =
      some (((a * 16 + b) * 16 + c) * 16 + d) := by
  have h {n : Nat} (hn : n < 16) : hexDigit? n.digitChar = some n := hexDigit?_digitChar ⟨n, hn⟩
  rw [hexFour?, h ha, h hb, h hc, h hd]
  rfl

variable (start place : Nat)

/-- The escape of a code unit is read as it. -/
theorem scanString_unit {n : Nat} (hn : n < 0x10000) (s : StringSoFar) (next : Char)
    (rest : List Char) : scanString start place s (unitEscape n ++ next :: rest) =
      scanString start (place + 6) (s.pushUnit n) (next :: rest) := by
  have hvalue : (((n / 4096) * 16 + n / 256 % 16) * 16 + n / 16 % 16) * 16 + n % 16 = n := by omega
  have hfour := hexFour?_digitChar (a := n / 4096) (b := n / 256 % 16) (c := n / 16 % 16) (d := n % 16)
    (by omega) (by omega) (by omega) (by omega)
  rw [hvalue] at hfour
  rw [unitEscape, hexPadded_four hn]
  simp only [List.cons_append, List.nil_append]
  rw [scanString.eq_4, hfour]

theorem scanString_short {c letter : Char} (h : (c, letter) ∈ shortEscapes) (done rest : List Char) :
    scanString start place ⟨done, none⟩ (['\\', letter] ++ rest) =
      scanString start (place + 2) ⟨c :: done, none⟩ rest := by
  simp only [shortEscapes, List.mem_cons, Prod.mk.injEq, List.not_mem_nil, or_false] at h
  rcases h with ⟨rfl, rfl⟩ | ⟨rfl, rfl⟩ | ⟨rfl, rfl⟩ | ⟨rfl, rfl⟩ | ⟨rfl, rfl⟩ | ⟨rfl, rfl⟩ | ⟨rfl, rfl⟩ <;>
    cases rest <;> rfl

/-- A character is no half of a pair. -/
theorem not_surrogate (c : Char) :
    isHighSurrogate c.toNat = false ∧ isLowSurrogate c.toNat = false := by
  have hvalid : c.toNat < 0xD800 ∨ 0xDFFF < c.toNat := c.valid.imp id And.left
  simp only [isHighSurrogate, isLowSurrogate, Bool.and_eq_false_iff, decide_eq_false_iff_not]
  omega

theorem pushUnit_char (c : Char) (done : List Char) :
    StringSoFar.pushUnit ⟨done, none⟩ c.toNat = ⟨c :: done, none⟩ := by
  obtain ⟨hhigh, hlow⟩ := not_surrogate c
  rw [StringSoFar.pushUnit]
  simp only [hhigh, Bool.false_eq_true, if_false]
  rw [StringSoFar.push, charOf, hhigh, hlow, Bool.or_false, if_neg Bool.false_ne_true,
    Char.ofNat_toNat]
  rfl

theorem pushUnit_high {n : Nat} (h : isHighSurrogate n = true) (done : List Char) :
    StringSoFar.pushUnit ⟨done, none⟩ n = ⟨done, some n⟩ := if_pos h

theorem pushUnit_low {high n : Nat} (h : isLowSurrogate n = true) (done : List Char) :
    StringSoFar.pushUnit ⟨done, some high⟩ n = ⟨charOfPair high n :: done, none⟩ := if_pos h

/-- Two code units in a row make the character that they stand for. -/
theorem pushUnit_pair {c : Char} (h : 0x10000 ≤ c.toNat) (done : List Char) :
    (StringSoFar.pushUnit ⟨done, none⟩ (0xD800 + (c.toNat - 0x10000) / 1024)).pushUnit
      (0xDC00 + (c.toNat - 0x10000) % 1024) = ⟨c :: done, none⟩ := by
  have hlt : c.toNat < 0x110000 := c.valid.elim (fun h => Nat.lt_trans h (by decide)) And.right
  have hhigh : isHighSurrogate (0xD800 + (c.toNat - 0x10000) / 1024) = true := by
    simp only [isHighSurrogate, Bool.and_eq_true, decide_eq_true_eq]
    omega
  have hlow : isLowSurrogate (0xDC00 + (c.toNat - 0x10000) % 1024) = true := by
    simp only [isLowSurrogate, Bool.and_eq_true, decide_eq_true_eq]
    omega
  have hvalue : 0x10000 + (0xD800 + (c.toNat - 0x10000) / 1024 - 0xD800) * 1024 +
      (0xDC00 + (c.toNat - 0x10000) % 1024 - 0xDC00) = c.toNat := by omega
  rw [pushUnit_high hhigh, pushUnit_low hlow, charOfPair, hvalue, Char.ofNat_toNat]

theorem length_unitEscape {n : Nat} (hn : n < 0x10000) : (unitEscape n).length = 6 := by
  rw [unitEscape, hexPadded_four hn]
  rfl

/-! ## Strings -/

/-- One character as it has been written. -/
theorem scanString_char (c : Char) (done : List Char) (next : Char) (rest : List Char) :
    scanString start place ⟨done, none⟩ (asciiChar c ++ next :: rest) =
      scanString start (place + (asciiChar c).length) ⟨c :: done, none⟩ (next :: rest) := by
  rcases asciiChar_cases c with ⟨letter, hletter, hc⟩ | ⟨hn, hc⟩ | ⟨hquote, hslash, hlow, hc⟩ | ⟨hn, hc⟩
  · rw [hc]
    exact scanString_short start place hletter done (next :: rest)
  · rw [hc, scanString_unit start place hn, pushUnit_char, length_unitEscape hn]
  · rw [hc, List.singleton_append, scanString.eq_7 _ _ _ _ _ hquote (fun h => absurd h hslash)
      (fun _ _ _ _ _ _ h => absurd h hslash) (fun _ h => absurd h hslash)
      (fun _ _ h => absurd h hslash), if_neg (Nat.not_lt.2 hlow)]
    rfl
  · have hlt : c.toNat < 0x110000 := c.valid.elim (fun h => Nat.lt_trans h (by decide)) And.right
    have hhigh : 0xD800 + (c.toNat - 0x10000) / 1024 < 0x10000 := by omega
    have hlow : 0xDC00 + (c.toNat - 0x10000) % 1024 < 0x10000 := by omega
    rw [hc, List.append_assoc, List.length_append, length_unitEscape hhigh, length_unitEscape hlow]
    refine (scanString_unit start place hhigh _ '\\' _).trans ?_
    refine (scanString_unit start (place + 6) hlow _ next rest).trans ?_
    rw [pushUnit_pair hn]

theorem scanString_written (cs done more : List Char) :
    scanString start place ⟨done, none⟩ (cs.flatMap asciiChar ++ '"' :: more) =
      .ok (cs.reverse ++ done, place + (cs.flatMap asciiChar).length + 1) := by
  induction cs generalizing place done with
  | nil => exact scanString.eq_2 start place ⟨done, none⟩ more
  | cons c cs ih =>
    obtain ⟨next, rest, hrest⟩ : ∃ next rest, cs.flatMap asciiChar ++ '"' :: more = next :: rest :=
      List.exists_cons_of_ne_nil (by simp)
    rw [List.flatMap_cons, List.append_assoc, hrest, scanString_char, ← hrest, ih, List.length_append,
      List.reverse_cons, List.append_assoc, List.singleton_append, Nat.add_assoc place]

/-! ## Trees within the limits -/

/-- The values of JSON, floating numbers apart, with at most `n` containers within each other and whole
numbers that are not too long. -/
inductive Within : Nat → Tree → Prop
  | null {n} : Within n .null
  | bool {n} (b : Bool) : Within n (.scalar (.bool b))
  | text {n} (s : String) : Within n (.text s)
  | int {n} {k : Int} : (Nat.toDigits 10 k.natAbs).length ≤ digitLimit → Within n (.scalar (.int k))
  | list {n ts} : (∀ t ∈ ts, Within n t) → Within (n + 1) (.list none ts)
  | map {n es} : (es.map (·.1)).Nodup → (∀ e ∈ es, ∃ k, e.1 = .text k) →
      (∀ e ∈ es, Within n e.2) → Within (n + 1) (.map none es)

theorem Within.mono {n k : Nat} {t : Tree} (h : Within n t) (hk : n ≤ k) : Within k t := by
  induction h generalizing k with
  | null => exact .null
  | bool b => exact .bool b
  | text s => exact .text s
  | int hlimit => exact .int hlimit
  | list _ ih =>
    obtain ⟨k, rfl⟩ := Nat.exists_eq_add_of_lt hk
    exact .list fun t ht => ih t ht (by omega)
  | map hkeys htexts _ ih =>
    obtain ⟨k, rfl⟩ := Nat.exists_eq_add_of_lt hk
    exact .map hkeys htexts fun e he => ih e he (by omega)

/-! ## Taking characters -/

/-- From the first state and characters on, reading goes on as from the second. -/
def Reads (r : Reader) (cs : List Char) (r' : Reader) (rest : List Char) : Prop :=
  ∀ length position, ∃ position', Reader.run length r (tokensFrom position cs) =
    Reader.run length r' (tokensFrom position' rest)

theorem Reads.trans {r r' r'' : Reader} {cs rest rest' : List Char} (h : Reads r cs r' rest)
    (h' : Reads r' rest r'' rest') : Reads r cs r'' rest' := by
  intro length position
  obtain ⟨position', heq⟩ := h length position
  obtain ⟨position'', heq'⟩ := h' length position'
  exact ⟨position'', heq.trans heq'⟩

theorem run_step {r r' : Reader} {t : Token} (h : r.step t = .ok r') (length position : Nat)
    (rest : List (Token × Nat)) :
    Reader.run length r ((t, position) :: rest) = Reader.run length r' rest := by
  rw [Reader.run.eq_def]
  simp only [h]

/-- One token is taken. -/
theorem reads_token {r r' : Reader} {c : Char} {cs rest : List Char} {t : Token} {n : Nat}
    (hspace : isSpace c = false) (htoken : ∀ position, scanToken position c cs = (t, n))
    (hrest : cs.drop n = rest) (hstep : r.step t = .ok r') : Reads r (c :: cs) r' rest := by
  intro length position
  refine ⟨position + 1 + n, ?_⟩
  rw [tokensFrom, hspace, if_neg Bool.false_ne_true]
  simp only [htoken, hrest]
  exact run_step hstep length position _

/-- What separates or closes is taken as a token of its own. -/
theorem reads_mark {r r' : Reader} {c : Char} {rest : List Char} {t : Token}
    (hspace : isSpace c = false) (htoken : ∀ position rest, scanToken position c rest = (t, 0))
    (hstep : r.step t = .ok r') : Reads r (c :: rest) r' rest :=
  reads_token hspace (fun _ => htoken _ _) List.drop_zero hstep

theorem reads_space (r : Reader) (rest : List Char) : Reads r (' ' :: rest) r rest := by
  intro length position
  refine ⟨position + 1, ?_⟩
  rw [tokensFrom, if_pos (by rfl : isSpace ' ' = true)]

theorem reads_text {r r' : Reader} {s : String} {rest : List Char}
    (hstep : r.step (.scalar (.text s)) = .ok r') :
    Reads r ((stringText true s).toList ++ rest) r' rest := by
  have hlist : (stringText true s).toList ++ rest =
      '"' :: (s.toList.flatMap asciiChar ++ '"' :: rest) := by
    rw [stringText, String.toList_ofList, List.append_assoc]
    rfl
  rw [hlist]
  refine reads_token rfl (n := (s.toList.flatMap asciiChar).length + 1) (fun position => ?_) ?_ hstep
  · have hplace : position + 1 + (s.toList.flatMap asciiChar).length + 1 - position - 1 =
        (s.toList.flatMap asciiChar).length + 1 := by omega
    simp only [scanToken, scanString_written, List.append_nil, List.reverse_reverse,
      String.ofList_toList, hplace]
  · rw [← List.drop_drop, List.drop_left]
    rfl

/-! ## Numbers -/

/-- What follows a value that has been written: nothing, or what separates or closes. -/
def EndsValue (rest : List Char) : Prop :=
  ∀ c ∈ rest.head?, c = ',' ∨ c = ']' ∨ c = '\x7d'

theorem endsValue_cons {c : Char} (hc : c = ',' ∨ c = ']' ∨ c = '\x7d') (rest : List Char) :
    EndsValue (c :: rest) := by
  rintro _ ⟨⟩
  exact hc

theorem toDigits_leading (n : Nat) (c : Char) (cs : List Char) : Nat.toDigits 10 n ≠ '0' :: c :: cs := by
  intro h
  refine Octets.digitOctets_leading n (Octets.digitOctet c) (cs.map Octets.digitOctet) ?_
  rw [Octets.digitOctets, h]
  rfl

theorem isDigit_toDigits (n : Nat) : ∀ c ∈ Nat.toDigits 10 n, c.isDigit = true :=
  fun _ hc => Nat.isDigit_of_mem_toDigits (by decide) (by decide) hc

theorem wholeDigits_written (n : Nat) {rest : List Char} (hrest : EndsValue rest) :
    wholeDigits (Nat.toDigits 10 n ++ rest) = Nat.toDigits 10 n := by
  have hstop : rest.takeWhile Char.isDigit = [] := by
    cases rest with
    | nil => rfl
    | cons c rest => rcases hrest c rfl with rfl | rfl | rfl <;> rfl
  have hall : (Nat.toDigits 10 n ++ rest).takeWhile Char.isDigit = Nat.toDigits 10 n := by
    rw [List.takeWhile_append_of_pos (isDigit_toDigits n), hstop, List.append_nil]
  unfold wholeDigits
  split
  · rename_i more h
    cases hn : Nat.toDigits 10 n with
    | nil => exact absurd hn Nat.toDigits_ne_nil
    | cons c cs =>
      rw [hn, List.cons_append] at h
      obtain ⟨rfl, -⟩ := List.cons.inj h
      cases cs with
      | nil => rfl
      | cons d ds => exact absurd hn (toDigits_leading n d ds)
  · exact hall

theorem digitsValue_toDigits (n : Nat) : digitsValue (Nat.toDigits 10 n) = n := by
  have hfold : ∀ (cs : List Char) (k : Nat),
      cs.foldl (fun n c => 10 * n + (c.toNat - '0'.toNat)) k = Nat.ofDigitChars 10 cs k := by
    intro cs
    induction cs with
    | nil => intro k; rw [Nat.ofDigitChars_nil]; rfl
    | cons c cs ih => intro k; rw [List.foldl_cons, ih, Nat.ofDigitChars_cons]
  exact (hfold _ 0).trans Nat.ofDigitChars_ten_toDigits

theorem scanNumber_written (n : Nat) (negative : Bool) {rest : List Char} (hrest : EndsValue rest)
    (hn : (Nat.toDigits 10 n).length ≤ digitLimit) :
    scanNumber negative (Nat.toDigits 10 n ++ rest) =
      some (.scalar (.int (if negative then -n else n)), (Nat.toDigits 10 n).length) := by
  have hfraction : fractionDigits rest = [] := by
    cases rest with
    | nil => rfl
    | cons c rest => rcases hrest c rfl with rfl | rfl | rfl <;> rfl
  have hexponent : exponentPart rest = none := by
    cases rest with
    | nil => rfl
    | cons c rest => rcases hrest c rfl with rfl | rfl | rfl <;> rfl
  have hne : (Nat.toDigits 10 n).isEmpty = false :=
    List.isEmpty_eq_false_iff.2 Nat.toDigits_ne_nil
  unfold scanNumber
  simp only [wholeDigits_written n hrest, hne, List.drop_left, hfraction, hexponent,
    List.isEmpty_nil, if_true, Nat.add_zero, digitsValue_toDigits, Bool.false_eq_true, if_false]
  rw [if_neg (Nat.not_lt.2 hn)]

theorem scanNumber_tooLong {n : Nat} (hn : digitLimit < (Nat.toDigits 10 n).length) (negative : Bool) :
    scanNumber negative (Nat.toDigits 10 n) =
      some (.fault ⟨.tooManyDigits, 0⟩, (Nat.toDigits 10 n).length) := by
  have hwhole := wholeDigits_written n (show EndsValue [] from nofun)
  rw [List.append_nil] at hwhole
  have hne : (Nat.toDigits 10 n).isEmpty = false :=
    List.isEmpty_eq_false_iff.2 Nat.toDigits_ne_nil
  unfold scanNumber
  simp only [hwhole, hne, List.drop_length, fractionDigits, exponentPart, List.isEmpty_nil, if_true,
    Nat.add_zero, Bool.false_eq_true, if_false]
  rw [if_pos hn]

/-- What holds of the ten digits holds of every digit. -/
theorem of_isDigit {P : Char → Prop} (h : ∀ n, 48 ≤ n → n ≤ 57 → P (Char.ofNat n)) {c : Char}
    (hc : c.isDigit = true) : P c := by
  have hrange := Text.isDigit_iff.1 hc
  have hofNat := h c.toNat hrange.1 hrange.2
  rwa [Char.ofNat_toNat] at hofNat

theorem scanToken_digit {c : Char} (hc : c.isDigit = true) (position : Nat) (rest : List Char) :
    scanToken position c rest = match scanNumber false (c :: rest) with
      | some (t, n) => (t, n - 1)
      | none => (.junk, 0) :=
  of_isDigit (P := fun c => scanToken position c rest = match scanNumber false (c :: rest) with
      | some (t, n) => (t, n - 1)
      | none => (.junk, 0))
    (fun n hlow hhigh => by interval_cases n <;> rfl) hc

theorem scanToken_minus {c : Char} (hc : c.isDigit = true) (position : Nat) (rest : List Char) :
    scanToken position '-' (c :: rest) = match scanNumber true (c :: rest) with
      | some (t, n) => (t, n)
      | none => (.junk, 0) :=
  of_isDigit (P := fun c => scanToken position '-' (c :: rest) = match scanNumber true (c :: rest) with
      | some (t, n) => (t, n)
      | none => (.junk, 0))
    (fun n hlow hhigh => by interval_cases n <;> rfl) hc

theorem isSpace_digit {c : Char} (hc : c.isDigit = true) : isSpace c = false :=
  of_isDigit (P := fun c => isSpace c = false) (fun n hlow hhigh => by interval_cases n <;> rfl) hc

theorem reads_int {r r' : Reader} {n : Int} {rest : List Char}
    (hlimit : (Nat.toDigits 10 n.natAbs).length ≤ digitLimit) (hrest : EndsValue rest)
    (hstep : r.step (.scalar (.int n)) = .ok r') : Reads r ((toString n).toList ++ rest) r' rest := by
  cases n with
  | ofNat n =>
    have htext : (toString (Int.ofNat n)).toList = Nat.toDigits 10 n := Nat.toList_repr
    have hscan := scanNumber_written n false hrest hlimit
    rw [htext]
    cases hn : Nat.toDigits 10 n with
    | nil => exact absurd hn Nat.toDigits_ne_nil
    | cons c cs =>
      have hdigit : c.isDigit = true := isDigit_toDigits n c (hn ▸ List.mem_cons_self)
      rw [hn, List.cons_append] at hscan
      rw [List.cons_append]
      refine reads_token (isSpace_digit hdigit) (fun position => ?_) List.drop_left hstep
      rw [scanToken_digit hdigit, hscan]
      rfl
  | negSucc n =>
    have htext : (toString (Int.negSucc n)).toList = '-' :: Nat.toDigits 10 (n + 1) := by
      show ("-" ++ toString (n + 1)).toList = _
      rw [String.toList_append, Nat.toString_eq_repr, Nat.toList_repr]
      rfl
    have hscan := scanNumber_written (n + 1) true hrest hlimit
    rw [htext, List.cons_append]
    cases hn : Nat.toDigits 10 (n + 1) with
    | nil => exact absurd hn Nat.toDigits_ne_nil
    | cons c cs =>
      have hdigit : c.isDigit = true := isDigit_toDigits (n + 1) c (hn ▸ List.mem_cons_self)
      rw [hn, List.cons_append] at hscan
      refine reads_token rfl (n := cs.length + 1) (fun position => ?_) List.drop_left hstep
      rw [List.cons_append, scanToken_minus hdigit, hscan]
      rfl

/-! ## Values -/

/-- Whether a value may come next. -/
def TakesValue : Expected → Prop
  | .value | .itemOrEnd => True
  | _ => False

theorem step_value {frames : List Frame} {e : Expected} {t : Token} (he : TakesValue e)
    (ht : t ≠ .closeList) : Reader.step ⟨frames, e⟩ t = Reader.takeValue frames t := by
  cases e with
  | value => rfl
  | itemOrEnd => cases t <;> first | rfl | exact absurd rfl ht
  | _ => exact he.elim

theorem step_scalar {frames : List Frame} {e : Expected} {s : Scalar} (he : TakesValue e) :
    Reader.step ⟨frames, e⟩ (.scalar s) = .ok ⟨frames, .separator (.scalar s)⟩ :=
  step_value he (by simp)

/-- A text leads from any state that expects a value inside these containers to the state behind the tree. -/
def ReadsAs (frames : List Frame) (text : String) (t : Tree) : Prop :=
  ∀ (e : Expected) (rest : List Char), TakesValue e → EndsValue rest →
    Reads ⟨frames, e⟩ (text.toList ++ rest) ⟨frames, .separator t⟩ rest

theorem readsAs_word {frames : List Frame} {word : String} {c : Char} {cs : List Char} {s : Scalar}
    (hword : word.toList = c :: cs) (hspace : isSpace c = false)
    (htoken : ∀ position rest, scanToken position c (cs ++ rest) = (.scalar s, cs.length)) :
    ReadsAs frames word (.scalar s) := by
  intro e rest he _
  rw [hword, List.cons_append]
  exact reads_token hspace (fun position => htoken position rest) List.drop_left (step_scalar he)

/-! ## Containers -/

theorem toList_brackets (opening closing text : String) (rest : List Char) :
    (opening ++ text ++ closing).toList ++ rest =
      opening.toList ++ (text.toList ++ (closing.toList ++ rest)) := by
  simp only [String.toList_append, List.append_assoc]

theorem reads_open {frames : List Frame} {opened : Reader} {e : Expected} {c : Char} {t : Token}
    (he : TakesValue e) (hdepth : frames.length < Reader.depthLimit) (hspace : isSpace c = false)
    (htoken : ∀ position rest, scanToken position c rest = (t, 0)) (ht : t ≠ .closeList)
    (htake : Reader.takeValue frames t = Reader.openWithin frames opened) (rest : List Char) :
    Reads ⟨frames, e⟩ (c :: rest) opened rest :=
  reads_mark hspace htoken (by rw [step_value he ht, htake, Reader.openWithin, if_pos hdepth])

/-- The items of a list after its opening bracket, behind those that are done. -/
theorem reads_items {frames : List Frame} {ts : List Tree} {parts : List String}
    (h : List.Forall₂ (fun t part => ∀ done, ReadsAs (.list done :: frames) part t) ts parts)
    (hne : ts ≠ []) (done : List Tree) {e : Expected} (he : TakesValue e) (rest : List Char) :
    Reads ⟨.list done :: frames, e⟩ ((", ".intercalate parts).toList ++ ']' :: rest)
      ⟨frames, .separator (.list none (done.reverse ++ ts))⟩ rest := by
  induction h generalizing done e with
  | nil => exact absurd rfl hne
  | @cons t part ts parts hpart hparts ih =>
    cases hparts with
    | nil =>
      have hclose : Reads ⟨.list done :: frames, .separator t⟩ (']' :: rest)
          ⟨frames, .separator (.list none (t :: done).reverse)⟩ rest :=
        reads_mark rfl (fun _ _ => rfl) rfl
      rw [String.intercalate_singleton, ← List.reverse_cons]
      exact (hpart done e _ he (endsValue_cons (by decide) rest)).trans hclose
    | @cons t' part' ts parts hpart' hparts =>
      have hcomma (more : List Char) : Reads ⟨.list done :: frames, .separator t⟩ (',' :: ' ' :: more)
          ⟨.list (t :: done) :: frames, .value⟩ more :=
        (reads_mark rfl (fun _ _ => rfl) rfl).trans (reads_space _ more)
      have hrest := ih (List.cons_ne_nil t' ts) (t :: done) (show TakesValue .value from trivial)
      rw [List.reverse_cons, List.append_assoc, List.singleton_append] at hrest
      rw [String.intercalate_cons_cons, toList_brackets]
      exact (hpart done e _ he (endsValue_cons (by decide) _)).trans ((hcomma _).trans hrest)

theorem readsAs_list {frames : List Frame} {ts : List Tree} {parts : List String}
    (hdepth : frames.length < Reader.depthLimit)
    (h : List.Forall₂ (fun t part => ∀ done, ReadsAs (.list done :: frames) part t) ts parts) :
    ReadsAs frames ("[" ++ ", ".intercalate parts ++ "]") (.list none ts) := by
  intro e rest he _
  have hopen (more : List Char) :
      Reads ⟨frames, e⟩ ('[' :: more) ⟨.list [] :: frames, .itemOrEnd⟩ more :=
    reads_open he hdepth rfl (fun _ _ => rfl) (by simp) rfl more
  rw [toList_brackets]
  refine (hopen _).trans ?_
  by_cases hne : ts = []
  · subst hne
    cases h
    exact reads_mark rfl (fun _ _ => rfl) rfl
  · exact reads_items h hne [] (show TakesValue .itemOrEnd from trivial) rest

/-- One entry of a map, up to its value. -/
theorem reads_entry {frames : List Frame} {done : Entries} {k text : String} {t : Tree} {e : Expected}
    (he : e = .nameOrEnd done ∨ e = .name done) (ht : ReadsAs (.map done k :: frames) text t)
    {rest : List Char} (hrest : EndsValue rest) :
    Reads ⟨frames, e⟩ ((stringText true k ++ ": " ++ text).toList ++ rest)
      ⟨.map done k :: frames, .separator t⟩ rest := by
  have hkey (more : List Char) : Reads ⟨frames, e⟩ ((stringText true k).toList ++ more)
      ⟨.map done k :: frames, .colon⟩ more := by
    refine reads_text ?_
    rcases he with rfl | rfl <;> rfl
  have hcolon (more : List Char) : Reads ⟨.map done k :: frames, .colon⟩ (':' :: ' ' :: more)
      ⟨.map done k :: frames, .value⟩ more :=
    (reads_mark rfl (fun _ _ => rfl) rfl).trans (reads_space _ more)
  rw [toList_brackets]
  exact (hkey _).trans ((hcolon _).trans (ht .value rest trivial hrest))

/-- The entries of a map after its opening bracket, behind those that are done. -/
theorem reads_entries {frames : List Frame} {es : Entries} {parts : List String}
    (h : List.Forall₂ (fun (e : Scalar × Tree) part => ∃ k text, e.1 = .text k ∧
      (∀ done, ReadsAs (.map done k :: frames) text e.2) ∧ stringText true k ++ ": " ++ text = part)
      es parts)
    (hne : es ≠ []) (done : Entries) (hkeys : ((done ++ es).map (·.1)).Nodup) {e : Expected}
    (he : e = .nameOrEnd done ∨ e = .name done) (rest : List Char) :
    Reads ⟨frames, e⟩ ((", ".intercalate parts).toList ++ '\x7d' :: rest)
      ⟨frames, .separator (.map none (done ++ es))⟩ rest := by
  induction h generalizing done e with
  | nil => exact absurd rfl hne
  | @cons entry part es parts hpart hparts ih =>
    obtain ⟨key, t⟩ := entry
    obtain ⟨k, text, rfl, ht, rfl⟩ := hpart
    have hset : done.set k t = done ++ [(.text k, t)] := by
      refine Entries.put_of_notMem t fun hk => ?_
      rw [List.map_append, List.nodup_append] at hkeys
      exact hkeys.2.2 _ hk _ List.mem_cons_self rfl
    cases hparts with
    | nil =>
      have hclose : Reads ⟨.map done k :: frames, .separator t⟩ ('\x7d' :: rest)
          ⟨frames, .separator (.map none (done.set k t))⟩ rest :=
        reads_mark rfl (fun _ _ => rfl) rfl
      rw [String.intercalate_singleton, ← hset]
      exact (reads_entry he (ht done) (endsValue_cons (by decide) rest)).trans hclose
    | @cons entry' part' es parts hpart' hparts =>
      have hcomma (more : List Char) : Reads ⟨.map done k :: frames, .separator t⟩ (',' :: ' ' :: more)
          ⟨frames, .name (done.set k t)⟩ more :=
        (reads_mark rfl (fun _ _ => rfl) rfl).trans (reads_space _ more)
      have hrest := ih (List.cons_ne_nil entry' es) (done.set k t)
        (by rw [hset, List.append_assoc]; exact hkeys) (.inr rfl)
      rw [hset, List.append_assoc, List.singleton_append, ← hset] at hrest
      rw [String.intercalate_cons_cons, toList_brackets]
      exact (reads_entry he (ht done) (endsValue_cons (by decide) _)).trans ((hcomma _).trans hrest)

theorem readsAs_map {frames : List Frame} {es : Entries} {parts : List String}
    (hdepth : frames.length < Reader.depthLimit) (hkeys : (es.map (·.1)).Nodup)
    (h : List.Forall₂ (fun (e : Scalar × Tree) part => ∃ k text, e.1 = .text k ∧
      (∀ done, ReadsAs (.map done k :: frames) text e.2) ∧ stringText true k ++ ": " ++ text = part)
      es parts) :
    ReadsAs frames ("\x7b" ++ ", ".intercalate parts ++ "\x7d") (.map none es) := by
  intro e rest he _
  have hopen (more : List Char) :
      Reads ⟨frames, e⟩ ('\x7b' :: more) ⟨frames, .nameOrEnd []⟩ more :=
    reads_open he hdepth rfl (fun _ _ => rfl) (by simp) rfl more
  rw [toList_brackets]
  refine (hopen _).trans ?_
  by_cases hne : es = []
  · subst hne
    cases h
    exact reads_mark rfl (fun _ _ => rfl) rfl
  · exact reads_entries h hne [] hkeys (.inl rfl) rest

/-! ## Trees -/

/-- A tree within the limits is read from its text, whatever stands around it. -/
theorem readsAs_print {n : Nat} {t : Tree} (ht : Within n t) {depth : Nat} {text : String}
    (htext : printAt .spaced t depth = some text) {frames : List Frame}
    (hn : frames.length + n ≤ Reader.depthLimit) : ReadsAs frames text t := by
  induction ht generalizing depth text frames with
  | null =>
    cases htext
    have hword : "null".toList = 'n' :: ['u', 'l', 'l'] := rfl
    exact readsAs_word hword rfl fun _ _ => rfl
  | bool b =>
    cases htext
    cases b with
    | true =>
      have hword : "true".toList = 't' :: ['r', 'u', 'e'] := rfl
      exact readsAs_word hword rfl fun _ _ => rfl
    | false =>
      have hword : "false".toList = 'f' :: ['a', 'l', 's', 'e'] := rfl
      exact readsAs_word hword rfl fun _ _ => rfl
  | text s =>
    cases htext
    exact fun e rest he _ => reads_text (step_scalar he)
  | int hk =>
    cases htext
    exact fun e rest he hrest => reads_int hk hrest (step_scalar he)
  | list _ ih =>
    obtain ⟨parts, hparts, rfl⟩ := (printAt_list rfl).1 htext
    refine readsAs_list (by omega) (forall₂_of_mem hparts fun t ht part _ hpart done => ?_)
    exact ih t ht hpart (by rw [List.length_cons]; omega)
  | map hkeys htexts _ ih =>
    obtain ⟨parts, hparts, rfl⟩ := (printAt_map rfl).1 htext
    refine readsAs_map (by omega) hkeys (forall₂_of_mem hparts fun entry hentry part _ hpart => ?_)
    obtain ⟨k, hk⟩ := htexts entry hentry
    obtain ⟨key, text, hkey, htext, rfl⟩ := hpart
    rw [hk] at hkey
    cases hkey
    exact ⟨k, text, hk, fun done => ih entry hentry htext (by rw [List.length_cons]; omega), rfl⟩

/-- A tree within the limits has a text. -/
theorem exists_print {n : Nat} {t : Tree} (ht : Within n t) (depth : Nat) :
    ∃ text, printAt .spaced t depth = some text := by
  induction ht generalizing depth with
  | list _ ih =>
    obtain ⟨parts, hparts⟩ := exists_forall₂.2 fun t ht => ih t ht (depth + 1)
    exact ⟨_, (printAt_list rfl).2 ⟨parts, hparts, rfl⟩⟩
  | @map _ es _ htexts _ ih =>
    have hentries : ∀ entry ∈ es, ∃ part key text, keyText .spaced entry.1 = some key ∧
        printAt .spaced entry.2 (depth + 1) = some text ∧ key ++ ": " ++ text = part := by
      intro entry hentry
      obtain ⟨k, hk⟩ := htexts entry hentry
      obtain ⟨text, htext⟩ := ih entry hentry (depth + 1)
      exact ⟨_, stringText true k, text, hk ▸ rfl, htext, rfl⟩
    obtain ⟨parts, hparts⟩ := exists_forall₂.2 hentries
    exact ⟨_, (printAt_map rfl).2 ⟨parts, hparts, rfl⟩⟩
  | _ => exact ⟨_, rfl⟩

/-- A tree within the limits is read from its text. -/
theorem read_print {t : Tree} {text : String} (ht : Within Reader.depthLimit t)
    (htext : print? .spaced t = some text) : read text = .ok t := by
  have h : ReadsAs [] text t := readsAs_print ht htext (by simp)
  obtain ⟨position, heq⟩ := h .value [] trivial nofun text.toList.length 0
  rw [List.append_nil] at heq
  have hend : Reader.run text.toList.length ⟨[], .separator t⟩ (tokensFrom position []) = .ok t := by
    rw [tokensFrom]
    rfl
  rw [hend] at heq
  unfold read
  dsimp only
  split
  · rename_i more hmark
    rw [hmark, tokensFrom] at heq
    cases heq
  · exact heq

/-- A whole number that is too long is not read from its text. -/
theorem read_tooLong {n : Nat} (hn : digitLimit < (Nat.toDigits 10 n).length) :
    read (toString n) = .error ⟨.tooManyDigits, 0⟩ := by
  have htext : (toString n).toList = Nat.toDigits 10 n := Nat.toList_repr
  have hscan := scanNumber_tooLong hn false
  have hdigits := isDigit_toDigits n
  unfold read
  rw [htext]
  generalize Nat.toDigits 10 n = cs at hscan hdigits
  cases cs with
  | nil => cases hscan
  | cons c cs =>
    have hdigit : c.isDigit = true := hdigits c List.mem_cons_self
    dsimp only
    split
    · rename_i hmark
      cases hmark
      cases hdigit
    · rw [tokensFrom, isSpace_digit hdigit, if_neg Bool.false_ne_true]
      simp only [scanToken_digit hdigit, hscan]
      rfl

end ApiContract.Json
