import ApiContract.Proofs.Json.Printer
import ApiContract.Proofs.Json.Token
import ApiContract.Proofs.Lists

/-!
# Written trees

A tree that has been written as JSON is read again from the octets of the text (`read_encode`), provided
that a reader takes it at all (`Readable`). A value leads from any state that expects one to the state behind
it, whatever follows the value (`readsAs_print`).
-/

namespace ApiContract.Json.Octets

open Text.Utf8

/-- What a reader takes within `n` containers more: texts, truth values, whole numbers of limited length, and
containers of these with texts as keys. -/
inductive Readable : Nat → Tree → Prop
  | null {n} : Readable n .null
  | bool {n} (b : Bool) : Readable n (.scalar (.bool b))
  | text {n} (s : String) : Readable n (.text s)
  | int {n} {k : Int} : (encode (toString k)).length ≤ digitLimit → Readable n (.scalar (.int k))
  | list {n ts} : (ts ≠ [] → 0 < n) → (∀ t ∈ ts, Readable (n - 1) t) → Readable n (.list none ts)
  | map {n es} : (es ≠ [] → 0 < n) → (∀ e ∈ es, ∃ k, e.1 = .text k) →
      (∀ e ∈ es, Readable (n - 1) e.2) → Readable n (.map none es)

/-! ## Reading -/

/-- A text leads from any state that expects a value inside these containers to the state behind the tree. -/
def ReadsAs (frames : List Frame) (text : String) (t : Tree) : Prop :=
  ∀ (e : Expected) (rest : List UInt8), TakesValue e → EndsValue rest →
    Reads ⟨frames, e⟩ (encode text ++ rest) ⟨frames, .separator t⟩ rest

theorem endsValue_cons {b : UInt8} (hb : b = 44 ∨ b = 93 ∨ b = 125) (rest : List UInt8) :
    EndsValue (b :: rest) := by
  rintro _ ⟨⟩
  exact hb

theorem encode_comma : encode "," = [44] := by
  rw [encode_eq]
  rfl

/-- The items of a list after its opening bracket, behind those that are done. -/
theorem reads_items {frames : List Frame} {ts : List Tree} {parts : List String}
    (h : List.Forall₂ (fun t part => ∀ done, ReadsAs (.list done :: frames) part t) ts parts)
    (hne : ts ≠ []) (done : List Tree) {e : Expected} (he : TakesValue e) (rest : List UInt8) :
    Reads ⟨.list done :: frames, e⟩ (encode (",".intercalate parts) ++ 93 :: rest)
      ⟨frames, .separator (.list none (done.reverse ++ ts))⟩ rest := by
  induction h generalizing done e with
  | nil => exact absurd rfl hne
  | @cons t part ts parts hpart hparts ih =>
    cases hparts with
    | nil =>
      have hclose : Reads ⟨.list done :: frames, .separator t⟩ (93 :: rest)
          ⟨frames, .separator (.list none (t :: done).reverse)⟩ rest :=
        reads_mark rfl (fun _ _ _ => rfl) fun _ => rfl
      rw [String.intercalate_singleton, ← List.reverse_cons]
      exact (hpart done e _ he (endsValue_cons (by decide) rest)).trans hclose
    | @cons t' part' ts parts hpart' hparts =>
      have hcomma (more : List UInt8) : Reads ⟨.list done :: frames, .separator t⟩ (44 :: more)
          ⟨.list (t :: done) :: frames, .itemAfterComma⟩ more :=
        reads_mark rfl (fun _ _ _ => rfl) fun _ => rfl
      have hrest := ih (List.cons_ne_nil t' ts) (t :: done) (show TakesValue .itemAfterComma from trivial)
      rw [List.reverse_cons, List.append_assoc, List.singleton_append] at hrest
      rw [String.intercalate_cons_cons, encode_append, encode_append, encode_comma, List.append_assoc,
        List.append_assoc, List.singleton_append]
      exact (hpart done e _ he (endsValue_cons (by decide) _)).trans ((hcomma _).trans hrest)

theorem encode_brackets {opening closing : String} {a b : UInt8}
    (ha : opening.toList.flatMap String.utf8EncodeChar = [a])
    (hb : closing.toList.flatMap String.utf8EncodeChar = [b]) (text : String) (rest : List UInt8) :
    encode (opening ++ text ++ closing) ++ rest = a :: (encode text ++ b :: rest) := by
  rw [encode_append, encode_append, encode_eq opening, encode_eq closing, ha, hb, List.append_assoc,
    List.append_assoc]
  rfl

theorem encode_nothing : encode (",".intercalate []) = [] := by
  rw [String.intercalate_nil, encode_eq]
  rfl

theorem readsAs_list {frames : List Frame} {ts : List Tree} {parts : List String}
    (hdepth : frames.length ≤ Reader.depthLimit)
    (h : List.Forall₂ (fun t part => ∀ done, ReadsAs (.list done :: frames) part t) ts parts) :
    ReadsAs frames ("[" ++ ",".intercalate parts ++ "]") (.list none ts) := by
  intro e rest he _
  have hopen (more : List UInt8) : Reads ⟨frames, e⟩ (91 :: more) ⟨.list [] :: frames, .itemOrEnd⟩ more := by
    refine reads_mark rfl (fun _ _ _ => rfl) fun position => ?_
    rw [step_value he (by simp), Reader.takeValue, if_neg (Nat.not_lt.2 hdepth)]
  rw [encode_brackets rfl rfl]
  refine (hopen _).trans ?_
  by_cases hne : ts = []
  · have hclose : Reads ⟨.list [] :: frames, .itemOrEnd⟩ (93 :: rest)
        ⟨frames, .separator (.list none [])⟩ rest :=
      reads_mark rfl (fun _ _ _ => rfl) fun _ => rfl
    subst hne
    cases h
    rw [encode_nothing]
    exact hclose
  · exact reads_items h hne [] (show TakesValue .itemOrEnd from trivial) rest

/-- One entry of a map, up to its value. -/
theorem reads_entry {frames : List Frame} {done : Entries} {k text : String} {t : Tree} {e : Expected}
    (he : e = .keyOrEnd done ∨ e = .keyAfterComma done) (ht : ReadsAs (.map done k :: frames) text t)
    {rest : List UInt8} (hrest : EndsValue rest) :
    Reads ⟨frames, e⟩ (encode (stringText false k ++ ":" ++ text) ++ rest)
      ⟨.map done k :: frames, .separator t⟩ rest := by
  have hkey (more : List UInt8) : Reads ⟨frames, e⟩ (encode (stringText false k) ++ more)
      ⟨.map done k :: frames, .colon⟩ more := by
    refine reads_text fun position => ?_
    rcases he with rfl | rfl <;> rfl
  have hcolon (more : List UInt8) : Reads ⟨.map done k :: frames, .colon⟩ (58 :: more)
      ⟨.map done k :: frames, .value⟩ more :=
    reads_mark rfl (fun _ _ _ => rfl) fun _ => rfl
  have hmark : encode ":" = [58] := by rw [encode_eq]; rfl
  rw [encode_append, encode_append, hmark, List.append_assoc, List.append_assoc, List.singleton_append]
  exact (hkey _).trans ((hcolon _).trans (ht .value rest trivial hrest))

/-- The entries of a map after its opening bracket, behind those that are done. -/
theorem reads_entries {frames : List Frame} {es : Entries} {parts : List String}
    (h : List.Forall₂ (fun (e : Scalar × Tree) part => ∃ k text, e.1 = .text k ∧
      (∀ done, ReadsAs (.map done k :: frames) text e.2) ∧ stringText false k ++ ":" ++ text = part)
      es parts)
    (hne : es ≠ []) (done : Entries) {e : Expected} (he : e = .keyOrEnd done ∨ e = .keyAfterComma done)
    (rest : List UInt8) :
    Reads ⟨frames, e⟩ (encode (",".intercalate parts) ++ 125 :: rest)
      ⟨frames, .separator (.map none (done.reverse ++ es))⟩ rest := by
  induction h generalizing done e with
  | nil => exact absurd rfl hne
  | @cons entry part es parts hpart hparts ih =>
    obtain ⟨key, t⟩ := entry
    obtain ⟨k, text, rfl, ht, rfl⟩ := hpart
    cases hparts with
    | nil =>
      have hclose : Reads ⟨.map done k :: frames, .separator t⟩ (125 :: rest)
          ⟨frames, .separator (.map none ((.text k, t) :: done).reverse)⟩ rest :=
        reads_mark rfl (fun _ _ _ => rfl) fun _ => rfl
      rw [String.intercalate_singleton, ← List.reverse_cons]
      exact (reads_entry he (ht done) (endsValue_cons (by decide) rest)).trans hclose
    | @cons entry' part' es parts hpart' hparts =>
      have hcomma (more : List UInt8) : Reads ⟨.map done k :: frames, .separator t⟩ (44 :: more)
          ⟨frames, .keyAfterComma ((.text k, t) :: done)⟩ more :=
        reads_mark rfl (fun _ _ _ => rfl) fun _ => rfl
      have hrest := ih (List.cons_ne_nil entry' es) ((.text k, t) :: done) (.inr rfl)
      rw [List.reverse_cons, List.append_assoc, List.singleton_append] at hrest
      rw [String.intercalate_cons_cons, encode_append (_ ++ ","), encode_append _ ",", encode_comma,
        List.append_assoc, List.append_assoc, List.singleton_append]
      exact (reads_entry he (ht done) (endsValue_cons (by decide) _)).trans ((hcomma _).trans hrest)

theorem readsAs_map {frames : List Frame} {es : Entries} {parts : List String}
    (hdepth : frames.length ≤ Reader.depthLimit)
    (h : List.Forall₂ (fun (e : Scalar × Tree) part => ∃ k text, e.1 = .text k ∧
      (∀ done, ReadsAs (.map done k :: frames) text e.2) ∧ stringText false k ++ ":" ++ text = part)
      es parts) :
    ReadsAs frames ("\x7b" ++ ",".intercalate parts ++ "\x7d") (.map none es) := by
  intro e rest he _
  have hopen (more : List UInt8) : Reads ⟨frames, e⟩ (123 :: more) ⟨frames, .keyOrEnd []⟩ more := by
    refine reads_mark rfl (fun _ _ _ => rfl) fun position => ?_
    rw [step_value he (by simp), Reader.takeValue, if_neg (Nat.not_lt.2 hdepth)]
  rw [encode_brackets rfl rfl]
  refine (hopen _).trans ?_
  by_cases hne : es = []
  · have hclose : Reads ⟨frames, .keyOrEnd []⟩ (125 :: rest) ⟨frames, .separator (.map none [])⟩ rest :=
      reads_mark rfl (fun _ _ _ => rfl) fun _ => rfl
    subst hne
    cases h
    rw [encode_nothing]
    exact hclose
  · exact reads_entries h hne [] (.inl rfl) rest

/-- A readable tree is read from its text, whatever stands around it. -/
theorem readsAs_print {n : Nat} {t : Tree} (ht : Readable n t) {depth : Nat} {text : String}
    (htext : printAt .compact t depth = some text) {frames : List Frame}
    (hn : frames.length + n ≤ Reader.depthLimit) : ReadsAs frames text t := by
  induction ht generalizing depth text frames with
  | null =>
    cases htext
    exact fun e rest he _ =>
      reads_word "null" "ull" rfl rfl (fun _ _ _ => rfl) (step_scalar he (by omega))
  | bool b =>
    cases htext
    intro e rest he _
    cases b with
    | true => exact reads_word "true" "rue" rfl rfl (fun _ _ _ => rfl) (step_scalar he (by omega))
    | false => exact reads_word "false" "alse" rfl rfl (fun _ _ _ => rfl) (step_scalar he (by omega))
  | text s =>
    cases htext
    exact fun e rest he _ => reads_text (step_text he (by omega))
  | int hk =>
    cases htext
    exact fun e rest he hrest => reads_int hk hrest (step_scalar he (by omega))
  | @list n ts hpos _ ih =>
    obtain ⟨parts, hparts, rfl⟩ := (printAt_list rfl).1 htext
    refine readsAs_list (by omega) (forall₂_of_mem hparts fun t ht part _ hpart done => ?_)
    have hpos := hpos (List.ne_nil_of_mem ht)
    exact ih t ht hpart (by rw [List.length_cons]; omega)
  | @map n es hpos hkeys _ ih =>
    obtain ⟨parts, hparts, rfl⟩ := (printAt_map rfl).1 htext
    refine readsAs_map (by omega) (forall₂_of_mem hparts fun entry hentry part _ hpart => ?_)
    obtain ⟨k, hk⟩ := hkeys entry hentry
    obtain ⟨key, text, hkey, htext, rfl⟩ := hpart
    rw [hk] at hkey
    cases hkey
    have hpos := hpos (List.ne_nil_of_mem hentry)
    exact ⟨k, text, hk, fun done => ih entry hentry htext (by rw [List.length_cons]; omega), rfl⟩

/-- A tree that is readable is read from its text. -/
theorem read_encode {t : Tree} {text : String} (ht : Readable Reader.depthLimit t)
    (htext : print? .compact t = some text) : read (encode text) = .ok t := by
  have h : ReadsAs [] text t := readsAs_print ht htext (by simp)
  obtain ⟨position, heq⟩ := h .value [] trivial nofun (encode text).length 0
  rw [List.append_nil] at heq
  rw [read, heq, tokensFrom]
  rfl

end ApiContract.Json.Octets
