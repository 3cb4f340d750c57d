import ApiContract.Document.Library
import ApiContract.Proofs.Tree.Plain

/-!
# Pointers

* `keysOf`: the keys that a pointer stands for, and `Tree.down?`: the way along keys.
* `walk_eq_ok`: following a pointer succeeds exactly where the way ends at a map that is no
  reference.
* `split_rooted`: a reference `#/pointer` names no other document.
* `keysOf_schemaPointer`: the reference to a schema leads to its entry in the table, whatever
  characters its name has.
* `Library.target?`: where a reference leads, with `target?_eq_some` as its meaning.
-/

namespace ApiContract

/-- What keys lead to, through maps. -/
def Tree.down? (t : Tree) : List String → Option Tree
  | [] => some t
  | key :: keys => (t.get? key).bind (Tree.down? · keys)

namespace Reference

/-- The keys that a pointer without its leading slash stands for. -/
def keysOf (pointer : String) : List String :=
  (splitAtChar '/' pointer).map unescape

theorem toSchema_eq (name : String) : toSchema name = "#/" ++ schemaPointer name := by
  have h : schemaTable = "#/" ++ tablePointer := by simp [schemaTable, tablePointer]
  rw [toSchema, schemaPointer, h, String.append_assoc]

/-! ## References as trees -/

theorem ofTree?_map (a : Anchor) (es : Entries) :
    ofTree? (.map a es) = (es.at? (.text "$ref")).bind Tree.text? := rfl

theorem ofTree?_asTree (r : String) : ofTree? (asTree r) = some r := by
  simp [asTree, Tree.object, ofTree?_map, Entries.at?_cons, Tree.text?]

@[simp] theorem plain_asTree (r : String) : Tree.Plain (asTree r) := by
  simp [asTree, Tree.object, Tree.Distinct, Scalar.anchor]

/-! ## Splitting -/

theorem splitBy_ne_nil (p : Char → Bool) : ∀ cs, splitBy p cs ≠ []
  | [] => by simp [splitBy]
  | c :: cs => by
    rw [splitBy]
    split
    · simp
    · split <;> simp

/-- A text up to the first separator, then the rest. -/
theorem splitBy_append {p : Char → Bool} {c : Char} (hc : p c = true) (ys : List Char) :
    ∀ {l : List Char}, (∀ x ∈ l, p x = false) → splitBy p (l ++ c :: ys) = l :: splitBy p ys
  | [], _ => by simp [splitBy, hc]
  | x :: xs, h => by
    rw [List.cons_append, splitBy, splitBy_append hc ys fun y hy => h y (List.mem_cons_of_mem _ hy),
      if_neg (by simp [h x List.mem_cons_self])]

theorem splitBy_of_notMem {p : Char → Bool} :
    ∀ {l : List Char}, (∀ x ∈ l, p x = false) → splitBy p l = [l]
  | [], _ => rfl
  | x :: xs, h => by
    rw [splitBy, splitBy_of_notMem fun y hy => h y (List.mem_cons_of_mem _ hy),
      if_neg (by simp [h x List.mem_cons_self])]

/-- A text that is one part holds no separator. -/
theorem eq_of_splitBy {p : Char → Bool} :
    ∀ {cs part : List Char}, splitBy p cs = [part] → part = cs
  | [], part, h => by simp_all [splitBy]
  | c :: cs, part, h => by
    rw [splitBy] at h
    split at h
    · exact absurd (List.cons.inj h).2 (splitBy_ne_nil p cs)
    · split at h
      · rename_i first parts he
        obtain ⟨rfl, rfl⟩ := List.cons.inj h
        rw [eq_of_splitBy he]
      · exact absurd ‹_› (splitBy_ne_nil p cs)

/-- No part holds a separator. -/
theorem splitBy_parts {p : Char → Bool} :
    ∀ {cs part : List Char}, part ∈ splitBy p cs → ∀ x ∈ part, p x = false
  | [], part, h => by simp_all [splitBy]
  | c :: cs, part, h => by
    rw [splitBy] at h
    split at h
    · rcases List.mem_cons.1 h with rfl | h
      · simp
      · exact splitBy_parts h
    · rename_i hc
      split at h
      · rename_i first parts he
        rcases List.mem_cons.1 h with rfl | h
        · refine List.forall_mem_cons.2 ⟨by simpa using hc, ?_⟩
          exact splitBy_parts (by rw [he]; exact List.mem_cons_self)
        · exact splitBy_parts (by rw [he]; exact List.mem_cons_of_mem _ h)
      · exact absurd ‹_› (splitBy_ne_nil p cs)

theorem mem_of_mem_splitBy {p : Char → Bool} {x : Char} :
    ∀ {cs part : List Char}, part ∈ splitBy p cs → x ∈ part → x ∈ cs
  | [], part, h, hx => by simp_all [splitBy]
  | c :: cs, part, h, hx => by
    rw [splitBy] at h
    split at h
    · rcases List.mem_cons.1 h with rfl | h
      · exact absurd hx List.not_mem_nil
      · exact List.mem_cons_of_mem _ (mem_of_mem_splitBy h hx)
    · split at h
      · rename_i first parts he
        rcases List.mem_cons.1 h with rfl | h
        · rcases List.mem_cons.1 hx with rfl | hx
          · exact List.mem_cons_self
          · exact List.mem_cons_of_mem _
              (mem_of_mem_splitBy (by rw [he]; exact List.mem_cons_self) hx)
        · exact List.mem_cons_of_mem _
            (mem_of_mem_splitBy (by rw [he]; exact List.mem_cons_of_mem _ h) hx)
      · exact absurd ‹_› (splitBy_ne_nil p cs)

/-- The fragment starts with a slash and holds no hash. -/
theorem split_fragment {reference document fragment : String}
    (h : split reference = .ok (document, fragment)) :
    '#' ∉ (relative fragment).toList := by
  simp only [split] at h
  split at h
  · rename_i d f hs
    split at h
    · cases h
      have hf : fragment.toList ∈ splitBy (· == '#') reference.toList := by
        obtain ⟨cs, hcs, rfl⟩ := List.mem_map.1 (hs ▸ by simp : fragment ∈ splitAtChar '#' reference)
        simpa using hcs
      intro hm
      rw [relative, String.toList_ofList] at hm
      simpa using splitBy_parts hf _ (List.mem_of_mem_drop hm)
    · cases h
  · cases h

theorem relative_slash (pointer : String) : relative ("/" ++ pointer) = pointer := by
  simp [relative]

/-- A reference that starts with a hash names no other document. -/
theorem split_rooted {pointer : String} (h : '#' ∉ pointer.toList) :
    split ("#/" ++ pointer) = .ok ("", "/" ++ pointer) := by
  have hs : splitAtChar '#' ("#/" ++ pointer) = ["", "/" ++ pointer] := by
    rw [splitAtChar, String.toList_append]
    have := splitBy_append (p := (· == '#')) (c := '#') (by simp) ('/' :: pointer.toList) (l := [])
      (by simp)
    have hr := splitBy_of_notMem (p := (· == '#')) (l := '/' :: pointer.toList) (by
      intro x hx
      rcases List.mem_cons.1 hx with rfl | hx
      · decide
      · simpa using fun he : x = '#' => h (he ▸ hx))
    rw [hr, List.nil_append] at this
    show (splitBy _ ('#' :: '/' :: pointer.toList)).map String.ofList = _
    rw [this, List.map_cons, List.map_cons, List.map_nil]
    refine congrArg (["", ·]) (String.toList_inj.1 ?_)
    simp
  simp [split, hs]

/-- What a reference that starts with a hash is split into. -/
theorem eq_of_split_rooted {pointer document fragment : String}
    (h : split ("#/" ++ pointer) = .ok (document, fragment)) :
    document = "" ∧ fragment = "/" ++ pointer := by
  simp only [split] at h
  split at h
  · rename_i d f hs
    split at h
    · cases h
      have hsplit : splitBy (· == '#') ("#/" ++ pointer).toList
          = [] :: splitBy (· == '#') ("/" ++ pointer).toList := by
        simp [splitBy]
      rw [splitAtChar, hsplit, List.map_cons, List.cons.injEq, List.map_eq_singleton_iff] at hs
      obtain ⟨rfl, cs, hcs, rfl⟩ := hs
      rw [eq_of_splitBy hcs, String.ofList_toList]
      exact ⟨rfl, rfl⟩
    · cases h
  · cases h

/-! ## Escaped names -/

theorem unescapeSlash_cons {c : Char} (h : c ≠ '~') (cs : List Char) :
    unescapeSlash (c :: cs) = c :: unescapeSlash cs := by
  rw [unescapeSlash]
  rintro cs' rfl
  exact absurd rfl h

theorem unescapeTilde_cons {c : Char} (h : c ≠ '~') (cs : List Char) :
    unescapeTilde (c :: cs) = c :: unescapeTilde cs := by
  rw [unescapeTilde]
  rintro cs' rfl
  exact absurd rfl h

theorem unescape_chars :
    ∀ cs : List Char, unescapeTilde (unescapeSlash (cs.flatMap escapeChar)) = cs
  | [] => rfl
  | c :: cs => by
    have ih := unescape_chars cs
    rw [List.flatMap_cons]
    by_cases ht : c = '~'
    · subst ht
      show unescapeTilde (unescapeSlash ('~' :: '0' :: cs.flatMap escapeChar)) = _
      rw [unescapeSlash, unescapeSlash_cons (by decide), unescapeTilde, ih]
      rintro _ _ ⟨⟩
    · by_cases hs : c = '/'
      · subst hs
        show unescapeTilde (unescapeSlash ('~' :: '1' :: cs.flatMap escapeChar)) = _
        rw [unescapeSlash, unescapeTilde_cons (by decide), ih]
      · have he : escapeChar c = [c] := by
          unfold escapeChar
          split <;> simp_all
        rw [he, List.singleton_append, unescapeSlash_cons ht, unescapeTilde_cons ht, ih]

/-- A name survives being written in a pointer. -/
theorem unescape_escape (name : String) : unescape (escape name) = name := by
  rw [unescape, escape, String.toList_ofList, unescape_chars, String.ofList_toList]

theorem mem_escape {name : String} {c : Char} (h : c ∈ (escape name).toList) :
    c ≠ '/' ∧ (c ∈ name.toList ∨ c ∈ ['~', '0', '1']) := by
  rw [escape, String.toList_ofList, List.mem_flatMap] at h
  obtain ⟨d, hd, hc⟩ := h
  unfold escapeChar at hc
  split at hc
  · simp at hc; rcases hc with rfl | rfl <;> simp
  · simp at hc; rcases hc with rfl | rfl <;> simp
  · rename_i hs
    obtain rfl : c = d := by simpa using hc
    exact ⟨hs, .inl hd⟩

theorem mem_unescapeSlash {c : Char} (hc : c ≠ '/') :
    ∀ {cs : List Char}, c ∈ unescapeSlash cs → c ∈ cs := by
  intro cs
  induction cs using unescapeSlash.induct with
  | case1 rest ih => intro h; rw [unescapeSlash] at h; simp_all
  | case2 d rest hne ih =>
    intro h
    rw [unescapeSlash] at h
    · simp_all; tauto
    · exact hne
  | case3 => exact id

theorem mem_unescapeTilde {c : Char} (hc : c ≠ '~') :
    ∀ {cs : List Char}, c ∈ unescapeTilde cs → c ∈ cs := by
  intro cs
  induction cs using unescapeTilde.induct with
  | case1 rest ih => intro h; rw [unescapeTilde] at h; simp_all
  | case2 d rest hne ih =>
    intro h
    rw [unescapeTilde] at h
    · simp_all; tauto
    · exact hne
  | case3 => exact id

/-- The keys of a pointer without a hash have none. -/
theorem hash_notMem_keysOf {pointer key : String} (h : '#' ∉ pointer.toList)
    (hk : key ∈ keysOf pointer) : '#' ∉ key.toList := by
  obtain ⟨seg, hseg, rfl⟩ := List.mem_map.1 hk
  obtain ⟨cs, hcs, rfl⟩ := List.mem_map.1 hseg
  intro hm
  rw [unescape, String.toList_ofList, String.toList_ofList] at hm
  exact h (mem_of_mem_splitBy hcs
    (mem_unescapeSlash (by decide) (mem_unescapeTilde (by decide) hm)))

/-- The keys of the way to a schema. -/
theorem keysOf_schemaPointer (name : String) :
    keysOf (schemaPointer name) = ["components", "schemas", name] := by
  have h : (schemaPointer name).toList
      = "components".toList ++ '/' :: ("schemas".toList ++ '/' :: (escape name).toList) := by
    simp [schemaPointer, tablePointer]
  rw [keysOf, splitAtChar, h, splitBy_append (by simp) _ (by simp),
    splitBy_append (by simp) _ (by simp),
    splitBy_of_notMem fun c hc => by simpa using (mem_escape hc).1]
  simp only [List.map_cons, List.map_nil, String.ofList_toList, unescape_escape]
  simp [unescape, unescapeSlash, unescapeTilde]

theorem hash_notMem_schemaPointer {name : String} (h : '#' ∉ name.toList) :
    '#' ∉ (schemaPointer name).toList := by
  rw [schemaPointer, String.toList_append, List.mem_append, not_or]
  refine ⟨by simp [tablePointer], fun hm => ?_⟩
  rcases (mem_escape hm).2 with hm | hm
  · exact h hm
  · simp at hm

/-! ## Following a pointer -/

/-- Following a pointer succeeds exactly where the way ends at a map that is no reference; the target
has the last key as its name. -/
theorem follow_eq_ok {reference : String} {target : Target} :
    ∀ {l : List String} {t : Tree} {walked : List String} {name : String},
      follow reference l t walked name = .ok target ↔
        t.down? (l.map unescape) = some target.tree ∧ ofEntries? target.entries = none ∧
          target.name = ((l.map unescape).getLast?).getD name
  | [], t, walked, name => by
    simp only [List.map_nil, Tree.down?, Option.some.injEq, List.getLast?_nil, Option.getD_none]
    cases t with
    | map a es =>
      simp only [follow, Target.tree, Tree.map.injEq]
      constructor
      · intro h
        split at h
        · cases h
        · rename_i hes
          cases h
          exact ⟨⟨rfl, rfl⟩, hes, rfl⟩
      · rintro ⟨⟨rfl, rfl⟩, hes, rfl⟩
        rw [hes]
    | _ => simp [follow, Target.tree]
  | seg :: segs, t, walked, name => by
    simp only [follow, List.map_cons, Tree.down?, Tree.get?]
    cases t.entries? with
    | none => simp
    | some es =>
      simp only [Option.bind_some]
      cases es.get? (unescape seg) with
      | none => simp
      | some child =>
        simp only [Option.bind_some, follow_eq_ok (l := segs), List.getLast?_cons]
        simp

/-- What a pointer without its leading slash leads to. -/
def Leads (t : Tree) (pointer : String) (target : Target) : Prop :=
  t.down? (keysOf pointer) = some target.tree ∧ ofEntries? target.entries = none ∧
    target.name = ((keysOf pointer).getLast?).getD ""

theorem walk_eq_ok {reference fragment : String} {t : Tree} {target : Target} :
    walk reference t fragment = .ok target ↔ Leads t (relative fragment) target :=
  follow_eq_ok

theorem Leads.ofTree?_eq_none {t : Tree} {pointer : String} {target : Target}
    (h : Leads t pointer target) : ofTree? target.tree = none :=
  h.2.1

theorem Leads.hash_notMem {t : Tree} {pointer : String} {target : Target}
    (h : Leads t pointer target) (hp : '#' ∉ pointer.toList) : '#' ∉ target.name.toList := by
  rw [h.2.2]
  cases hl : (keysOf pointer).getLast? with
  | none => simp
  | some key => exact hash_notMem_keysOf hp (List.mem_of_getLast? hl)

end Reference

/-- The parts of a plain tree are plain. -/
theorem Tree.Plain.down {t : Tree} :
    ∀ {l : List String} {u : Tree}, Plain t → t.down? l = some u → Plain u := by
  intro l
  induction l generalizing t with
  | nil => rintro u ht ⟨⟩; exact ht
  | cons key l ih =>
    intro u ht hu
    obtain ⟨x, hx, hxu⟩ := Option.bind_eq_some_iff.1 hu
    cases t with
    | map a es => exact ih ((plain_map.1 ht).2.2 _ (Entries.mem_of_at? hx)).2 hxu
    | _ => cases hx

theorem Tree.plain_getD {t : Tree} (h : Plain t) (key : String) : Plain (t.getD key) := by
  rw [Tree.getD]
  cases hx : t.get? key with
  | none => exact plain_scalar.2 rfl
  | some x => exact h.down (l := [key]) (by simp [Tree.down?, hx])

/-! ## Where references lead -/

namespace Library

/-- Where a reference of the document at a path leads. -/
def target? (library : Library) (referrer : Place) (reference : String) : Option Resolved :=
  match Reference.split reference with
  | .error _ => none
  | .ok (other, fragment) =>
    match library.get (pathOf referrer other) with
    | .error _ => none
    | .ok document =>
      match Reference.walk reference document fragment with
      | .error _ => none
      | .ok target => some ⟨pathOf referrer other, Reference.relative fragment, target⟩

/-- What a reference is resolved to is where it leads. -/
theorem target?_of_resolve {library : Library} {referrer : Place} {reference : String}
    {res : Resolved} (h : library.resolve referrer reference = .ok res) :
    library.target? referrer reference = some res := by
  simp only [resolve, bind, Except.bind] at h
  split at h
  · cases h
  rename_i parts hs
  split at h
  · cases h
  split at h
  · cases h
  rename_i document hd
  split at h
  · cases h
  rename_i target ht
  cases h
  simp only [target?, hs, hd, ht]

theorem target?_eq_some {library : Library} {referrer : Place} {reference : String}
    {res : Resolved} :
    library.target? referrer reference = some res ↔
      ∃ other fragment document, Reference.split reference = .ok (other, fragment) ∧
        res.path = pathOf referrer other ∧ res.pointer = Reference.relative fragment ∧
          library.get res.path = .ok document ∧
            Reference.Leads document res.pointer res.target := by
  unfold target?
  constructor
  · intro h
    split at h
    · cases h
    rename_i other fragment hs
    split at h
    · cases h
    rename_i document hd
    split at h
    · cases h
    rename_i target ht
    cases h
    exact ⟨other, fragment, document, hs, rfl, rfl, hd, Reference.walk_eq_ok.1 ht⟩
  · rintro ⟨other, fragment, document, hs, hp, hptr, hd, ht⟩
    rw [hptr] at ht
    simp only [hs, ← hp, hd, Reference.walk_eq_ok.2 ht, ← hptr]

theorem hash_notMem_pointer {library : Library} {referrer : Place} {reference : String}
    {res : Resolved} (h : library.target? referrer reference = some res) :
    '#' ∉ res.pointer.toList := by
  obtain ⟨_, _, _, hs, -, hp, -⟩ := target?_eq_some.1 h
  exact hp ▸ Reference.split_fragment hs

/-- The target of a reference is no reference. -/
theorem ofTree?_target {library : Library} {referrer : Place} {reference : String}
    {res : Resolved} (h : library.target? referrer reference = some res) :
    Reference.ofTree? res.target.tree = none := by
  obtain ⟨_, _, _, -, -, -, -, hl⟩ := target?_eq_some.1 h
  exact hl.ofTree?_eq_none

/-- A reference that starts with a hash leads into the document that holds it. -/
theorem target?_rooted {library : Library} {referrer : Place} {pointer : String} {document : Tree}
    {target : Reference.Target} (hp : '#' ∉ pointer.toList)
    (hd : library.get referrer = .ok document) (hl : Reference.Leads document pointer target) :
    library.target? referrer ("#/" ++ pointer) = some ⟨referrer, pointer, target⟩ :=
  target?_eq_some.2 ⟨_, _, document, Reference.split_rooted hp, rfl,
    (Reference.relative_slash pointer).symm, hd, hl⟩

/-- Where a reference that starts with a hash leads. -/
theorem eq_of_target?_rooted {library : Library} {referrer : Place} {pointer : String}
    {res : Resolved} (h : library.target? referrer ("#/" ++ pointer) = some res) :
    res.path = referrer ∧ res.pointer = pointer := by
  obtain ⟨other, fragment, _, hs, hpath, hp, -⟩ := target?_eq_some.1 h
  obtain ⟨rfl, rfl⟩ := Reference.eq_of_split_rooted hs
  exact ⟨hpath, hp.trans (Reference.relative_slash pointer)⟩

end Library

end ApiContract
