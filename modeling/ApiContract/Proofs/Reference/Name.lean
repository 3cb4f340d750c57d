import ApiContract.Proofs.Except
import ApiContract.Proofs.Reference.Pointer

/-!
# Names in references

A name stands in a reference with its tildes and then its slashes replaced, and reading it takes both back, the
slashes first (`escape_eq_replaceAll`, `unescape_eq_replaceAll`). In this order the two undo each other for every
name, also for one that looks escaped itself, so that references are told apart just as names are
(`toSchema_faithful`).

* `schemaName_toSchema`: a reference to a schema is read as its name, unless the name is empty.
* `resolveLocal_toSchema`: where it leads in a document, if the name holds no hash; a hash cannot be escaped
  (`resolveLocal_toSchema_hash`).
-/

namespace ApiContract.Reference

/-! ## Replacing -/

/-- Replaces a text, which is not empty, wherever it occurs, from left to right. -/
def replaceAll (old new : List Char) : List Char → List Char
  | [] => []
  | c :: cs =>
    if old.isPrefixOf (c :: cs) then new ++ replaceAll old new (cs.drop (old.length - 1))
    else c :: replaceAll old new cs
termination_by cs => cs.length

/-- A single character is replaced in its place. -/
theorem replaceAll_singleton (c : Char) (new cs : List Char) :
    replaceAll [c] new cs = cs.flatMap fun d => if d = c then new else [d] := by
  induction cs with
  | nil => rw [replaceAll, List.flatMap_nil]
  | cons d cs ih =>
    rw [replaceAll, List.flatMap_cons]
    by_cases h : d = c
    · subst h
      simp [ih]
    · simp [h, Ne.symm h, ih]

theorem escapeChar_eq (c : Char) : escapeChar c =
    (if c = '~' then ['~', '0'] else [c]).flatMap fun d => if d = '/' then ['~', '1'] else [d] := by
  unfold escapeChar
  split
  · rfl
  · rfl
  · simp_all

/-- A name is escaped by two replacements. -/
theorem escape_eq_replaceAll (name : String) : escape name =
    String.ofList (replaceAll ['/'] ['~', '1'] (replaceAll ['~'] ['~', '0'] name.toList)) := by
  rw [escape, replaceAll_singleton, replaceAll_singleton, List.flatMap_assoc]
  exact congrArg _ (List.flatMap_congr fun c _ => escapeChar_eq c)

theorem replaceAll_of_not_prefix {old new cs : List Char} {c : Char} (h : ∀ rest, c :: cs ≠ old ++ rest) :
    replaceAll old new (c :: cs) = c :: replaceAll old new cs := by
  rw [replaceAll, if_neg]
  intro hprefix
  obtain ⟨rest, hrest⟩ := List.isPrefixOf_iff_prefix.1 hprefix
  exact h rest hrest.symm

theorem unescapeSlash_eq_replaceAll (cs : List Char) : unescapeSlash cs = replaceAll ['~', '1'] ['/'] cs := by
  induction cs using unescapeSlash.induct with
  | case1 rest ih => simp [unescapeSlash, replaceAll, ih]
  | case2 c rest hne ih =>
    rw [unescapeSlash, replaceAll_of_not_prefix, ih]
    · rintro rest' ⟨⟩
      exact hne rest' rfl rfl
    · exact hne
  | case3 => rw [unescapeSlash, replaceAll]

theorem unescapeTilde_eq_replaceAll (cs : List Char) : unescapeTilde cs = replaceAll ['~', '0'] ['~'] cs := by
  induction cs using unescapeTilde.induct with
  | case1 rest ih => simp [unescapeTilde, replaceAll, ih]
  | case2 c rest hne ih =>
    rw [unescapeTilde, replaceAll_of_not_prefix, ih]
    · rintro rest' ⟨⟩
      exact hne rest' rfl rfl
    · exact hne
  | case3 => rw [unescapeTilde, replaceAll]

/-- A segment is read by the reverse replacements in the reverse order. -/
theorem unescape_eq_replaceAll (segment : String) : unescape segment =
    String.ofList (replaceAll ['~', '0'] ['~'] (replaceAll ['~', '1'] ['/'] segment.toList)) := by
  rw [unescape, unescapeTilde_eq_replaceAll, unescapeSlash_eq_replaceAll]

/-! ## References to schemas -/

variable {name pointer : String} {document : Tree} {target : Target}

/-- A reference to the schema of a name is read as the name. -/
theorem schemaName_toSchema (h : name ≠ "") : schemaName (toSchema name) = .ok name := by
  have hprefix : schemaTable.toList.isPrefixOf? (toSchema name).toList = some (escape name).toList := by
    rw [List.isPrefixOf?_eq_some_iff_append_eq, toSchema, String.toList_append]
  have hslash : (escape name).toList.contains '/' = false := by
    rw [Bool.eq_false_iff, ne_eq, List.contains_iff_mem]
    exact fun hm => (mem_escape hm).1 rfl
  have hempty : (escape name).toList.isEmpty = false := by
    rw [Bool.eq_false_iff, ne_eq, List.isEmpty_iff]
    intro hnil
    have hname := unescape_escape name
    rw [unescape, hnil] at hname
    exact h hname.symm
  rw [schemaName, hprefix]
  simp only [hempty, hslash, Bool.or_self, Bool.false_eq_true, if_false]
  rw [String.ofList_toList, unescape_escape]

/-- The empty name cannot be referred to. -/
theorem schemaName_toSchema_empty : schemaName (toSchema "") = .error (.namesNoSchema (toSchema "")) := by
  decide

theorem toSchema_injective : Function.Injective toSchema := by
  intro a b h
  have hescape : escape a = escape b := (String.append_right_inj schemaTable).1 h
  rw [← unescape_escape a, hescape, unescape_escape]

/-! ## Where they lead -/

/-- A reference that starts with a hash leads where its pointer does. -/
theorem resolveLocal_rooted {p : String} (h : '#' ∉ p.toList) :
    resolveLocal ("#/" ++ p) document = .ok (pointer, target) ↔ pointer = p ∧ Leads document p target := by
  have hrun : resolveLocal ("#/" ++ p) document =
      (walk ("#/" ++ p) document ("/" ++ p)).map fun t => (p, t) := by
    simp only [resolveLocal, split_rooted h, relative_slash, bind, Except.bind]
    cases walk ("#/" ++ p) document ("/" ++ p) <;> rfl
  rw [hrun, map_eq_ok]
  constructor
  · rintro ⟨t, hwalk, heq⟩
    cases heq
    exact ⟨rfl, relative_slash pointer ▸ walk_eq_ok.1 hwalk⟩
  · rintro ⟨rfl, hleads⟩
    exact ⟨target, walk_eq_ok.2 ((relative_slash pointer).symm ▸ hleads), rfl⟩

/-- The reference to a schema leads to its entry in the table, if that is a map and no reference. -/
theorem resolveLocal_toSchema (h : '#' ∉ name.toList) :
    resolveLocal (toSchema name) document = .ok (pointer, target) ↔ pointer = schemaPointer name ∧
      document.down? ["components", "schemas", name] = some target.tree ∧
        ofTree? target.tree = none ∧ target.name = name := by
  rw [toSchema_eq, resolveLocal_rooted (hash_notMem_schemaPointer h), Leads, keysOf_schemaPointer]
  rfl

theorem split_of_hash {p : String} (h : '#' ∈ p.toList) :
    split ("#/" ++ p) = .error (.notOneHash ("#/" ++ p)) := by
  have hparts : splitAtChar '#' ("#/" ++ p) = "" :: splitAtChar '#' ("/" ++ p) := by
    simp [splitAtChar, splitBy]
  rw [split, hparts]
  cases hrest : splitAtChar '#' ("/" ++ p) with
  | nil => rfl
  | cons part parts =>
    cases parts with
    | nil =>
      obtain ⟨cs, hcs, -⟩ := List.map_eq_singleton_iff.1 hrest
      obtain rfl := eq_of_splitBy hcs
      have hnone := splitBy_parts (hcs ▸ List.mem_cons_self) '#'
        (by rw [String.toList_append]; exact List.mem_append_right _ h)
      cases hnone
    | cons => rfl

theorem hash_mem_escape (h : '#' ∈ name.toList) : '#' ∈ (escape name).toList := by
  rw [escape, String.toList_ofList]
  exact List.mem_flatMap.2 ⟨'#', h, List.mem_cons_self⟩

/-- A hash in a name is not escaped, so that the reference cannot be split. -/
theorem resolveLocal_toSchema_hash (h : '#' ∈ name.toList) :
    resolveLocal (toSchema name) document = .error (.notOneHash (toSchema name)) := by
  have hpointer : '#' ∈ (schemaPointer name).toList := by
    rw [schemaPointer, String.toList_append]
    exact List.mem_append_right _ (hash_mem_escape h)
  rw [toSchema_eq, resolveLocal, split_of_hash hpointer]
  rfl

/-- Names survive being written in references. Both directions are replacements of one text after another; a
reference to a schema is read as the name that it was made of, and as no other; and it leads to the map that stands
under the name in the document's table, by a pointer that spells the same reference. -/
theorem toSchema_faithful :
    (∀ name, toSchema name = schemaTable ++
      String.ofList (replaceAll ['/'] ['~', '1'] (replaceAll ['~'] ['~', '0'] name.toList))) ∧
    (∀ segment, unescape segment =
      String.ofList (replaceAll ['~', '0'] ['~'] (replaceAll ['~', '1'] ['/'] segment.toList))) ∧
    (∀ name, name ≠ "" → schemaName (toSchema name) = .ok name) ∧
    Function.Injective toSchema ∧
    ∀ name document anchor entries, '#' ∉ name.toList →
      document.down? ["components", "schemas", name] = some (.map anchor entries) →
        isReference (.map anchor entries) = false →
          ∃ pointer target, resolveLocal (toSchema name) document = .ok (pointer, target) ∧
            target.tree = .map anchor entries ∧ target.name = name ∧ "#/" ++ pointer = toSchema name := by
  refine ⟨fun name => by rw [toSchema, escape_eq_replaceAll], unescape_eq_replaceAll, fun _ => schemaName_toSchema,
    toSchema_injective, fun name document anchor entries hhash hentry hdirect => ?_⟩
  refine ⟨schemaPointer name, ⟨entries, anchor, name⟩, (resolveLocal_toSchema hhash).2 ⟨rfl, hentry, ?_, rfl⟩,
    rfl, rfl, (toSchema_eq name).symm⟩
  exact Option.isNone_iff_eq_none.1 (Option.isSome_eq_false_iff.1 hdirect)

/-- A document with a schema under a name that looks escaped and holds slashes. -/
def sampleEscaped : Tree :=
  Tree.object [("components", Tree.object [("schemas", Tree.object [
    ("~01/~1~0", Tree.object [("type", .text "object")])])])]

theorem toSchema_sampleEscaped :
    ("~01/~1~0" ≠ "" ∧ schemaName "#/components/schemas/~001~1~01~00" = .ok "~01/~1~0") ∧
    toSchema "~1" ≠ toSchema "/" ∧
    ∃ pointer target, resolveLocal (toSchema "~01/~1~0") sampleEscaped = .ok (pointer, target) ∧
      target.tree = Tree.object [("type", .text "object")] ∧ target.name = "~01/~1~0" ∧
        "#/" ++ pointer = "#/components/schemas/~001~1~01~00" := by
  obtain ⟨-, -, hread, hinjective, hleads⟩ := toSchema_faithful
  have hname : "~01/~1~0" ≠ "" := by decide
  have hreference : toSchema "~01/~1~0" = "#/components/schemas/~001~1~01~00" := by decide
  refine ⟨⟨hname, hreference ▸ hread _ hname⟩, fun h => absurd (hinjective h) (by decide), ?_⟩
  rw [← hreference]
  exact hleads "~01/~1~0" sampleEscaped none _ (by decide) rfl (by decide)

end ApiContract.Reference
