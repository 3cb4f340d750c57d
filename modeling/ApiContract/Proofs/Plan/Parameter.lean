import ApiContract.Plan.Request
import ApiContract.Proofs.Compile.Origin
import ApiContract.Proofs.Compile.Outcome
import ApiContract.Proofs.Lists
import ApiContract.Proofs.Text.Identifier

/-!
# Planned parameters

A parameter has a plan only if a text can stand for its values (`ParameterPlan.Planned`): each text is read as
a scalar or as a literal of an enumeration that has been compiled. What is handed on unparsed is a string or a
list of strings, lists come from the query alone, and header fields are never parsed.

* `planned_of`, `planned_all`: planning the parameters of an operation, whatever the compiler has been asked
  before.
-/

/-!
## The names of arguments

Each parameter of an operation has an argument of its own. Whatever the parameters are called, their
arguments have names (`ParameterPlan.isName_of`), all different, and none is that of an argument which
every handler has (`ParameterPlan.named_all`).
-/

namespace ApiContract.ParameterPlan

variable {table : Entries} {label : String} {s s' : Compile.State}

/-- What it takes for a parameter to have a plan. -/
theorem of_eq_ok {t : Tree} {p : ParameterPlan} (h : of table label t s = (.ok p, s')) :
    ∃ schema s₁, Tree.isMap schema = true ∧ Compile.typeOf table schema s = (.ok p.type, s₁) ∧
      parsing table schema p.type p.place p.name label s₁ = (.ok p.parsed, s') ∧
      p.place ≠ .cookie ∧ (p.place = .header → p.parsed = false) ∧ p.isArray = isArrayType p.type ∧
      p.argument = Text.identifier p.name handlerArguments := by
  unfold of at h
  cases hentries : t.entries? with
  | none => simp only [hentries] at h; cases h
  | some entries =>
    simp only [hentries] at h
    cases hplace : (entries.orNull "in").text?.bind ParameterPlace.ofName? with
    | none => simp only [hplace] at h; cases h
    | some place =>
      simp only [hplace] at h
      -- What is refused for its place, its content or the lack of a schema has no plan.
      split at h
      · cases h
      rename_i hcookie
      split at h
      · cases h
      split at h
      · cases h
      rename_i hmap
      obtain ⟨type, s₁, htype, h⟩ := Compile.bind_eq_ok.1 h
      obtain ⟨parsed, s₂, hparsed, h⟩ := Compile.bind_eq_ok.1 h
      split at h
      · cases h
      rename_i hheader
      obtain ⟨description, _, hlift, h⟩ := Compile.bind_eq_ok.1 h
      obtain ⟨-, rfl⟩ := Compile.lift_eq_ok.1 hlift
      obtain ⟨rfl, rfl⟩ := Compile.pure_eq_ok.1 h
      exact ⟨_, s₁, by simpa using hmap, htype, hparsed, hcookie,
        fun hp => Bool.eq_false_iff.2 fun hparsed => hheader ⟨hp, hparsed⟩, rfl, rfl⟩

theorem isName_of {t : Tree} {p : ParameterPlan} (h : of table label t s = (.ok p, s')) :
    Text.IsName p.argument := by
  obtain ⟨_, _, -, -, -, -, -, -, hargument⟩ := of_eq_ok h
  rw [hargument]
  exact Text.isName_identifier _ _

/-- Arguments have names, all different, and none that every handler has. -/
structure Named (ps : List ParameterPlan) : Prop where
  isName : ∀ p ∈ ps, Text.IsName p.argument
  nodup : (ps.map (·.argument)).Nodup
  free : ∀ p ∈ ps, p.argument ∉ handlerArguments

/-- Plans with other arguments have these, and still the names of their parameters. -/
theorem map_zip {ps : List ParameterPlan} {names : List String} (h : names.length = ps.length) :
    let renamed := (ps.zip names).map fun (p, a) => { p with argument := a }
    renamed.map (·.argument) = names ∧ renamed.map (·.name) = ps.map (·.name) := by
  dsimp only
  rw [List.map_map, List.map_map]
  refine ⟨List.map_snd_zip h.le, ?_⟩
  conv_rhs => rw [← List.map_fst_zip h.ge, List.map_map]
  rfl

/-- Plans whose arguments are made different are named. -/
theorem named_uniqueNames {ps : List ParameterPlan} (h : ∀ p ∈ ps, Text.IsName p.argument) :
    Named ((ps.zip (Text.uniqueNames handlerArguments (ps.map (·.argument)))).map
      fun (p, a) => { p with argument := a }) := by
  have hlength := Text.length_uniqueNames handlerArguments (ps.map (·.argument))
  have hnames : ∀ n ∈ Text.uniqueNames handlerArguments (ps.map (·.argument)), Text.IsName n :=
    Text.IsName.uniqueNames (List.forall_mem_map.2 h)
  obtain ⟨hfree, hnodup⟩ := Text.uniqueNames_free handlerArguments (ps.map (·.argument))
  generalize Text.uniqueNames handlerArguments (ps.map (·.argument)) = names at *
  rw [List.length_map] at hlength
  obtain ⟨harguments, -⟩ := map_zip hlength
  have hmem : ∀ p ∈ (ps.zip names).map fun (p, a) => { p with argument := a },
      (p : ParameterPlan).argument ∈ names := by
    intro p hp
    rw [← harguments]
    exact List.mem_map_of_mem hp
  exact ⟨fun p hp => hnames _ (hmem p hp), by rwa [harguments], fun p hp => hfree _ (hmem p hp)⟩

/-- The arguments of an operation's parameters are named. -/
theorem named_all {ts : List Tree} {ps : List ParameterPlan}
    (h : all table label ts s = (.ok ps, s')) : Named ps := by
  obtain ⟨plans, _, hplans, h⟩ := Compile.bind_eq_ok.1 h
  obtain ⟨rfl, -⟩ := Compile.pure_eq_ok.1 h
  refine named_uniqueNames fun p hp => ?_
  obtain ⟨t, -, _, _, hof⟩ := mem_of_forall₂_right (Compile.mapM_eq_ok hplans) hp
  exact isName_of hof

end ApiContract.ParameterPlan

namespace ApiContract

/-- A type of which a text gives a value: a scalar, or an enumeration among the types. -/
def TypeExpr.IsScalar (types : List NamedType) : TypeExpr → Prop
  | .primitive p _ _ => p ≠ .any ∧ p ≠ .empty
  | .named n _ => ∃ t, types.find? (fun t => t.name = n.getD "") = some t ∧ t.isEnumeration = true
  | .array .. | .map .. => False

/-- A string, whatever its format says. -/
def TypeExpr.IsString (e : TypeExpr) : Prop := ∃ format nullable, e = .primitive .string format nullable

theorem TypeExpr.IsScalar.mono {types more : List NamedType} {e : TypeExpr} (h : e.IsScalar types)
    (hmore : types <+: more) : e.IsScalar more := by
  cases e with
  | named n nullable =>
    obtain ⟨t, hfind, ht⟩ := h
    obtain ⟨new, rfl⟩ := hmore
    exact ⟨t, by rw [List.find?_append, hfind]; rfl, ht⟩
  | _ => exact h

namespace ParameterPlan

open Compile (State Traced ReadAs typeOf typeWith)

/-- The type that each text of a parameter is read as. -/
def textType (p : ParameterPlan) : TypeExpr :=
  match p.type with
  | .array item _ _ => if p.isArray then item else p.type
  | e => e

/-- What a plan says of a parameter, and what is known of its type. -/
structure Planned (types : List NamedType) (p : ParameterPlan) : Prop where
  scalar : p.textType.IsScalar types
  plain : p.parsed = false →
    p.type.IsString ∨ ∃ item unique nullable, p.type = .array item unique nullable ∧ item.IsString
  array : p.isArray = true → p.place = .query
  header : p.place = .header → p.parsed = false
  cookie : p.place ≠ .cookie

variable {table : Entries} {types : List NamedType} {label name : String} {s s' : State}

theorem Planned.mono {more : List NamedType} {p : ParameterPlan} (h : Planned types p)
    (hmore : types <+: more) : Planned more p :=
  { h with scalar := h.scalar.mono hmore }

/-! ## Scalars -/

theorem ensureScalar_eq_ok {e : TypeExpr} :
    ensureScalar types e name label = .ok () ↔ e.IsScalar types := by
  cases e with
  | primitive p format nullable => cases p <;> simp [ensureScalar, TypeExpr.IsScalar]
  | named n nullable =>
    simp only [ensureScalar, TypeExpr.IsScalar]
    cases types.find? fun t => t.name = n.getD "" with
    | none => simp
    | some t => cases ht : t.isEnumeration <;> simp [ht]
  | array | map => exact iff_of_false nofun id

/-- What a plain string that stands inline is like. -/
theorem isPlainString_eq_ok {t : Tree} (h : Schema.isPlainString t = .ok true) :
    ∃ (a : Anchor) (es : Entries), t = .map a es ∧ Reference.ofEntries? es = none ∧
      Schema.kind es = .ok .string ∧ Schema.isPlainFormat (es.orNull "format") = true := by
  unfold Schema.isPlainString at h
  split at h
  · rename_i a es
    split at h
    · cases h
    · rename_i href
      obtain ⟨kind, hkind, h⟩ := bind_eq_ok.1 h
      split at h
      · cases h
      · rename_i hplain
        obtain rfl : kind = .string := by
          by_contra hne
          exact hplain (by simp [bne_iff_ne.2 hne])
        refine ⟨a, es, rfl, by simpa using href, hkind, ?_⟩
        unfold Entries.orNull
        split at h
        · rename_i x hformat
          rw [hformat]
          exact Except.ok.inj h
        · cases h
  · cases h

/-- A plain string that stands inline is read as a string. -/
theorem isString_of_isPlainString {t : Tree} {e : TypeExpr} (h : Schema.isPlainString t = .ok true)
    (he : ReadAs t e) : e.IsString := by
  obtain ⟨a, es, rfl, href, hkind, hformat⟩ := isPlainString_eq_ok h
  obtain ⟨follow, s, s', he⟩ := he
  rw [Compile.typeWith_map, href] at he
  dsimp only at he
  unfold Compile.inlineSchema at he
  rw [hkind, Compile.lift_ok_bind] at he
  dsimp only at he
  split at he
  · cases he
  · obtain ⟨he, -⟩ := Compile.lift_eq_ok.1 he
    generalize Entries.orNull es "format" = format at hformat he
    simp only [Schema.isPlainFormat, Bool.or_eq_true, beq_iff_eq] at hformat
    rcases hformat with (rfl | rfl) | rfl <;> cases he <;> exact ⟨_, _, rfl⟩

/-- Only a schema of arrays that stands inline is read as a list. -/
theorem kind_of_readAs {a : Anchor} {es : Entries} {item : TypeExpr} {unique nullable : Bool}
    (href : Reference.ofEntries? es = none) (h : ReadAs (.map a es) (.array item unique nullable)) :
    Schema.kind es = .ok .array := by
  obtain ⟨follow, s, s', h⟩ := h
  rw [Compile.typeWith_map, href] at h
  dsimp only at h
  unfold Compile.inlineSchema at h
  obtain ⟨kind, _, hlift, h⟩ := Compile.bind_eq_ok.1 h
  obtain ⟨hkind, rfl⟩ := Compile.lift_eq_ok.1 hlift
  cases kind with
  | array => exact hkind
  | object =>
    dsimp only at h
    split at h
    · cases h
    · obtain ⟨value, _, -, h⟩ := Compile.bind_eq_ok.1 h
      cases value <;> (obtain ⟨heq, -⟩ := Compile.pure_eq_ok.1 h; cases heq)
  | any =>
    obtain ⟨trivially, _, -, h⟩ := Compile.bind_eq_ok.1 h
    split at h
    · cases h
    · obtain ⟨heq, -⟩ := Compile.pure_eq_ok.1 h
      cases heq
  | string | number | integer | boolean =>
    dsimp only at h
    split at h
    · cases h
    · obtain ⟨h, -⟩ := Compile.lift_eq_ok.1 h
      obtain ⟨_, _, heq⟩ := Compile.scalarType_eq_ok h
      cases heq
  | _ => cases h

/-- The items of a list are read as their schema is. Without one they are of any type. -/
theorem items_of_readAs {a : Anchor} {es : Entries} {item : TypeExpr} {unique nullable : Bool}
    (href : Reference.ofEntries? es = none) (h : ReadAs (.map a es) (.array item unique nullable)) :
    item = .any ∨ ReadAs (es.orNull "items") item := by
  have hkind := kind_of_readAs href h
  obtain ⟨follow, s, s', h⟩ := h
  rw [Compile.typeWith_map, href] at h
  dsimp only at h
  unfold Compile.inlineSchema at h
  rw [hkind, Compile.lift_ok_bind] at h
  simp only [Entries.lookup_children] at h
  unfold Entries.orNull
  rw [Entries.get?_eq_at?]
  cases hitems : es.at? (.text "items") with
  | none =>
    rw [hitems] at h
    obtain ⟨heq, -⟩ := Compile.pure_eq_ok.1 h
    cases heq
    exact .inl rfl
  | some t =>
    rw [hitems] at h
    cases t with
    | map b fs =>
      obtain ⟨item', _, hitem, h⟩ := Compile.bind_eq_ok.1 h
      obtain ⟨heq, -⟩ := Compile.pure_eq_ok.1 h
      cases heq
      exact .inr ⟨_, _, _, hitem⟩
    | _ =>
      obtain ⟨heq, -⟩ := Compile.pure_eq_ok.1 h
      cases heq
      exact .inl rfl

/-! ## Plans -/

/-- What a parameter's type must be like, and what it says whether texts are parsed. -/
theorem parsing_eq_ok {schema : Tree} {type : TypeExpr} {place : ParameterPlace} {parsed : Bool}
    (h : parsing table schema type place name label s = (.ok parsed, s')) : s' = s ∧
      ((∃ item unique nullable, type = .array item unique nullable ∧ place = .query ∧
          (itemSchema table schema >>= needsParsing) = .ok parsed ∧ item.IsScalar s.types) ∨
        (isArrayType type = false ∧ needsParsing schema = .ok parsed ∧ type.IsScalar s.types)) := by
  have hrest : ∀ {r : Except Failure Bool} {e : TypeExpr}, (do
      let parsed ← Compile.lift r
      Compile.lift (ensureScalar (← get).types e name label)
      return parsed : Compile.Run Bool) s = (.ok parsed, s') →
        s' = s ∧ r = .ok parsed ∧ e.IsScalar s.types := by
    intro r e h
    obtain ⟨_, _, hlift, h⟩ := Compile.bind_eq_ok.1 h
    obtain ⟨hr, rfl⟩ := Compile.lift_eq_ok.1 hlift
    obtain ⟨_, _, hget, h⟩ := Compile.bind_eq_ok.1 h
    cases hget
    obtain ⟨_, _, hlift, h⟩ := Compile.bind_eq_ok.1 h
    obtain ⟨hscalar, rfl⟩ := Compile.lift_eq_ok.1 hlift
    obtain ⟨rfl, rfl⟩ := Compile.pure_eq_ok.1 h
    exact ⟨rfl, hr, ensureScalar_eq_ok.1 hscalar⟩
  unfold parsing at h
  cases type with
  | array item unique nullable =>
    dsimp only at h
    split at h
    · cases h
    · rename_i hplace
      obtain ⟨rfl, hr, hscalar⟩ := hrest h
      exact ⟨rfl, .inl ⟨item, unique, nullable, rfl, not_not.1 hplace, hr, hscalar⟩⟩
  | _ =>
    obtain ⟨rfl, hr, hscalar⟩ := hrest h
    exact ⟨rfl, .inr ⟨rfl, hr, hscalar⟩⟩

theorem isPlainString_of_needsParsing {t : Tree} (h : needsParsing t = .ok false) :
    Schema.isPlainString t = .ok true := by
  unfold needsParsing at h
  obtain ⟨b, hb, heq⟩ := map_eq_ok.1 h
  cases b
  · cases heq
  · exact hb

section

variable {asked : String → Tree → Prop}
  (hasked : ∀ n t, (Scalar.text n, t) ∈ table → Reference.ofTree? t = none → asked n t)
include hasked

/-- The schema of a list is the one that is referred to, and it is read as the list. -/
theorem readAs_of_typeOf {schema : Tree} {item : TypeExpr} {unique nullable : Bool}
    (hs : Traced table asked s) (hmap : schema.isMap = true)
    (h : typeOf table schema s = (.ok (.array item unique nullable), s')) :
    ∃ (a : Anchor) (es : Entries), Compile.resolve table schema = .ok (.map a es) ∧
      Reference.ofEntries? es = none ∧ ReadAs (.map a es) (.array item unique nullable) := by
  cases schema with
  | map a es =>
    cases href : Reference.ofEntries? es with
    | none =>
      have hdirect : Reference.ofTree? (.map a es) = none := href
      refine ⟨a, es, ?_, href, _, _, _, h⟩
      unfold Compile.resolve
      rw [hdirect]
      rfl
    | some r =>
      have hreference : Reference.ofTree? (.map a es) = some r := href
      unfold typeOf at h
      rw [Compile.typeWith_map, href] at h
      replace h : Compile.typeOfReference table ⟨[], []⟩ r s = _ := h
      have hgives := (Compile.tracedRun_typeOfReference hasked ⟨[], []⟩ r hs).gives _ (by rw [h])
      obtain ⟨found, hfind, ⟨_, -, _, heq⟩ | hread⟩ := hgives
      · cases heq
      · have hdirect := Compile.find_eq_ok hfind
        generalize hschema : found.schema = schema at hread hdirect
        cases schema with
        | map b fs =>
          refine ⟨b, fs, ?_, hdirect, hread⟩
          unfold Compile.resolve
          rw [hreference, ← hschema]
          dsimp only
          rw [hfind]
          rfl
        | _ =>
          obtain ⟨_, _, _, hread⟩ := hread
          cases hread
  | _ => cases hmap

/-- A parameter that has a plan is planned, whatever has been compiled before. -/
theorem planned_of {t : Tree} {p : ParameterPlan} (hs : Traced table asked s)
    (h : of table label t s = (.ok p, s')) :
    Traced table asked s' ∧ s.types <+: s'.types ∧ Planned s'.types p := by
  obtain ⟨schema, s₁, hmap, htype, hparsing, hcookie, hheader, harray, -⟩ := of_eq_ok h
  obtain ⟨htraced, hgrows, -, -⟩ := Compile.traces_typeOf hasked schema s hs
  rw [htype] at htraced hgrows
  obtain ⟨rfl, hcases⟩ := parsing_eq_ok hparsing
  refine ⟨htraced, hgrows, ?_, fun hplain => ?_, fun hp => ?_, hheader, hcookie⟩
  · unfold textType
    rw [harray]
    rcases hcases with ⟨item, unique, nullable, heq, -, -, hscalar⟩ | ⟨hnot, -, hscalar⟩
    · rw [heq]
      exact hscalar
    · cases hp : p.type with
      | array =>
        rw [hp] at hnot
        cases hnot
      | _ =>
        rw [hp] at hscalar
        exact hscalar
  · rw [hplain] at hcases
    rcases hcases with ⟨item, unique, nullable, heq, -, hparsed, hscalar⟩ | ⟨hnot, hparsed, -⟩
    · -- The plan was made from the schema that `resolve` gives, and its type from the one compiled.
      refine .inr ⟨item, unique, nullable, heq, ?_⟩
      rw [heq] at htype
      obtain ⟨a, es, hresolve, href, hread⟩ := readAs_of_typeOf hasked hs hmap htype
      obtain ⟨items, hitems, hparsed⟩ := bind_eq_ok.1 hparsed
      unfold itemSchema at hitems
      rw [hresolve] at hitems
      cases hitems
      rcases items_of_readAs href hread with rfl | hread
      · exact absurd rfl hscalar.1
      · exact isString_of_isPlainString (isPlainString_of_needsParsing hparsed) hread
    · exact .inl (isString_of_isPlainString (isPlainString_of_needsParsing hparsed) ⟨_, _, _, htype⟩)
  · rw [harray] at hp
    rcases hcases with ⟨_, _, _, -, hplace, -⟩ | ⟨hnot, -⟩
    · exact hplace
    · cases hnot.symm.trans hp

theorem planned_mapM : ∀ {ts : List Tree} {ps : List ParameterPlan} {s s' : State}, Traced table asked s →
    ts.mapM (of table label) s = (.ok ps, s') →
      Traced table asked s' ∧ s.types <+: s'.types ∧ ∀ p ∈ ps, Planned s'.types p
  | [], _, _, _, hs, h => by
    obtain ⟨rfl, rfl⟩ := Compile.pure_eq_ok.1 h
    exact ⟨hs, List.prefix_rfl, nofun⟩
  | t :: ts, _, _, _, hs, h => by
    rw [List.mapM_cons] at h
    obtain ⟨p, s₁, hp, h⟩ := Compile.bind_eq_ok.1 h
    obtain ⟨ps, s₂, hps, h⟩ := Compile.bind_eq_ok.1 h
    obtain ⟨rfl, rfl⟩ := Compile.pure_eq_ok.1 h
    obtain ⟨hs₁, hgrows, hplanned⟩ := planned_of hasked hs hp
    obtain ⟨hs₂, hgrows', hall⟩ := planned_mapM hs₁ hps
    exact ⟨hs₂, hgrows.trans hgrows', List.forall_mem_cons.2 ⟨hplanned.mono hgrows', hall⟩⟩

/-- The parameters of an operation are planned. -/
theorem planned_all {ts : List Tree} {ps : List ParameterPlan} (hs : Traced table asked s)
    (h : all table label ts s = (.ok ps, s')) : ∀ p ∈ ps, Planned s'.types p := by
  obtain ⟨plans, _, hplans, h⟩ := Compile.bind_eq_ok.1 h
  obtain ⟨rfl, rfl⟩ := Compile.pure_eq_ok.1 h
  refine List.forall_mem_map.2 fun e he => ?_
  obtain ⟨hscalar, hplain, harray, hheader, hcookie⟩ :=
    (planned_mapM hasked hs hplans).2.2 e.1 (List.of_mem_zip he).1
  exact ⟨hscalar, hplain, harray, hheader, hcookie⟩

end

end ParameterPlan

end ApiContract
