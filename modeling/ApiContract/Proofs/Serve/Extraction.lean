import ApiContract.Proofs.Models
import ApiContract.Proofs.Plan.Parameter
import ApiContract.Serve.Argument

/-!
# Taking arguments from requests

What has been planned can always be taken from a request. The types of a plan are those that texts are read as
(`ParameterPlan.Planned`), so that a request either gives a value or is refused over the one parameter
(`argument_of_planned`): because the parameter is not there, or because its text in the path or in the query
stands for no value. The arguments have the names of the plans, and those of required parameters are not null
(`arguments_eq_ok`).

* `extraction_of_plans`: both for the plans that any compiler gives, with the types that it has compiled.
-/

namespace ApiContract

/-! ## Texts -/

theorem isAscii_lower {text : String} (h : Http.isAscii text = true) :
    Http.isAscii (Text.lower text) = true := by
  have hfrom : ∀ (cs before : List Char), (∀ c ∈ cs, c.toNat < 128) →
      ∀ c ∈ Text.lowerFrom before cs, c.toNat < 128 := by
    intro cs
    induction cs with
    | nil => exact fun _ _ => nofun
    | cons c cs ih =>
      intro before h
      obtain ⟨hc, hcs⟩ := List.forall_mem_cons.1 h
      have hhere : Text.lowerFrom before (c :: cs) = c.toLower :: Text.lowerFrom (c :: before) cs := by
        rw [Text.lowerFrom, Text.lowerChar, if_pos hc, if_neg (by simp; omega), if_neg (by simp; omega)]
        rfl
      rw [hhere]
      refine List.forall_mem_cons.2 ⟨?_, ih _ hcs⟩
      cases hupper : c.isUpper with
      | true =>
        have := Text.isUpper_iff.1 hupper
        rw [Text.toNat_toLower hupper]
        omega
      | false => rwa [Text.toLower_of_not_isUpper hupper]
  simp only [Http.isAscii, List.all_eq_true, decide_eq_true_eq] at h ⊢
  rw [Text.lower, String.toList_ofList]
  exact hfrom _ [] h

namespace Models

variable {m : Models} {e : TypeExpr} {text : String}

/-- A text that stands for no value of a scalar type has the wrong form, or is no member. -/
theorem error_of_parse {f : LexicalFault} (he : e.IsScalar m.types) (h : m.parse e text = .error f) :
    f = .noForm ∨ ∃ t, f = .notAMember t := by
  cases e with
  | primitive p format nullable =>
    simp only [parse] at h
    split at h
    · cases h
    · cases h
      exact .inl rfl
  | named n nullable =>
    obtain ⟨t, hfind, ht⟩ := he
    obtain ⟨name, schemaName, description, shape⟩ := t
    cases shape with
    | enumeration members =>
      have hfind : m.find? (n.getD "") = some ⟨name, schemaName, description, .enumeration members⟩ := hfind
      simp only [parse, hfind] at h
      split at h
      · cases h
      · cases h
        exact .inr ⟨_, rfl⟩
    | _ => cases ht
  | array | map => exact he.elim

theorem ne_null_of_parse {v : Value} (h : m.parse e text = .ok v) : v ≠ .null := by
  cases e with
  | primitive p format nullable =>
    simp only [parse] at h
    split at h
    · rename_i s hs
      cases h
      rintro ⟨⟩
      cases p <;> simp [scalarOf?] at hs
    · cases h
  | named n nullable =>
    simp only [parse] at h
    split at h
    · split at h
      · cases h
        nofun
      · cases h
    · cases h
    · cases h
  | array | map =>
    simp only [parse] at h
    split at h
    · split at h <;> cases h
    · cases h

end Models

namespace Serve

open ParameterPlan (Planned)

variable {m : Models} {p : ParameterPlan} {request : Http.Request} {headers : Http.Headers}

/-! ## One parameter -/

/-- A refusal over one parameter: it is not there, or its text in the path or in the query stands for no
value. -/
def Declined (name : String) (e : Raised) : Prop :=
  ∃ r cause, e = .refused ⟨r, cause⟩ ∧
    (r = .noParameter name ∨ ∃ note, r = .pathParameter name note ∨ r = .queryParameter name note)

theorem error_of_readParameter {refuse : String → Refusal} {text : String} {e : Raised}
    (hp : p.textType.IsScalar m.types) (h : readParameter m p refuse text = .error e) :
    ∃ note cause, e = .refused ⟨refuse note, cause⟩ := by
  unfold readParameter at h
  split at h
  · cases h
  · dsimp only at h
    have hform : ∀ {f}, m.parse p.textType text = .error f → f = .noForm ∨ ∃ t, f = .notAMember t :=
      Models.error_of_parse hp
    split at h
    · cases h
    · cases h
      exact ⟨_, _, rfl⟩
    · cases h
      exact ⟨_, _, rfl⟩
    · rename_i hparse
      obtain h | ⟨_, h⟩ := hform hparse <;> cases h
    · rename_i hparse
      obtain h | ⟨_, h⟩ := hform hparse <;> cases h

theorem ne_null_of_readParameter {refuse : String → Refusal} {text : String} {v : Value}
    (h : readParameter m p refuse text = .ok v) : v ≠ .null := by
  unfold readParameter at h
  split at h
  · cases h
    nofun
  · dsimp only at h
    split at h
    · rename_i hparse
      cases h
      exact Models.ne_null_of_parse hparse
    all_goals cases h

theorem error_of_pathText {text : String} {e : Raised} (h : pathText p text = .error e) :
    ∃ note cause, e = .refused ⟨.pathParameter p.name note, cause⟩ := by
  unfold pathText at h
  split at h
  · cases h
  · cases h
    exact ⟨_, _, rfl⟩

/-- What can become of looking a parameter up in a request. -/
inductive LookedUp (m : Models) (p : ParameterPlan) (headers : Http.Headers) :
    Except Raised (Option Value) → Prop
  | absent : LookedUp m p headers (.ok none)
  | unreadable {text : String} {e : Raised} : pathText p text = .error e → LookedUp m p headers (.error e)
  | read {refuse : String → Refusal} {text : String} :
      refuse = .pathParameter p.name ∨ refuse = .queryParameter p.name →
        LookedUp m p headers (some <$> readParameter m p refuse text)
  | list {texts : List String} : LookedUp m p headers
      ((fun vs => some (.list vs)) <$> texts.mapM (readParameter m p (.queryParameter p.name)))
  | header : p.place = .header ∨ p.place = .cookie →
      LookedUp m p headers (do return (← headerValue headers p.name).map .text)

theorem lookedUp_findArgument (m : Models) (p : ParameterPlan) (request : Http.Request)
    (headers : Http.Headers) : LookedUp m p headers (findArgument m p request headers) := by
  unfold findArgument
  cases hplace : p.place with
  | path =>
    dsimp only
    split
    · exact .absent
    · rename_i text _
      cases htext : pathText p text with
      | error e => exact .unreadable htext
      | ok text => exact .read (.inl rfl)
  | query =>
    dsimp only
    split
    · split
      · exact .absent
      · exact .list
    · split
      · exact .absent
      · exact .read (.inr rfl)
  | header => exact .header (.inl hplace)
  | cookie => exact .header (.inr hplace)

/-- The request is refused over a planned parameter, or it is found, or it is not there. -/
theorem declined_of_findArgument {e : Raised} (hp : Planned m.types p)
    (hname : p.place = .header → Http.isAscii p.name = true)
    (h : findArgument m p request headers = .error e) : Declined p.name e := by
  have hlooked := lookedUp_findArgument m p request headers
  generalize findArgument m p request headers = r at hlooked h
  cases hlooked with
  | absent => cases h
  | unreadable htext =>
    cases h
    obtain ⟨note, cause, rfl⟩ := error_of_pathText htext
    exact ⟨_, cause, rfl, .inr ⟨note, .inl rfl⟩⟩
  | read hrefuse =>
    obtain ⟨note, cause, rfl⟩ := error_of_readParameter hp.scalar (map_eq_error.1 h)
    rcases hrefuse with rfl | rfl
    · exact ⟨_, cause, rfl, .inr ⟨note, .inl rfl⟩⟩
    · exact ⟨_, cause, rfl, .inr ⟨note, .inr rfl⟩⟩
  | list =>
    obtain ⟨text, -, h⟩ := error_of_mapM (map_eq_error.1 h)
    obtain ⟨note, cause, rfl⟩ := error_of_readParameter hp.scalar h
    exact ⟨_, cause, rfl, .inr ⟨note, .inr rfl⟩⟩
  | header hplace =>
    -- Only for a name outside ASCII can looking a header field up fail.
    have hanswers : headers.answers p.name = true := by
      rw [Http.Headers.answers, isAscii_lower (hname (hplace.resolve_right hp.cookie)), Bool.true_or]
    unfold headerValue at h
    rw [if_pos hanswers] at h
    cases h

theorem ne_null_of_findArgument {v : Value} (h : findArgument m p request headers = .ok (some v)) :
    v ≠ .null := by
  have hlooked := lookedUp_findArgument m p request headers
  generalize findArgument m p request headers = r at hlooked h
  cases hlooked with
  | absent | unreadable => cases h
  | read =>
    obtain ⟨w, hw, heq⟩ := map_eq_ok.1 h
    cases heq
    exact ne_null_of_readParameter hw
  | list =>
    obtain ⟨vs, -, heq⟩ := map_eq_ok.1 h
    cases heq
    nofun
  | header =>
    obtain ⟨found, -, h⟩ := bind_eq_ok.1 h
    cases found with
    | none => cases h
    | some text =>
      cases h
      nofun

/-- A planned parameter has a value, or the request is refused over it. -/
theorem argument_of_planned {e : Raised} (hp : Planned m.types p)
    (hname : p.place = .header → Http.isAscii p.name = true)
    (h : argument m p request headers = .error e) : Declined p.name e := by
  rcases bind_eq_error.1 h with h | ⟨found, -, h⟩
  · exact declined_of_findArgument hp hname h
  · cases found with
    | some v => cases h
    | none =>
      dsimp only at h
      split at h
      · cases h
        exact ⟨_, _, rfl, .inl rfl⟩
      · cases h

/-- The value of a required parameter is not null. -/
theorem ne_null_of_argument {v : Value} (h : argument m p request headers = .ok v)
    (hrequired : p.required = true) : v ≠ .null := by
  obtain ⟨found, hfound, h⟩ := bind_eq_ok.1 h
  cases found with
  | some w =>
    cases h
    exact ne_null_of_findArgument hfound
  | none =>
    dsimp only at h
    rw [if_pos hrequired] at h
    cases h

/-! ## All parameters -/

/-- Arguments have the names of the plans, in order, and those of required parameters are not null. -/
theorem arguments_eq_ok {plans : List ParameterPlan} {args : List (String × Value)}
    (h : arguments m plans request headers = .ok args) :
    List.Forall₂ (fun p a => a.1 = p.argument ∧ (p.required = true → a.2 ≠ .null)) plans args := by
  refine (forall₂_of_mapM h).imp fun p a hp => ?_
  obtain ⟨v, hv, hp⟩ := bind_eq_ok.1 hp
  cases hp
  exact ⟨rfl, ne_null_of_argument hv⟩

/-- Planned parameters can always be taken from a request. -/
structure Extractable (m : Models) (p : ParameterPlan) : Prop extends Planned m.types p where
  declined : ∀ request headers e, argument m p request headers = .error e → Declined p.name e

open Compile (after)

/-- Whatever a compiler has been asked: with the types that it has compiled then or later, a parameter that it
gives a plan for can be taken from every request, or the request is refused over that parameter. Taking those
of an operation gives each plan's own argument, and no null for a required one. -/
theorem extraction_of_plans (table : Entries) (calls : List Compile.Call) :
    (∀ label parameter p s' types m,
      ParameterPlan.of table label parameter (after table calls) = (.ok p, s') →
      s'.types <+: types → Models.ofTypes types = .ok m →
      (p.place = .header → Http.isAscii p.name = true) → Extractable m p) ∧
    ∀ label parameters plans s' types m,
      ParameterPlan.all table label parameters (after table calls) = (.ok plans, s') →
      s'.types <+: types → Models.ofTypes types = .ok m →
      (∀ p ∈ plans, p.place = .header → Http.isAscii p.name = true) →
      (∀ p ∈ plans, Extractable m p) ∧ (plans.map (·.argument)).Nodup ∧
        ∀ request headers args, arguments m plans request headers = .ok args →
          args.map (·.1) = plans.map (·.argument) ∧
            List.Forall₂ (fun p a => p.required = true → a.2 ≠ .null) plans args := by
  have hasked : ∀ n t, (Scalar.text n, t) ∈ table → Reference.ofTree? t = none → True :=
    fun _ _ _ _ => trivial
  have htraced := Compile.traced_anything table calls
  have hextractable : ∀ {types later : List NamedType} {m : Models} {p : ParameterPlan},
      Planned types p → types <+: later → Models.ofTypes later = .ok m →
        (p.place = .header → Http.isAscii p.name = true) → Extractable m p := by
    intro types later m p hp hlater hm hname
    have hplanned : Planned m.types p := hp.mono (Models.types_of_ofTypes hm ▸ hlater)
    exact ⟨hplanned, fun request headers e he => argument_of_planned hplanned hname he⟩
  refine ⟨fun label parameter p s' types m hplan hlater hm hname => ?_,
    fun label parameters plans s' types m hplans hlater hm hnames => ⟨fun p hp => ?_, ?_, ?_⟩⟩
  · exact hextractable (ParameterPlan.planned_of hasked htraced hplan).2.2 hlater hm hname
  · exact hextractable (ParameterPlan.planned_all hasked htraced hplans p hp) hlater hm (hnames p hp)
  · exact (ParameterPlan.named_all hplans).nodup
  · intro request headers args hargs
    have hall := arguments_eq_ok hargs
    refine ⟨?_, hall.imp fun _ _ h => h.2⟩
    exact forall₂_eq_iff.1 (hall.flip.imp fun _ _ h => h.1)

/-- A table with an enumeration. -/
def sampleColors : Entries :=
  [(.text "Color", Tree.object [("type", .text "string"), ("enum", Tree.array [.text "red"])])]

/-- Parameters in the path, in the query and in a header. -/
def sampleParameters : List Tree := [
  Tree.object [("name", .text "color"), ("in", .text "path"),
    ("schema", Reference.asTree "#/components/schemas/Color")],
  Tree.object [("name", .text "tags"), ("in", .text "query"),
    ("schema", Tree.object [("type", .text "array"), ("items", Tree.object [("type", .text "string")])])],
  Tree.object [("name", .text "X-Trace"), ("in", .text "header"),
    ("schema", Tree.object [("type", .text "string")])]]

/-- Their plans. -/
def samplePlans : List ParameterPlan := [
  ⟨"color", "color", .path, true, .named (some "Color") false, true, false, none⟩,
  ⟨"tags", "tags", .query, false, .array (.primitive .string none false) false false, false, true, none⟩,
  ⟨"X-Trace", "x_trace", .header, false, .primitive .string none false, false, false, none⟩]

/-- The enumeration, as it has been compiled. -/
def sampleColorModels : Models :=
  ⟨[⟨"Color", "Color", none, .enumeration [⟨"Red", .text "red"⟩]⟩]⟩

/-- A request for red things with two tags. -/
def sampleColorRequest : Http.Request :=
  { (default : Http.Request) with
    pathParameters := [("color", "red")]
    multiValueQuery := [("tags", ["new", "bright"])] }

theorem extraction_samplePlans :
    (∀ p ∈ samplePlans, Extractable sampleColorModels p) ∧ (samplePlans.map (·.argument)).Nodup ∧
      ∃ args, arguments sampleColorModels samplePlans sampleColorRequest .empty = .ok args ∧
        args.map (·.1) = ["color", "tags", "x_trace"] := by
  obtain ⟨hextractable, hnodup, harguments⟩ := (extraction_of_plans sampleColors [.all]).2 "get /colors"
    sampleParameters samplePlans _ _ sampleColorModels (eq_ok_of_toOption_fst (by decide +kernel))
    List.prefix_rfl (eq_ok_of_toOption (by decide +kernel)) (by decide +kernel)
  have hsome : (arguments sampleColorModels samplePlans sampleColorRequest .empty).toOption.isSome := by
    decide +kernel
  obtain ⟨args, hargs⟩ := Option.isSome_iff_exists.1 hsome
  have hok := eq_ok_of_toOption hargs
  exact ⟨hextractable, hnodup, args, hok, (harguments sampleColorRequest .empty args hok).1⟩

end Serve

end ApiContract
