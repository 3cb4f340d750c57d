import ApiContract.Json.Printer
import ApiContract.Proofs.Compilation
import ApiContract.Proofs.Edit
import ApiContract.Proofs.Gateway.Place
import ApiContract.Proofs.Plan.Collect

/-!
# The operations that the gateway passes on

The dispatcher serves the operations that have a plan, and the gateway passes on those that name a
function (`Integrates`). Planning looks behind references to path items and reads identifiers that are
given as octets; the gateway does neither. In a description whose path items and operations are all given
in place (`Direct`) the two agree: `integrates_iff_planned`.

* `integrates_describe`: the gateway's description names a function in the operations of the description
  whose identifiers have one.
* `hasOperation_of_collect`: planning meets no other operations.
-/

namespace ApiContract

namespace Gateway

/-- The path items of a description, by path. -/
def pathItems (t : Tree) : Entries := (t.getD "paths").entries?.getD []

/-- An operation of a description has an identifier. -/
def HasOperation (t : Tree) (id : String) : Prop :=
  ∃ e ∈ pathItems t, ∃ (m : Method) (op : Entries), (e.2.getD m.key).entries? = some op ∧
    op.get? "operationId" = some (.text id)

/-- An operation of a description, behind a reference to a path item perhaps, has an identifier and
names a function. -/
def Integrates (g : Tree) (id function : Tree) : Prop :=
  ∃ e ∈ pathItems g, ∃ item ∈ (Reference.dereference g e.2).toOption,
    ∃ m ∈ Method.all, ∃ op ∈ (item.getD m.key).entries?,
      op.get? "operationId" = some id ∧ op.get? integrationKey = some function

instance {g id function : Tree} : Decidable (Integrates g id function) :=
  inferInstanceAs (Decidable (∃ e ∈ pathItems g, ∃ item ∈ _, ∃ m ∈ Method.all, ∃ op ∈ _, _))

/-- Whether a tree is octets. -/
def isOctets : Tree → Bool
  | .scalar (.bytes _) => true
  | _ => false

/-- A description whose path items and operations are given in place, with identifiers that are not given
as octets. -/
structure Direct (t : Tree) : Prop where
  anchor : t.anchor = none
  paths : (t.getD "paths").anchor = none
  items : ∀ e ∈ pathItems t, InPlace e.2
  identifiers : ∀ e ∈ pathItems t, ∀ m : Method,
    isOctets ((e.2.getD m.key).getD "operationId") = false

instance {t : Tree} : Decidable (Direct t) :=
  decidable_of_iff (t.anchor = none ∧ (t.getD "paths").anchor = none ∧
      (∀ e ∈ pathItems t, InPlace e.2) ∧
      ∀ e ∈ pathItems t, ∀ m : Method, isOctets ((e.2.getD m.key).getD "operationId") = false)
    ⟨fun ⟨ha, hp, hi, ho⟩ => ⟨ha, hp, hi, ho⟩, fun ⟨ha, hp, hi, ho⟩ => ⟨ha, hp, hi, ho⟩⟩

variable {targets : List (String × Target)} {s s' : State} {t t' : Tree}

theorem pathItems_map (a : Anchor) (es : Entries) :
    pathItems (.map a es) = ((es.orNull "paths").entries?).getD [] := rfl

/-- The edit of the map of paths. -/
theorem paths_run {depth : Nat} {x x' : Tree} (hanchor : x.anchor = none)
    (hitems : ∀ e ∈ x.entries?.getD [], InPlace e.2)
    (h : (Edit.whenMap fun t => match t with
      | .map a paths => do
        let (paths, r) ← pathsOf depth targets paths
        pure (.map a paths, r)
      | t => pure (t, .ok ()) : Edit Run) x s = ((x', .ok ()), s')) :
    x'.anchor = none ∧ PathsPlaced targets (x.entries?.getD []) (x'.entries?.getD []) := by
  cases x with
  | map a ps =>
    obtain rfl : a = none := hanchor
    obtain ⟨-, h⟩ | ⟨⟨⟩, -⟩ := Edit.whenMap_run h
    obtain ⟨⟨ps', r⟩, s₂, hps, h⟩ := bind_run.1 h
    obtain ⟨he, -⟩ := pure_run.1 h
    cases he
    exact ⟨rfl, pathsOf_run hitems hps⟩
  | _ =>
    obtain ⟨⟨⟩, -⟩ | ⟨-, rfl, -⟩ := Edit.whenMap_run h
    exact ⟨hanchor, .nil⟩

/-- A run keeps the root and the map of paths and places the path items. -/
theorem document_run {depth : Nat} (hd : Direct t)
    (h : document depth targets t s = ((t', .ok ()), s')) :
    t'.anchor = none ∧ (t'.getD "paths").anchor = none ∧
      PathsPlaced targets (pathItems t) (pathItems t') := by
  obtain ⟨u, s₁, h₁, h₂⟩ := Edit.andThen_run h
  cases t with
  | map a es =>
    obtain rfl : a = none := hd.anchor
    obtain ⟨_, _, es₁, ⟨⟩, rfl, hcomponents⟩ | ⟨⟨⟩, -⟩ := Edit.value_run h₁
    obtain ⟨_, _, es', ⟨⟩, rfl, hpaths⟩ | ⟨⟨⟩, -⟩ := Edit.value_run h₂
    have hkept : Entries.at? (.text "paths") es₁ = Entries.at? (.text "paths") es :=
      (Edit.valueIn_run hcomponents).2.1 _ (by decide)
    have hanchor := hd.paths
    have hitems := hd.items
    refine ⟨rfl, ?_⟩
    simp only [pathItems_map, Tree.getD_map, Entries.orNull, Entries.get?] at hanchor hitems ⊢
    obtain ⟨-, -, hat⟩ := Edit.valueIn_run hpaths
    rw [hkept] at hat
    cases hx : Entries.at? (.text "paths") es with
    | none =>
      rw [hx] at hat
      obtain ⟨rfl, -⟩ := hat
      rw [hkept, hx]
      exact ⟨rfl, .nil⟩
    | some x =>
      rw [hx] at hat hanchor hitems
      obtain ⟨x', hx', hrun⟩ := hat
      rw [hx']
      rw [Option.getD_some] at hanchor hitems
      rw [Edit.shared_of_anchor hanchor] at hrun
      exact paths_run hanchor hitems hrun
  | _ =>
    obtain ⟨_, _, _, ⟨⟩, -⟩ | ⟨-, rfl, -⟩ := Edit.value_run h₁
    obtain ⟨_, _, _, ⟨⟩, -⟩ | ⟨-, rfl, -⟩ := Edit.value_run h₂
    exact ⟨hd.anchor, rfl, .nil⟩

theorem integration_plain (target : Target) : Tree.Plain target.integration := by
  cases target <;>
    simp [Target.integration, Target.invocationUri, Scalar.anchor]

/-! ## The gateway's description -/

section

variable (records : List (Nat × Tree))

theorem pathItems_settle (h : t.anchor = none) (hpaths : (t.getD "paths").anchor = none) :
    pathItems (t.settle records) = (pathItems t).map fun e => (e.1, e.2.settle records) := by
  rw [pathItems, Tree.getD_settle records h, Tree.entries?_settle records hpaths, pathItems]
  cases (t.getD "paths").entries? <;> rfl

theorem Names.settle {op : Entries} {id : String} {target : Target} (h : Names op id target) :
    Names (op.map fun e => (e.1, e.2.settle records)) id target := by
  constructor
  · rw [Entries.get?, Entries.at?_map fun _ => Tree.settle records, ← Entries.get?, h.id,
      Option.map_some, Tree.settle_scalar]
  · rw [Entries.get?, Entries.at?_map fun _ => Tree.settle records, ← Entries.get?, h.function,
      Option.map_some, Tree.settle_plain records (integration_plain target)]

/-- A placed path item is no reference, and neither is its final form. -/
theorem ItemPlaced.dereference {x x' g : Tree} (hx : InPlace x) (h : ItemPlaced targets x x') :
    Reference.dereference g (x'.settle records) = .ok (x'.settle records) := by
  have hnot : Reference.isReference (x'.settle records) = false := by
    cases h with
    | other => rw [Tree.isReference_settle records hx.anchor hx.reference, hx.noReference]
    | @item es es' href _ =>
      have hgetD : (Tree.map none es').getD "$ref" = (Tree.map none es).getD "$ref" :=
        congrArg (fun o : Option Tree => o.getD .null) href
      rw [Tree.isReference_settle records rfl (hgetD ▸ hx.reference)]
      have hnot := hx.noReference
      rw [Reference.isReference] at hnot ⊢
      exact (congrArg (fun o : Option Tree => (o.bind Tree.text?).isSome) href).trans hnot
  rw [Reference.isReference, Option.isSome_eq_false_iff, Option.isNone_iff_eq_none] at hnot
  rw [Reference.dereference, hnot]
  rfl

/-- The operations in the final form of a placed path item name the functions of their identifiers. -/
theorem ItemPlaced.operation {x x' : Tree} (hx : InPlace x) (h : ItemPlaced targets x x') {m : Method}
    {op : Entries} (hop : ((x'.settle records).getD m.key).entries? = some op) :
    ∃ (id : String) (target : Target) (op₀ : Entries), (x.getD m.key).entries? = some op₀ ∧
      op₀.get? "operationId" = some (.text id) ∧ targets.lookup id = some target ∧
        Names op id target := by
  cases h with
  | other hmap =>
    have hmap' := (Tree.settle_of_anchor records hx.anchor).1.trans hmap
    rw [Tree.getD_of_not_map hmap'] at hop
    cases hop
  | @item es es' _ hmethods =>
    rw [Tree.getD_settle records rfl, Tree.getD_map] at hop
    have hanchor := hx.operations m
    rw [Tree.getD_map] at hanchor ⊢
    rw [Entries.orNull] at hop hanchor ⊢
    have hm := hmethods m
    cases hy : es'.get? m.key with
    | none =>
      rw [hy, Option.getD_none, Tree.settle_scalar] at hop
      cases hop
    | some y =>
      rw [hy] at hop hm
      generalize es.get? m.key = x at hm hanchor
      cases hm with
      | other hmap =>
        rw [Option.getD_some] at hop hanchor
        have hsome := (Tree.settle_of_anchor records hanchor).1.trans hmap
        rw [Tree.isMap, hop] at hsome
        cases hsome
      | named hid hserved hnames =>
        rw [Option.getD_some, Tree.settle_map] at hop
        cases hop
        exact ⟨_, _, _, rfl, hid, hserved, hnames.settle records⟩

/-- An operation whose identifier has a function is kept and names it. -/
theorem ItemPlaced.exists_operation {x x' : Tree} (h : ItemPlaced targets x x') {m : Method}
    {op₀ : Entries} {id : String} {target : Target} (hop : (x.getD m.key).entries? = some op₀)
    (hid : op₀.get? "operationId" = some (.text id)) (hserved : targets.lookup id = some target) :
    hasOperations (x'.entries?.getD []) = true ∧
      ∃ op, ((x'.settle records).getD m.key).entries? = some op ∧ Names op id target := by
  cases h with
  | other hmap =>
    rw [Tree.getD_of_not_map hmap] at hop
    cases hop
  | @item es es' _ hmethods =>
    have hm := hmethods m
    rw [Tree.getD_map, Entries.orNull] at hop
    generalize es.get? m.key = x at hm hop
    generalize hy : es'.get? m.key = y at hm
    have hkept {y' : Tree} (h : y = some y') : hasOperations es' = true := by
      refine List.any_eq_true.2 ⟨m, Method.mem_all m, ?_⟩
      rw [Entries.has, hy, h]
      rfl
    cases hm with
    | absent => cases hop
    | other hmap =>
      rw [Option.getD_some] at hop
      rw [Tree.isMap, hop] at hmap
      cases hmap
    | removed hunserved =>
      cases hop
      cases (hunserved id hid).symm.trans hserved
    | @named _ op _ _ hid' hserved' hnames =>
      cases hop
      cases hid.symm.trans hid'
      cases hserved.symm.trans hserved'
      refine ⟨hkept rfl, op.map fun e => (e.1, e.2.settle records), ?_, hnames.settle records⟩
      rw [Tree.getD_settle records rfl, Tree.getD_map, Entries.orNull, hy, Option.getD_some,
        Tree.settle_map]
      rfl

end

/-- The gateway's description names functions in the operations whose identifiers have one, and in no
other. -/
theorem integrates_describe {g : Tree} (hd : Direct t) (h : (describe t targets).1 = .ok g)
    {id function : Tree} : Integrates g id function ↔ ∃ (i : String) (target : Target),
      HasOperation t i ∧ targets.lookup i = some target ∧ id = .text i ∧
        function = target.integration := by
  unfold describe at h
  generalize hrun : (document (t.anchorBound + 1) targets t).run ⟨[], [], []⟩ = outcome at h
  obtain ⟨⟨t', r⟩, s⟩ := outcome
  cases r with
  | error f => cases h
  | ok =>
    cases h
    obtain ⟨hanchor, hpaths, hplaced⟩ := document_run hd hrun
    generalize s.records = records
    have hitems := pathItems_settle records hanchor hpaths
    constructor
    · rintro ⟨e, he, item, hitem, m, -, op, hop, hid, hfunction⟩
      rw [hitems] at he
      obtain ⟨e', he', rfl⟩ := List.mem_map.1 he
      obtain ⟨e₀, he₀, hp⟩ := hplaced.from he'
      rw [hp.dereference records (hd.items e₀ he₀)] at hitem
      cases hitem
      obtain ⟨i, target, op₀, hop₀, hid₀, hserved, hnames⟩ :=
        hp.operation records (hd.items e₀ he₀) hop
      refine ⟨i, target, ⟨e₀, he₀, m, op₀, hop₀, hid₀⟩, hserved, ?_, ?_⟩
      · exact Option.some.inj (hid.symm.trans hnames.id)
      · exact Option.some.inj (hfunction.symm.trans hnames.function)
    · rintro ⟨i, target, ⟨e₀, he₀, m, op₀, hop₀, hid₀⟩, hserved, rfl, rfl⟩
      obtain ⟨x', hp, hkept⟩ := hplaced.to he₀
      obtain ⟨hops, op, hop, hnames⟩ := hp.exists_operation records hop₀ hid₀ hserved
      obtain ⟨e', he', rfl⟩ | hnone := hkept
      · refine ⟨(e'.1, e'.2.settle records), hitems ▸ List.mem_map_of_mem he', _, ?_, m, m.mem_all, op,
          hop, hnames.id, hnames.function⟩
        rw [hp.dereference records (hd.items e₀ he₀)]
        rfl
      · cases hops.symm.trans hnone

end Gateway

/-! ## Planned operations -/

theorem Operation.id_of_ofEntries {t : Tree} {path : Scalar} {m : Method} {shared : List Tree}
    {op : Entries} {o : Operation} (h : ofEntries t path m shared op = .ok o) :
    Record.textOrNone (op.orNull "operationId") = .ok o.id := by
  obtain ⟨_, -, h⟩ := bind_eq_ok.1 h
  obtain ⟨_, -, h⟩ := bind_eq_ok.1 h
  obtain ⟨_, -, h⟩ := bind_eq_ok.1 h
  obtain ⟨_, -, h⟩ := bind_eq_ok.1 h
  obtain ⟨_, -, h⟩ := bind_eq_ok.1 h
  obtain ⟨_, -, h⟩ := bind_eq_ok.1 h
  exact (Draft.check_eq_ok h).1

/-- Where everything is given in place, the operations that are collected stand in the path items, with
their identifiers as texts. -/
theorem Operation.hasOperation_of_collect {t : Tree} (hd : Gateway.Direct t) {operations : List Operation}
    (h : collect t = .ok operations) {o : Operation} (ho : o ∈ operations) {id : String}
    (hid : o.id = some id) : Gateway.HasOperation t id := by
  cases t with
  | map a es =>
    obtain ⟨paths, hpaths, h⟩ := bind_eq_ok.1 h
    obtain ⟨found, hfound, h⟩ := bind_eq_ok.1 h
    cases h
    obtain ⟨os, hos, ho⟩ := List.mem_flatten.1 (List.mem_mergeSort.1 ho)
    obtain ⟨e, he, hitem⟩ := mem_of_mapM hfound hos
    have hmem : e ∈ Gateway.pathItems (.map a es) := by
      obtain ⟨b, hb⟩ := mem_of_entriesOf hpaths he
      rw [Gateway.pathItems_map, Entries.orNull, hb]
      exact he
    obtain ⟨item, hderef, hitem⟩ := bind_eq_ok.1 hitem
    have hnot := (hd.items e hmem).noReference
    rw [Reference.isReference, Option.isSome_eq_false_iff, Option.isNone_iff_eq_none] at hnot
    rw [Reference.dereference, hnot] at hderef
    cases hderef
    cases hx : e.2 with
    | map b fs =>
      rw [hx] at hitem
      obtain ⟨shared, -, hitem⟩ := bind_eq_ok.1 hitem
      obtain ⟨m, -, hm⟩ := mem_of_filterMapM hitem ho
      cases hop : Entries.get? fs m.key with
      | none => rw [hop] at hm; cases hm
      | some x =>
        rw [hop] at hm
        cases x with
        | map c op =>
          obtain ⟨o', ho', heq⟩ := bind_eq_ok.1 hm
          cases heq
          have hread := id_of_ofEntries ho'
          rw [hid] at hread
          have hentries : (e.2.getD m.key).entries? = some op := by
            rw [hx, Tree.getD_map, Entries.orNull, hop]
            rfl
          refine ⟨e, hmem, m, op, hentries, ?_⟩
          obtain htext | ⟨octets, hbytes⟩ := Record.of_textOrNone hread
          · exact Entries.get?_of_orNull htext (by simp)
          · have hnot := hd.identifiers e hmem m
            rw [hx, Tree.getD_map, Entries.orNull, hop, Option.getD_some, Tree.getD_map, hbytes] at hnot
            cases hnot
        | _ => cases hm
    | _ =>
      rw [hx] at hitem
      cases hitem
      exact absurd ho List.not_mem_nil
  | _ => cases h

/-- Where all path items and operations are given in place, the operations that the gateway passes on are
those that have a plan, each to the function of the unit with the plan. -/
theorem Compilation.integrates_iff_planned {disk : Disk} {input : String} {source : Source}
    {units : List Deployment} {c : Compilation} {notices : List Notice}
    (h : ofSource disk input source units true = (.ok c, notices))
    (hunits : (units.map (·.name)).Nodup) (hd : Gateway.Direct c.document) :
    ∃ g, c.gateway = some g ∧ ∀ id function, Gateway.Integrates g id function ↔
      ∃ u ∈ c.units, ∃ p ∈ c.plansOf u.name, ∃ target, u.target = some target ∧
        id = .text p.id ∧ function = target.integration := by
  obtain ⟨rfl, assigned, table, operations, s, s', hmade, hdescribed⟩ := made_of_ofSource h
  obtain ⟨ts, hts, g, hg, hgateway⟩ := hdescribed rfl
  refine ⟨g, hgateway, fun id function => ?_⟩
  rw [Gateway.integrates_describe hd hg]
  have hlookup : ∀ {i target}, ts.lookup i = some target ↔ _ :=
    lookup_targets hts hmade.served hmade.unique hunits
  constructor
  · rintro ⟨i, target, -, hserved, rfl, rfl⟩
    obtain ⟨u, hu, ht, hassigned⟩ := hlookup.1 hserved
    obtain ⟨p, hp, rfl⟩ := (hmade.exists_plan u.name i).2 hassigned
    exact ⟨u, hu, p, hp, target, ht, rfl, rfl⟩
  · rintro ⟨u, hu, p, hp, target, ht, rfl, rfl⟩
    obtain ⟨o, ho, hid⟩ := (hmade.exists_plan u.name p.id).1 ⟨p, hp, rfl⟩
    refine ⟨p.id, target, ?_, hlookup.2 ⟨u, hu, ht, o, ho, hid⟩, rfl, rfl⟩
    rw [Deployment.lookup_assign hmade.served (List.mem_map_of_mem hu), Option.getD_some,
      List.mem_filter] at ho
    exact Operation.hasOperation_of_collect hd hmade.collected ho.1 hid

/-! ## A path item in place and behind a reference -/

namespace Compilation

/-- A path item with an operation. -/
def sampleItem : Tree :=
  .object [("get", .object [("operationId", .text "listFoo")])]

/-- A description with one path. -/
def samplePath (item : Tree) (more : List (String × Tree)) : Tree :=
  .object ([("openapi", .text "3.0.0"), ("paths", .object [("/a", item)])] ++ more)

/-- The same operation behind a reference to a path item. -/
def sampleReference : Tree :=
  samplePath (Reference.asTree "#/components/pathItems/A")
    [("components", .object [("pathItems", .object [("A", sampleItem)])])]

/-- One unit that serves everything. -/
def sampleUnit : Deployment := ⟨"all", some (.template "Handler"), none⟩

/-- What comes of a description that is given on the standard input. -/
def sampleRun (t : Tree) : Except Failure Compilation × List Notice :=
  ofSource ⟨⟨true, []⟩, [], []⟩ ((Json.print? .compact t).getD "") .input [sampleUnit] true

/-- The operation of a path item in place has a plan, and the gateway passes it on. -/
theorem integrates_sampleItem : ∃ c notices g, sampleRun (samplePath sampleItem []) = (.ok c, notices) ∧
    c.gateway = some g ∧
      Gateway.Integrates g (.text "listFoo") (Target.template "Handler").integration := by
  have hrun : (sampleRun (samplePath sampleItem [])).1.toOption.map (fun c =>
      (decide (Gateway.Direct c.document), (c.plansOf "all").map (·.id))) =
        some (true, ["listFoo"]) := by decide +kernel
  obtain ⟨c, hc, hfacts⟩ := Option.map_eq_some_iff.1 hrun
  obtain ⟨hd, hplans⟩ := Prod.mk.inj hfacts
  have hok := eq_ok_of_toOption_fst hc
  have hunits : c.units = [sampleUnit] := (made_of_ofSource hok).1
  obtain ⟨g, hg, hiff⟩ := integrates_iff_planned hok (by decide) (of_decide_eq_true hd)
  have hmem : "listFoo" ∈ (c.plansOf "all").map (·.id) := hplans ▸ List.mem_cons_self
  obtain ⟨p, hp, hid⟩ := List.mem_map.1 hmem
  refine ⟨c, _, g, hok, hg, (hiff _ _).2 ⟨sampleUnit, ?_, p, hp, .template "Handler", rfl, ?_, rfl⟩⟩
  · rw [hunits]
    exact List.mem_cons_self
  · rw [hid]

/-- The operation of a path item behind a reference has a plan, and the gateway does not pass it on. -/
theorem not_integrates_sampleReference : ∃ c notices g,
    sampleRun sampleReference = (.ok c, notices) ∧ c.gateway = some g ∧
      (∃ u ∈ c.units, ∃ p ∈ c.plansOf u.name, u.target = some (.template "Handler") ∧
        p.id = "listFoo") ∧
      ¬ Gateway.Integrates g (.text "listFoo") (Target.template "Handler").integration := by
  have hrun : (sampleRun sampleReference).1.toOption.bind (fun c =>
      c.gateway.map fun g => (decide (Gateway.Integrates g (.text "listFoo")
        (Target.template "Handler").integration), (c.plansOf "all").map (·.id))) =
        some (false, ["listFoo"]) := by decide +kernel
  obtain ⟨c, hc, hg⟩ := Option.bind_eq_some_iff.1 hrun
  obtain ⟨g, hg, hfacts⟩ := Option.map_eq_some_iff.1 hg
  obtain ⟨hnot, hplans⟩ := Prod.mk.inj hfacts
  have hok := eq_ok_of_toOption_fst hc
  have hunits : c.units = [sampleUnit] := (made_of_ofSource hok).1
  refine ⟨c, _, g, hok, hg, ⟨sampleUnit, ?_, ?_⟩, of_decide_eq_false hnot⟩
  · rw [hunits]
    exact List.mem_cons_self
  · have hmem : "listFoo" ∈ (c.plansOf "all").map (·.id) := hplans ▸ List.mem_cons_self
    obtain ⟨p, hp, hid⟩ := List.mem_map.1 hmem
    exact ⟨p, hp, rfl, hid⟩

end Compilation

end ApiContract
