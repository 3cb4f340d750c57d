import ApiContract.Gateway
import ApiContract.Proofs.Edit

/-!
# A walk that takes discriminators away

A walk changes an object only behind the edges that lead on from it. `OffEdges ends es es'` says that of
its entries; `pathItem_walk` says it of a path item and of the operations in it.
-/

namespace ApiContract.Gateway

open Walk

/-- Entries with the same keys, which differ under some of them at most. -/
structure OffEdges (ends : List String) (es es' : Entries) : Prop where
  keys : es'.keys = es.keys
  others : ∀ k, (∀ key ∈ ends, k ≠ .text key) → es'.at? k = es.at? k

variable {s s' : State} {es es' : Entries} {v : Visitor Run} {x x' : Tree}

theorem OffEdges.refl (ends : List String) (es : Entries) : OffEdges ends es es :=
  ⟨rfl, fun _ _ => rfl⟩

theorem OffEdges.get? {ends : List String} (h : OffEdges ends es es') {key : String}
    (hkey : key ∉ ends) : es'.get? key = es.get? key := by
  refine h.others _ fun k hk he => hkey ?_
  cases he
  exact hk

/-- Along edges, only the values at the ends of edges change. -/
theorem alongEdges_run {children : List (Scalar × Tree × Visit Run)} :
    ∀ {edges : List (String × Kind)} {es es' : Entries} {s s' : State},
      (edges.map (·.1)).Nodup →
      (∀ edge ∈ edges, es.get? edge.1 = (children.lookup (.text edge.1)).map (·.1)) →
      alongEdges v children edges es s = ((es', .ok ()), s') →
      OffEdges (edges.map (·.1)) es es' ∧
        ∀ edge ∈ edges, ∀ t visit, children.lookup (.text edge.1) = some (t, visit) →
          ∃ t' s₁ s₂, es'.get? edge.1 = some t' ∧ slot v edge.2 t visit s₁ = ((t', .ok ()), s₂)
  | [], es, es', s, s', _, _, h => by
    obtain ⟨he, -⟩ := pure_run.1 h
    cases he
    exact ⟨.refl _ _, fun _ hm => absurd hm List.not_mem_nil⟩
  | (key, kind) :: edges, es, es', s, s', hn, hat, h => by
    obtain ⟨hnot, hn⟩ := List.nodup_cons.1 hn
    have hat₀ := hat _ List.mem_cons_self
    rw [alongEdges] at h
    cases hlookup : children.lookup (.text key) with
    | none =>
      rw [hlookup] at h
      obtain ⟨hoff, hends⟩ := alongEdges_run hn
        (fun edge hm => hat edge (List.mem_cons_of_mem _ hm)) h
      refine ⟨⟨hoff.keys, fun k hk => hoff.others k fun key hm => hk key (List.mem_cons_of_mem _ hm)⟩,
        fun edge hm t visit ht => ?_⟩
      rcases List.mem_cons.1 hm with rfl | hm
      · cases hlookup.symm.trans ht
      · exact hends edge hm t visit ht
    | some child =>
      obtain ⟨t, visit⟩ := child
      rw [hlookup] at hat₀ h
      obtain ⟨⟨t', r⟩, s₁, h₁, h⟩ := bind_run.1 h
      cases r with
      | error f => cases (pure_run.1 h).1
      | ok =>
        have hne : ∀ edge ∈ edges, (.text edge.1 : Scalar) ≠ .text key := by
          intro edge hm he
          exact hnot (List.mem_map.2 ⟨edge, hm, Scalar.text.inj he⟩)
        obtain ⟨hoff, hends⟩ := alongEdges_run hn (fun edge hm => by
          rw [Entries.get?, Entries.set, Entries.at?_put_ne (hne edge hm)]
          exact hat edge (List.mem_cons_of_mem _ hm)) h
        have hmem : (.text key : Scalar) ∈ es.map (·.1) :=
          List.mem_map_of_mem (Entries.mem_of_at? hat₀)
        refine ⟨⟨?_, fun k hk => ?_⟩, fun edge hm u visit' hu => ?_⟩
        · rw [hoff.keys]
          exact Entries.keys_put_of_mem _ hmem
        · rw [hoff.others k fun key hm => hk key (List.mem_cons_of_mem _ hm), Entries.set,
            Entries.at?_put_ne (hk _ List.mem_cons_self)]
        · rcases List.mem_cons.1 hm with rfl | hm
          · cases hlookup.symm.trans hu
            refine ⟨t', s, s₁, ?_, h₁⟩
            rw [Entries.get?, hoff.others _ ?_, Entries.set, Entries.at?_put_self]
            rintro key' hkey' he
            cases he
            exact hnot hkey'
          · exact hends edge hm u visit' hu

/-- A walk from a map that no other place shares. -/
theorem walk_map (v : Visitor Run) (bound : Nat) (es : Entries) (kind : Kind) :
    walk v bound (.map none es) kind =
      object v none (es.map fun e => (e.1, e.2, walk v bound e.2)) kind := by
  simp only [walk, Tree.para, Tree.paraEntries_eq, Walk.cases, Edit.visitShared, List.map_map]
  rfl

/-- A walk from a list that no other place shares. -/
theorem walk_list (v : Visitor Run) (bound : Nat) (ts : List Tree) (kind : Kind) :
    walk v bound (.list none ts) kind = match kind with
      | .listOf k => do
        let (ts, r) ← eachItem v k (ts.map fun t => (t, walk v bound t))
        pure (.list none ts, r)
      | _ => pure (.list none ts, v.onOther kind (.list none ts)) := by
  cases kind <;> simp only [walk, Tree.para, Tree.paraItems_eq, Walk.cases, Edit.visitShared,
    List.map_map, Function.comp_def, List.map_id']

/-- Whether the parts of an object are visited along edges, and not one after the other. -/
def HasEdges : Kind → Prop
  | .mapOf _ | .listOf _ | .callback => False
  | _ => True

/-- A walk through an object of a kind with edges goes along these, and then does what is left to do. -/
theorem object_edges {bound : Nat} {kind : Kind} (hkind : HasEdges kind)
    (h : walk visitor bound (.map none es) kind s = ((x', .ok ()), s')) :
    ∃ (es' : Entries) (s₁ : State),
      alongEdges visitor (es.map fun e => (e.1, e.2, walk visitor bound e.2)) (edges kind) es s =
          ((es', .ok ()), s₁) ∧
        visitor.after kind (.map none es') s₁ = ((x', .ok ()), s') := by
  have hentries : (es.map fun e => (e.1, e.2, walk visitor bound e.2)).map
      (fun c : Scalar × Tree × Visit Run => (c.1, c.2.1)) = es := by
    rw [List.map_map]
    exact List.map_id' es
  rw [walk_map] at h
  cases kind <;> first | exact hkind.elim | skip
  all_goals
    unfold object at h
    rw [hentries] at h
    obtain ⟨⟨es', r⟩, s₁, h₁, h⟩ := bind_run.1 h
    cases r with
    | error f => cases (pure_run.1 h).1
    | ok => exact ⟨es', s₁, h₁, h⟩

theorem edges_nodup {kind : Kind} (hkind : HasEdges kind) : ((edges kind).map (·.1)).Nodup := by
  cases kind <;> first | exact hkind.elim | decide

/-- What the edges of an object lead to is visited. -/
theorem edges_run {bound : Nat} {kind : Kind} (hkind : HasEdges kind)
    (h : alongEdges visitor (es.map fun e => (e.1, e.2, walk visitor bound e.2)) (edges kind) es s =
      ((es', .ok ()), s')) :
    OffEdges ((edges kind).map (·.1)) es es' ∧
      ∀ edge ∈ edges kind, ∀ t, es.get? edge.1 = some t → ∃ t' s₁ s₂, es'.get? edge.1 = some t' ∧
        slot visitor edge.2 t (walk visitor bound t) s₁ = ((t', .ok ()), s₂) := by
  obtain ⟨hoff, hends⟩ := alongEdges_run (edges_nodup hkind)
    (fun edge _ => by rw [Entries.lookup_children, Option.map_map]; exact Option.map_id'.symm) h
  refine ⟨hoff, fun edge hm t ht => hends edge hm t _ ?_⟩
  rw [Entries.lookup_children, ← Entries.get?_eq_at?, ht]
  rfl

/-- A walk finds an object of a kind with edges. -/
theorem object_run {bound : Nat} {kind : Kind} (hkind : HasEdges kind)
    (h : walk visitor bound (.map none es) kind s = ((x', .ok ()), s')) :
    ∃ (es' : Entries) (s₁ : State), OffEdges ((edges kind).map (·.1)) es es' ∧
      (∀ edge ∈ edges kind, ∀ t, es.get? edge.1 = some t → ∃ t' s₁ s₂, es'.get? edge.1 = some t' ∧
        slot visitor edge.2 t (walk visitor bound t) s₁ = ((t', .ok ()), s₂)) ∧
      visitor.after kind (.map none es') s₁ = ((x', .ok ()), s') := by
  obtain ⟨es', s₁, h₁, h⟩ := object_edges hkind h
  obtain ⟨hoff, hends⟩ := edges_run hkind h₁
  exact ⟨es', s₁, hoff, hends, h⟩

/-- Of a path item or an operation, a walk changes nothing but the parts. -/
theorem object_parts {bound : Nat} {kind : Kind} (hkind : kind = .pathItem ∨ kind = .operation)
    (h : walk visitor bound (.map none es) kind s = ((x', .ok ()), s')) :
    ∃ es' : Entries, x' = .map none es' ∧ OffEdges ((edges kind).map (·.1)) es es' ∧
      ∀ edge ∈ edges kind, ∀ t, es.get? edge.1 = some t → ∃ t' s₁ s₂, es'.get? edge.1 = some t' ∧
        slot visitor edge.2 t (walk visitor bound t) s₁ = ((t', .ok ()), s₂) := by
  have hedges : HasEdges kind := by rcases hkind with rfl | rfl <;> trivial
  obtain ⟨es', s₁, hoff, hends, h⟩ := object_run hedges h
  have hafter : visitor.after kind (.map none es') = pure (.map none es', .ok ()) := by
    rcases hkind with rfl | rfl <;> rfl
  rw [hafter] at h
  obtain ⟨heq, -⟩ := pure_run.1 h
  cases heq
  exact ⟨es', rfl, hoff, hends⟩

/-- What a walk makes of what stands in the place of an operation. -/
def Operates (x x' : Tree) : Prop :=
  (x.isMap = false ∧ x' = x) ∨
    ∃ es es', x = .map none es ∧ x' = .map none es' ∧ OffEdges ((edges .operation).map (·.1)) es es'

theorem operation_walk {bound : Nat} (hx : x.anchor = none)
    (h : slot visitor .operation x (walk visitor bound x) s = ((x', .ok ()), s')) :
    Operates x x' := by
  have hslot : slot visitor .operation x (walk visitor bound x) = walk visitor bound x .operation := rfl
  rw [hslot] at h
  cases x with
  | map a es =>
    obtain rfl : a = none := hx
    obtain ⟨es', rfl, hoff, -⟩ := object_parts (.inr rfl) h
    exact .inr ⟨es, es', rfl, rfl, hoff⟩
  | list a ts =>
    obtain rfl : a = none := hx
    rw [walk_list] at h
    obtain ⟨heq, -⟩ := pure_run.1 h
    cases heq
    exact .inl ⟨rfl, rfl⟩
  | back => cases (pure_run.1 h).1
  | _ =>
    obtain ⟨heq, -⟩ := pure_run.1 h
    cases heq
    exact .inl ⟨rfl, rfl⟩

/-- A walk through a path item changes its operations and parameters at most, and an operation only
behind its edges. -/
theorem pathItem_walk {bound : Nat} (hops : ∀ m ∈ Method.all, (es.orNull m.key).anchor = none)
    (h : walk visitor bound (.map none es) .pathItem s = ((x', .ok ()), s')) :
    ∃ es' : Entries, x' = .map none es' ∧ OffEdges ((edges .pathItem).map (·.1)) es es' ∧
      ∀ m ∈ Method.all, ∀ t, es.get? m.key = some t →
        ∃ t', es'.get? m.key = some t' ∧ Operates t t' := by
  obtain ⟨es', rfl, hoff, hends⟩ := object_parts (.inl rfl) h
  refine ⟨es', rfl, hoff, fun m hm t ht => ?_⟩
  have hedge : (m.key, Kind.operation) ∈ edges .pathItem :=
    List.mem_append_left _ (List.mem_map_of_mem hm)
  obtain ⟨t', s₁, s₂, ht', hslot⟩ := hends _ hedge t ht
  refine ⟨t', ht', operation_walk ?_ hslot⟩
  simpa [Entries.orNull, ht] using hops m hm

end ApiContract.Gateway
