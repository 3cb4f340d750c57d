import ApiContract.Proofs.Except
import ApiContract.Proofs.Lists
import ApiContract.Proofs.Tree.Plain
import ApiContract.Record

/-!
# Checked records

What a check that ends well has found: a list its items, a map its entries, each under the text that
its key is read as.
-/

namespace ApiContract.Record

variable {α β : Type}

theorem mapError_eq_ok {ε ε' : Type} {f : ε → ε'} {r : Except ε α} {a : α} :
    r.mapError f = .ok a ↔ r = .ok a := by
  cases r <;> simp [Except.mapError]

theorem toFailure_eq_ok {c : Check α} {a : α} : toFailure c = .ok a ↔ c = .ok a :=
  mapError_eq_ok

@[simp] theorem at_eq_ok {steps : List Step} {c : Check α} {a : α} : at_ steps c = .ok a ↔ c = .ok a :=
  mapError_eq_ok

@[simp] theorem field_eq_ok {name : String} {c : Check α} {a : α} : field name c = .ok a ↔ c = .ok a :=
  at_eq_ok

@[simp] theorem both_eq_ok {a : Check α} {b : Check β} {p : α × β} :
    both a b = .ok p ↔ a = .ok p.1 ∧ b = .ok p.2 := by
  obtain ⟨x, y⟩ := p
  cases a <;> cases b <;> simp [both]

/-- Checks in a row end well if each does. -/
theorem each_eq_ok {cs : List (Check α)} {as : List α} :
    each cs = .ok as ↔ List.Forall₂ (fun c a => c = .ok a) cs as := by
  induction cs generalizing as with
  | nil => simp [each, eq_comm]
  | cons c cs ih =>
    cases as with
    | nil => simp [each, map_eq_ok]
    | cons a as => simp [each, map_eq_ok, ← ih]

theorem each_map_eq_ok {f : α → Check β} {as : List α} {bs : List β} :
    each (as.map f) = .ok bs ↔ List.Forall₂ (fun a b => f a = .ok b) as bs := by
  rw [each_eq_ok, List.forall₂_map_left_iff]

/-- The way to an item does not change what it is checked to be. -/
theorem each_mapIdx_eq_ok {steps : Nat → List Step} {f : α → Check β} {as : List α} {bs : List β} :
    each (as.mapIdx fun i a => at_ (steps i) (f a)) = .ok bs ↔
      List.Forall₂ (fun a b => f a = .ok b) as bs := by
  rw [each_eq_ok]
  induction as generalizing bs steps with
  | nil => simp
  | cons a as ih =>
    rw [List.mapIdx_cons]
    cases bs with
    | nil => simp
    | cons b bs => rw [List.forall₂_cons, List.forall₂_cons, ih, at_eq_ok]

/-- Every result of checks in a row is that of one of them. -/
theorem mem_of_each {cs : List (Check α)} {as : List α} (h : each cs = .ok as) {a : α} (ha : a ∈ as) :
    .ok a ∈ cs := by
  obtain ⟨c, hc, rfl⟩ := mem_of_forall₂_right (each_eq_ok.1 h) ha
  exact hc

theorem mem_of_listOf {item : Tree → Check α} {a : Anchor} {ts : List Tree} {as : List α}
    (h : listOf item (.list a ts) = .ok as) {x : α} (hx : x ∈ as) : ∃ t ∈ ts, item t = .ok x := by
  obtain ⟨_, ⟨⟩, h⟩ := bind_eq_ok.1 h
  obtain ⟨i, hi, hc⟩ := List.mem_mapIdx.1 (mem_of_each h hx)
  exact ⟨_, List.getElem_mem hi, at_eq_ok.1 hc⟩

theorem optional_eq_some {check : Tree → Check α} {t : Tree} {a : α}
    (h : optional check t = .ok (some a)) : check t = .ok a := by
  unfold optional at h
  split at h
  · cases h
  · cases hc : check t with
    | error e => rw [hc] at h; cases h
    | ok b => rw [hc] at h; cases h; rfl

theorem mem_foldl_put {l : List (String × Tree)} {done : Entries} {e : Scalar × Tree}
    (h : e ∈ l.foldl (fun done f => Entries.put (.text f.1) f.2 done) done) :
    e ∈ done ∨ ∃ f ∈ l, e = (.text f.1, f.2) := by
  induction l generalizing done with
  | nil => exact .inl h
  | cons f l ih =>
    rcases ih h with h | ⟨g, hg, rfl⟩
    · rcases Entries.mem_put h with rfl | h
      · exact .inr ⟨f, List.mem_cons_self, rfl⟩
      · exact .inl h
    · exact .inr ⟨g, List.mem_cons_of_mem _ hg, rfl⟩

/-- What a map is checked to be has its values, each under the text that its key is read as. -/
theorem mem_of_map {t : Tree} {es : Entries} (h : map t = .ok es) :
    ∃ a fs, t = .map a fs ∧ ∀ e ∈ es, ∃ f ∈ fs, ∃ s, key f.1 = .ok s ∧ e = (.text s, f.2) := by
  obtain ⟨l, hl, h⟩ := bind_eq_ok.1 h
  cases h
  cases t with
  | map a fs =>
    refine ⟨a, fs, rfl, fun e he => ?_⟩
    obtain he | ⟨p, hp, rfl⟩ := mem_foldl_put he
    · exact absurd he List.not_mem_nil
    · obtain ⟨f, hf, hc⟩ := List.mem_map.1 (mem_of_each hl hp)
      obtain ⟨hk, hv⟩ := both_eq_ok.1 hc
      exact ⟨f, hf, _, hk, by rw [Except.ok.inj (at_eq_ok.1 hv)]⟩
  | _ => cases hl

/-- What counts as nothing is read as no text, or as an empty one. -/
theorem isEmpty_of_textOrNone {t : Tree} {s : Option String} (h : textOrNone t = .ok s)
    (ht : t.truthy = false) : (s.getD "").isEmpty = true := by
  unfold textOrNone at h
  split at h
  · cases h; rfl
  · cases t with
    | scalar k =>
      cases k with
      | text s =>
        cases h
        simpa [Tree.truthy, Scalar.truthy] using ht
      | bytes octets =>
        obtain rfl : octets = [] := by simpa [Tree.truthy, Scalar.truthy] using ht
        cases h
        rfl
      | _ => cases h
    | _ => cases h

/-- A text is read from a text or from octets. -/
theorem of_textOrNone {t : Tree} {s : String} (h : textOrNone t = .ok (some s)) :
    t = .text s ∨ ∃ octets, t = .scalar (.bytes octets) := by
  cases t with
  | scalar k =>
    cases k with
    | text s' => cases h; exact .inl rfl
    | bytes octets => exact .inr ⟨octets, rfl⟩
    | _ => cases h
  | _ => cases h

end ApiContract.Record
