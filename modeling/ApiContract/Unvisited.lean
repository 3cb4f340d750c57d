/-!
# Unvisited elements

A search that never visits an element twice on one path ends: each step leaves fewer elements that
are not on the path. `unvisited_append_lt` is the step; searches over finite tables take `unvisited`
as their measure.
-/

namespace ApiContract

theorem countP_lt_countP {p q : α → Bool} {a : α} :
    ∀ {l : List α}, a ∈ l → (∀ x, q x = true → p x = true) → p a = true → q a = false →
      l.countP q < l.countP p
  | [], h, _, _, _ => by simp at h
  | b :: l, h, hqp, hp, hq => by
    have mono : l.countP q ≤ l.countP p := List.countP_mono_left fun x _ => hqp x
    rcases List.mem_cons.1 h with rfl | h
    · simp only [List.countP_cons, hp, hq]; simp; omega
    · have ih := countP_lt_countP h hqp hp hq
      simp only [List.countP_cons]
      cases hb : q b
      · simp; split <;> omega
      · simp [hqp b hb]; omega

variable {α : Type} [BEq α] [LawfulBEq α]

/-- The number of elements that are not on a path. -/
def unvisited (all path : List α) : Nat :=
  all.countP fun a => !path.contains a

/-- Visiting an element for the first time leaves fewer to visit. -/
theorem unvisited_append_lt {all path : List α} {a : α} (h : a ∈ all) (hn : a ∉ path) :
    unvisited all (path ++ [a]) < unvisited all path := by
  refine countP_lt_countP h ?_ ?_ ?_
  · intro s; simp +contextual
  · simpa using hn
  · simp

end ApiContract
