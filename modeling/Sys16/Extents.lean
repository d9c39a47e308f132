import Mathlib.Data.List.Basic
import Mathlib.Algebra.BigOperators.Group.List.Basic
import Mathlib.Algebra.GroupWithZero.Nat

/-!
# Consecutive extents

Items laid out one after the other from a position on, each over as many
places as it costs: the extents are inside the range of their total cost, and
together they are that range, each place once.
-/

namespace Sys16.Extents

variable {α : Type*} (cost : α → ℕ)

/-- Each item with the position it starts at. -/
def layout : ℕ → List α → List (ℕ × α)
  | _, [] => []
  | a, x :: l => (a, x) :: layout (a + cost x) l

/-- The places that a list of items takes. -/
def total (l : List α) : ℕ := (l.map cost).sum

variable {cost} {a s : ℕ} {x : α} {l : List α}

@[simp] theorem total_nil : total cost ([] : List α) = 0 := rfl

theorem total_cons (x : α) (l : List α) : total cost (x :: l) = cost x + total cost l :=
  List.sum_cons

theorem total_append (l m : List α) : total cost (l ++ m) = total cost l + total cost m := by
  unfold total
  rw [List.map_append, List.sum_append]

/-- An item added at the end starts where the others end. -/
theorem layout_concat (a : ℕ) (l : List α) (x : α) :
    layout cost a (l ++ [x]) = layout cost a l ++ [(a + total cost l, x)] := by
  induction l generalizing a with
  | nil => rfl
  | cons y l ih =>
    rw [List.cons_append, layout, layout, ih, total_cons, Nat.add_assoc, List.cons_append]

variable (cost) in
theorem map_snd_layout (a : ℕ) (l : List α) : (layout cost a l).map Prod.snd = l := by
  induction l generalizing a with
  | nil => rfl
  | cons x l ih => rw [layout, List.map_cons, ih]

variable (cost) in
/-- Every piece of the list is laid out. -/
theorem exists_mem_layout (hx : x ∈ l) (a : ℕ) : ∃ s, (s, x) ∈ layout cost a l := by
  rw [← map_snd_layout cost a l] at hx
  obtain ⟨p, hp, rfl⟩ := List.mem_map.mp hx
  exact ⟨p.1, hp⟩

/-- A piece that is laid out is one of the list. -/
theorem mem_of_mem_layout (h : (s, x) ∈ layout cost a l) : x ∈ l := by
  rw [← map_snd_layout cost a l]
  exact List.mem_map_of_mem (f := Prod.snd) h

/-- Every extent lies inside the range. -/
theorem layout_bounds (h : (s, x) ∈ layout cost a l) :
    a ≤ s ∧ s + cost x ≤ a + total cost l := by
  induction l generalizing a with
  | nil => cases h
  | cons y l ih =>
    rw [total_cons]
    rcases List.mem_cons.mp h with h | h
    · cases h
      omega
    · have hrest := ih h
      omega

/-- The extents put together are the range. -/
theorem flatMap_layout (a : ℕ) (l : List α) :
    ((layout cost a l).flatMap fun p => List.range' p.1 (cost p.2)) =
      List.range' a (total cost l) := by
  induction l generalizing a with
  | nil => rfl
  | cons x l ih =>
    rw [layout, List.flatMap_cons, ih, total_cons]
    simp only [List.range'_append_1]

end Sys16.Extents
