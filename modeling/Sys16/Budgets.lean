import Mathlib.Data.List.Basic

/-!
# Loops that draw on budgets

A loop whose passes each take a fixed amount out of some budgets. It completes
when no pass is refused for a reason of its own and the budgets cover the sum,
and it leaves the rest of them.
-/

namespace Sys16.Budgets

variable {α β ε ι : Type*} {f : β → α → Except ε β} {all done l : List α}
  {I : List α → β → Prop} {P : α → Prop} {cost : α → ι → ℕ} {left : β → ι → ℕ} {b b' : β}

/-- What the elements of a list take out of a budget. -/
def total (cost : α → ι → ℕ) : List α → ι → ℕ
  | [], _ => 0
  | a :: l, i => cost a i + total cost l i

theorem total_cons (cost : α → ι → ℕ) (a : α) (l : List α) (i : ι) :
    total cost (a :: l) i = cost a i + total cost l i := rfl

/-- The total over two lists is the sum of the totals. -/
theorem total_append (cost : α → ι → ℕ) (xs ys : List α) (i : ι) :
    total cost (xs ++ ys) i = total cost xs i + total cost ys i := by
  induction xs with
  | nil => exact (Nat.zero_add _).symm
  | cons a xs ih => rw [List.cons_append, total_cons, total_cons, ih, Nat.add_assoc]

/-- Equal costs have equal totals. -/
theorem total_congr {cost' : α → ι → ℕ} {i : ι} (h : ∀ a ∈ l, cost a i = cost' a i) :
    total cost l i = total cost' l i := by
  induction l with
  | nil => rfl
  | cons a l ih =>
    rw [total_cons, total_cons, h a List.mem_cons_self,
      ih fun x hx => h x (List.mem_cons_of_mem a hx)]

/-- The total of a sum is the sum of the totals. -/
theorem total_add (cost cost' : α → ι → ℕ) (l : List α) (i : ι) :
    total (fun a i => cost a i + cost' a i) l i = total cost l i + total cost' l i := by
  induction l with
  | nil => rfl
  | cons a l ih =>
    rw [total_cons, total_cons, total_cons, ih]
    omega

/-- The total over an image is the total of the composed cost. -/
theorem total_map {γ : Type*} (cost : α → ι → ℕ) (g : γ → α) (l : List γ) (i : ι) :
    total cost (l.map g) i = total (fun c => cost (g c)) l i := by
  induction l with
  | nil => rfl
  | cons c l ih => rw [List.map_cons, total_cons, total_cons, ih]

/-- The total over a concatenation is the total of the totals. -/
theorem total_flatMap {γ : Type*} (cost : α → ι → ℕ) (g : γ → List α) (l : List γ) (i : ι) :
    total cost (l.flatMap g) i = total (fun c => total cost (g c)) l i := by
  induction l with
  | nil => rfl
  | cons c l ih => rw [List.flatMap_cons, total_append, total_cons, ih]

/-- The total does not depend on the order. -/
theorem total_perm {xs ys : List α} (h : xs.Perm ys) (i : ι) : total cost xs i = total cost ys i := by
  induction h with
  | nil => rfl
  | cons a _ ih => rw [total_cons, total_cons, ih]
  | swap a b l => simp only [total_cons]; omega
  | trans _ _ ih ih' => rw [ih, ih']

/-- The passes of a loop over a list draw on budgets: each completes when its
element is admissible and the budgets cover it, and takes just that. What is
known of the state may depend on the elements before. -/
structure Metered (f : β → α → Except ε β) (all : List α) (I : List α → β → Prop)
    (P : α → Prop) (cost : α → ι → ℕ) (left : β → ι → ℕ) : Prop where
  pass : ∀ done a rest b, all = done ++ a :: rest → I done b →
    ((∃ b', f b a = .ok b') ↔ P a ∧ ∀ i, cost a i ≤ left b i)
  keep : ∀ done a rest b b', all = done ++ a :: rest → I done b → f b a = .ok b' →
    I (done ++ [a]) b' ∧ ∀ i, left b' i + cost a i = left b i

/-- A loop leaves what its elements do not take. -/
theorem Metered.spent (h : Metered f all I P cost left) (hall : all = done ++ l) (hI : I done b)
    (hrun : l.foldlM f b = .ok b') :
    I all b' ∧ ∀ i, left b' i + total cost l i = left b i := by
  induction l generalizing done b with
  | nil =>
    cases hrun
    rw [hall, List.append_nil]
    exact ⟨hI, fun _ => rfl⟩
  | cons a l ih =>
    rw [List.foldlM_cons] at hrun
    cases hone : f b a with
    | error e =>
      rw [hone] at hrun
      cases hrun
    | ok c =>
      rw [hone] at hrun
      obtain ⟨hI', hleft⟩ := h.keep done a l b c hall hI hone
      obtain ⟨hend, hrest⟩ := ih (by rw [hall, List.append_assoc]; rfl) hI' hrun
      refine ⟨hend, fun i => ?_⟩
      have hi := hleft i
      have hr := hrest i
      rw [total_cons]
      omega

/-- A loop completes just when its elements are admissible and the budgets
cover all of them. -/
theorem Metered.completes (h : Metered f all I P cost left) (hall : all = done ++ l)
    (hI : I done b) : (∃ b', l.foldlM f b = .ok b') ↔
      (∀ a ∈ l, P a) ∧ ∀ i, total cost l i ≤ left b i := by
  induction l generalizing done b with
  | nil => exact ⟨fun _ => ⟨List.forall_mem_nil _, fun _ => Nat.zero_le _⟩, fun _ => ⟨b, rfl⟩⟩
  | cons a l ih =>
    have hpass := h.pass done a l b hall hI
    have hall' : all = done ++ [a] ++ l := by rw [hall, List.append_assoc]; rfl
    rw [List.foldlM_cons, List.forall_mem_cons]
    constructor
    · intro hrun
      cases hone : f b a with
      | error e =>
        rw [hone] at hrun
        obtain ⟨_, hrun⟩ := hrun
        cases hrun
      | ok c =>
        rw [hone] at hrun
        obtain ⟨hI', hleft⟩ := h.keep done a l b c hall hI hone
        obtain ⟨hP, _⟩ := hpass.mp ⟨c, hone⟩
        obtain ⟨hPs, hcover⟩ := (ih hall' hI').mp hrun
        refine ⟨⟨hP, hPs⟩, fun i => ?_⟩
        have hi := hleft i
        have hc := hcover i
        rw [total_cons]
        omega
    · rintro ⟨⟨hP, hPs⟩, hcover⟩
      have hfirst : ∀ i, cost a i ≤ left b i := by
        intro i
        have hi := hcover i
        rw [total_cons] at hi
        omega
      obtain ⟨c, hone⟩ := hpass.mpr ⟨hP, hfirst⟩
      obtain ⟨hI', hleft⟩ := h.keep done a l b c hall hI hone
      rw [hone]
      refine (ih hall' hI').mpr ⟨hPs, fun i => ?_⟩
      have hi := hleft i
      have hc := hcover i
      rw [total_cons] at hc
      omega

end Sys16.Budgets
