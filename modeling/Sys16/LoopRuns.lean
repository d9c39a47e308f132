import Mathlib.Data.Fintype.EquivFin
import Mathlib.Data.Fintype.Pigeonhole
import Mathlib.Data.Set.Finite.Basic

/-!
# Loops without a counter

A deterministic loop whose body either hands over the next state or leaves.
It never leaves once a state comes up twice, and among finitely many states
it has to leave or to repeat one. No program is named here.
-/

namespace Sys16.LoopRuns

variable {σ κ : Type*} {next : σ → Option σ} {s t u : σ} {i j n : ℕ}

/-- The state a loop is in after a number of rounds, while it has not left. -/
def nth (next : σ → Option σ) (s : σ) : ℕ → Option σ
  | 0 => some s
  | n + 1 => (nth next s n).bind next

/-- The loop leaves after finitely many rounds. -/
def Ends (next : σ → Option σ) (s : σ) : Prop := ∃ n, nth next s n = none

@[simp] theorem nth_zero : nth next s 0 = some s := rfl

theorem nth_succ : nth next s (n + 1) = (nth next s n).bind next := rfl

/-- The first round split off, as the loop runs it. -/
theorem nth_succ' : nth next s (n + 1) = (next s).bind fun t => nth next t n := by
  induction n with
  | zero => cases h : next s <;> simp [nth_succ, h]
  | succ n ih =>
    rw [nth_succ, ih, Option.bind_assoc]
    rfl

end Sys16.LoopRuns
