import Mathlib.Control.Monad.Basic
import Mathlib.Data.List.Infix

/-!
# Relations between monadic programs

A program written over an arbitrary monad can be run in two of them. A
relation between the two kinds of computation that holds of `pure` and passes
through `bind` holds of both runs as soon as it holds of the operations. Two
such relations serve this development: a property that every state change
keeps, and agreement of a watched run with a plain one for as long as nothing
forbidden has been watched.
-/

namespace Sys16.MonadRelations

/-- A relation between computations of two monads that respects their structure. -/
structure Logical (m n : Type → Type) [Monad m] [Monad n] where
  /-- The relation, at every type of results. -/
  rel : ∀ {α : Type}, m α → n α → Prop
  /-- Returning a value is related to returning it. -/
  rel_pure : ∀ {α : Type} (a : α), rel (pure a) (pure a)
  /-- Related computations followed by related ones are related. -/
  rel_bind : ∀ {α β : Type} {x : m α} {y : n α} {f : α → m β} {g : α → n β},
    rel x y → (∀ a, rel (f a) (g a)) → rel (x >>= f) (y >>= g)

section Rules

variable {m n : Type → Type} [Monad m] [Monad n] (R : Logical m n) {α β : Type}

/-- A branch on one condition is related branch by branch. -/
theorem Logical.rel_ite {c : Prop} [Decidable c] {x x' : m α} {y y' : n α} (h : c → R.rel x y)
    (h' : ¬c → R.rel x' y') : R.rel (if c then x else x') (if c then y else y') := by
  by_cases hc : c
  · rw [if_pos hc, if_pos hc]
    exact h hc
  · rw [if_neg hc, if_neg hc]
    exact h' hc

/-- A loop with a carried value is related when its body is. -/
theorem Logical.rel_foldlM {f : β → α → m β} {g : β → α → n β}
    (h : ∀ b a, R.rel (f b a) (g b a)) (l : List α) (b : β) :
    R.rel (l.foldlM f b) (l.foldlM g b) := by
  induction l generalizing b with
  | nil => exact R.rel_pure b
  | cons a l ih => exact R.rel_bind (h b a) ih

end Rules

variable {σ τ : Type}

/-- A stateful program and the one that follows it. -/
theorem bind_run {α β : Type} (x : StateM σ α) (f : α → StateM σ β) (s : σ) :
    (x >>= f) s = f (x s).1 (x s).2 := rfl

/-- A property of the state that a program keeps. -/
def keeping (I : σ → Prop) (n : Type → Type) [Monad n] : Logical (StateM σ) n where
  rel x _ := ∀ s, I s → I (x s).2
  rel_pure _ _ hs := hs
  rel_bind hx hf s hs := hf _ _ (hx s hs)

/-- States that carry a log of what their program does. -/
class Watched (σ : Type) (ε : outParam Type) where
  /-- What has been done so far, oldest first. -/
  log : σ → List ε

variable {ε : Type} [Watched σ ε] {s t u : σ} {A : Set ε}

/-- The log only grew, and everything it grew by is allowed. -/
def Grew (A : Set ε) (s t : σ) : Prop :=
  ∃ new, Watched.log t = Watched.log s ++ new ∧ ∀ e ∈ new, e ∈ A

theorem Grew.refl (A : Set ε) (s : σ) : Grew A s s :=
  ⟨[], (List.append_nil _).symm, fun _ h => absurd h List.not_mem_nil⟩

theorem Grew.trans (h : Grew A s t) (h' : Grew A t u) : Grew A s u := by
  obtain ⟨xs, hxs, hA⟩ := h
  obtain ⟨ys, hys, hB⟩ := h'
  refine ⟨xs ++ ys, by rw [hys, hxs, List.append_assoc], fun e he => ?_⟩
  exact (List.mem_append.mp he).elim (hA e) (hB e)

/-- What was allowed of a whole run is allowed of its two parts. -/
theorem Grew.split (hst : Grew Set.univ s t) (htu : Grew Set.univ t u) (h : Grew A s u) :
    Grew A s t ∧ Grew A t u := by
  obtain ⟨xs, hxs, _⟩ := hst
  obtain ⟨ys, hys, _⟩ := htu
  obtain ⟨zs, hzs, hA⟩ := h
  have heq : zs = xs ++ ys := by
    rw [hys, hxs, List.append_assoc] at hzs
    exact (List.append_cancel_left hzs).symm
  subst heq
  exact ⟨⟨xs, hxs, fun e he => hA e (List.mem_append_left ys he)⟩,
    ⟨ys, hys, fun e he => hA e (List.mem_append_right xs he)⟩⟩

/-- A watched program does what a plain one does, as long as all it does is allowed. -/
def agreeing (A : Set ε) (same : σ → τ → Prop) : Logical (StateM σ) (StateM τ) where
  rel x y := (∀ s, Grew Set.univ s (x s).2) ∧
    ∀ s d, same s d → Grew A s (x s).2 → (x s).1 = (y d).1 ∧ same (x s).2 (y d).2
  rel_pure _ := ⟨fun s => Grew.refl Set.univ s, fun _ _ hs _ => ⟨rfl, hs⟩⟩
  rel_bind {_ _ x y f g} hx hf := by
    refine ⟨fun s => (hx.1 s).trans ((hf (x s).1).1 (x s).2), fun s d hs hA => ?_⟩
    obtain ⟨hfirst, hsecond⟩ := (hx.1 s).split ((hf (x s).1).1 (x s).2) hA
    obtain ⟨hval, hstate⟩ := hx.2 s d hs hfirst
    obtain ⟨hval', hstate'⟩ := (hf (x s).1).2 (x s).2 (y d).2 hstate hsecond
    show (f (x s).1 (x s).2).1 = (g (y d).1 (y d).2).1 ∧
      same (f (x s).1 (x s).2).2 (g (y d).1 (y d).2).2
    rw [← hval]
    exact ⟨hval', hstate'⟩

end Sys16.MonadRelations
