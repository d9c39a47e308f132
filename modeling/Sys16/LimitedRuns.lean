import Mathlib.Tactic.Common

/-!
# Computations under a limit

A computation with a limit, such as one on the depth of its recursion, fails
with an error of its own when it runs into the limit. It settles when from some
limit on its result is one and the same and not that error. No program is named
here.
-/

namespace Sys16.LimitedRuns

variable {ε α β : Type} {e : ε} {F : ℕ → Except ε α} {G : ℕ → α → Except ε β} {x : Except ε α}
  {f : ℕ → β → α → Except ε β} {l : List α} {n m : ℕ}

/-! ## Errors that do not occur -/

/-- A computation does not end with an error. -/
def Avoids (e : ε) (x : Except ε α) : Prop := x ≠ .error e

/-- A result is no error. -/
theorem avoids_ok (a : α) : Avoids e (.ok a) := nofun

/-- Another error is not the one that is avoided. -/
theorem avoids_error {e' : ε} (h : e' ≠ e) : Avoids e (.error e' : Except ε α) :=
  fun heq => h (Except.error.inj heq)

/-- A computation avoids an error when both its parts do. -/
theorem Avoids.bind {g : α → Except ε β} (hx : Avoids e x) (hg : ∀ a, Avoids e (g a)) :
    Avoids e (x >>= g) := by
  cases x with
  | error e' => exact avoids_error fun heq => hx (congrArg Except.error heq)
  | ok a => exact hg a

/-- What is made of the result brings no error in. -/
theorem Avoids.map {g : α → β} (hx : Avoids e x) : Avoids e (g <$> x) := by
  cases x with
  | error e' => exact avoids_error fun heq => hx (congrArg Except.error heq)
  | ok a => exact avoids_ok (g a)

/-- A list is gone through without the error when each element is. -/
theorem avoids_mapM {g : α → Except ε β} (hg : ∀ a, Avoids e (g a)) (l : List α) :
    Avoids e (l.mapM g) := by
  induction l with
  | nil => exact avoids_ok []
  | cons a l ih =>
    rw [List.mapM_cons]
    exact (hg a).bind fun b => ih.bind fun bs => avoids_ok (b :: bs)

/-- A loop avoids the error when each of its passes does. -/
theorem avoids_foldlM {g : β → α → Except ε β} (hg : ∀ s a, Avoids e (g s a)) (l : List α)
    (s : β) : Avoids e (l.foldlM g s) := by
  induction l generalizing s with
  | nil => exact avoids_ok s
  | cons a l ih =>
    rw [List.foldlM_cons]
    exact (hg s a).bind ih

/-! ## Results that stay -/

/-- A computation that succeeds under a limit has the same result under higher ones. -/
def Stable (F : ℕ → Except ε α) : Prop := ∀ n m a, n ≤ m → F n = .ok a → F m = .ok a

/-- What does not look at the limit is stable. -/
theorem stable_const (x : Except ε α) : Stable fun _ => x := fun _ _ _ _ h => h

/-- Stable parts make a stable whole. -/
theorem Stable.bind (hF : Stable F) (hG : ∀ a, Stable fun n => G n a) :
    Stable fun n => F n >>= G n := by
  intro n m b hle h
  dsimp only at h ⊢
  cases hn : F n with
  | error e =>
    rw [hn] at h
    cases h
  | ok a =>
    rw [hn] at h
    rw [hF n m a hle hn]
    exact hG a n m b hle h

/-- A loop of stable passes is stable. -/
theorem Stable.foldlM (hf : ∀ s a, Stable fun n => f n s a) (l : List α) (s : β) :
    Stable fun n => l.foldlM (f n) s := by
  induction l generalizing s with
  | nil => exact stable_const _
  | cons a l ih =>
    simp only [List.foldlM_cons]
    exact (hf s a).bind ih

/-! ## Computations that settle -/

/-- From some limit on the result is the same, and not the error of the limit. -/
def Settles (e : ε) (F : ℕ → Except ε α) : Prop :=
  ∃ r, Avoids e r ∧ ∃ L, ∀ n, L ≤ n → F n = r

/-- What does not look at the limit settles at once. -/
theorem settles_const (h : Avoids e x) : Settles e fun _ => x := ⟨x, h, 0, fun _ _ => rfl⟩

/-- A computation that runs into every limit does not settle. -/
theorem not_settles (h : ∀ n, F n = .error e) : ¬Settles e F := by
  rintro ⟨r, hr, L, hL⟩
  exact hr ((hL L (Nat.le_refl L)).symm.trans (h L))

/-- A sequence whose first part settles does so when the second part does after
every result of the first. -/
theorem settles_bind_iff (hs : Stable F) (hF : Settles e F) :
    Settles e (fun n => F n >>= G n) ↔ ∀ a n, F n = .ok a → Settles e fun m => G m a := by
  obtain ⟨r, hr, L, hL⟩ := hF
  cases r with
  | error e' =>
    have hnone : ∀ a n, F n ≠ .ok a := by
      intro a n h
      have hlate := hs n (max n L) a (Nat.le_max_left n L) h
      rw [hL _ (Nat.le_max_right n L)] at hlate
      cases hlate
    refine ⟨fun _ a n h => absurd h (hnone a n), fun _ => ⟨.error e', fun heq => hr ?_, L, ?_⟩⟩
    · exact congrArg Except.error (Except.error.inj heq)
    · intro n hn
      dsimp only
      rw [hL n hn]
      rfl
  | ok a =>
    have honly : ∀ c n, F n = .ok c → c = a := by
      intro c n h
      have hlate := hs n (max n L) c (Nat.le_max_left n L) h
      rw [hL _ (Nat.le_max_right n L)] at hlate
      exact (Except.ok.inj hlate).symm
    have hsame : ∀ n, L ≤ n → F n >>= G n = G n a := by
      intro n hn
      rw [hL n hn]
      rfl
    constructor
    · rintro ⟨s, hs, M, hM⟩ c n h
      rw [honly c n h]
      refine ⟨s, hs, max L M, fun k hk => ?_⟩
      exact (hsame k (by omega)).symm.trans (hM k (by omega))
    · intro h
      obtain ⟨s, hs, M, hM⟩ := h a L (hL L (Nat.le_refl L))
      refine ⟨s, hs, max L M, fun k hk => ?_⟩
      exact (hsame k (by omega)).trans (hM k (by omega))

/-- A loop settles when its passes do, from every state that it can be in. -/
theorem settles_foldlM {I : β → Prop} (hf : ∀ s a, Stable fun n => f n s a)
    (hpass : ∀ a ∈ l, ∀ s, I s → Settles e fun n => f n s a)
    (hkeep : ∀ a ∈ l, ∀ n s s', I s → f n s a = .ok s' → I s') {s : β} (hs : I s) :
    Settles e fun n => l.foldlM (f n) s := by
  induction l generalizing s with
  | nil => exact settles_const (avoids_ok s)
  | cons a l ih =>
    simp only [List.foldlM_cons]
    refine (settles_bind_iff (hf s a) (hpass a List.mem_cons_self s hs)).mpr fun s' n h => ?_
    exact ih (fun c hc => hpass c (List.mem_cons_of_mem a hc))
      (fun c hc => hkeep c (List.mem_cons_of_mem a hc)) (hkeep a List.mem_cons_self n s s' hs h)

end Sys16.LimitedRuns
