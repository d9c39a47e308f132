import Mathlib.Data.List.Induction
import Mathlib.Data.Set.BooleanAlgebra
import Mathlib.Data.Set.Disjoint
import Mathlib.Logic.Function.Basic
import Mathlib.Order.CompletePartialOrder

/-!
# Stores and their write histories

A store maps indices to values; a history is the list of writes it has seen,
oldest first. Replaying a history gives every index its latest write, or what
the store held before the history began. Page maps that agree outside a set
of touched addresses are related by a frame.
-/

namespace Sys16.StoreHistory

open Function

variable {ι α β : Type*}

/-- An element of an extended list is its last one, or sits in the old list. -/
theorem concat_split {l pre post : List α} {a b : α} (h : l ++ [a] = pre ++ b :: post) :
    (pre = l ∧ b = a ∧ post = []) ∨ ∃ post', post = post' ++ [a] ∧ l = pre ++ b :: post' := by
  rcases List.eq_nil_or_concat post with rfl | ⟨post', c, rfl⟩
  · obtain ⟨h1, h2⟩ := List.append_inj' h rfl
    exact Or.inl ⟨h1.symm, (List.singleton_inj.mp h2).symm, rfl⟩
  · rw [List.concat_eq_append, ← List.cons_append, ← List.append_assoc] at h
    obtain ⟨h1, h2⟩ := List.append_inj' h rfl
    exact Or.inr ⟨post', by rw [List.concat_eq_append, List.singleton_inj.mp h2], h1⟩

section Latest

variable [DecidableEq ι] {ws vs : List (ι × α)} {f : ι → α} {i : ι}

/-- The latest value a history writes at an index. -/
def latest (ws : List (ι × α)) (i : ι) : Option α :=
  (ws.filterMap fun w => if w.1 = i then some w.2 else none).getLast?

/-- A store after a history of writes. -/
def replay (f : ι → α) (ws : List (ι × α)) : ι → α :=
  ws.foldl (fun f w => update f w.1 w.2) f

@[simp] theorem replay_nil : replay f [] = f := rfl

theorem replay_append (f : ι → α) (ws vs : List (ι × α)) :
    replay f (ws ++ vs) = replay (replay f ws) vs := List.foldl_append

/-- One more write changes its own place. -/
theorem replay_concat (f : ι → α) (ws : List (ι × α)) (w : ι × α) :
    replay f (ws ++ [w]) = update (replay f ws) w.1 w.2 := by
  rw [replay_append]
  rfl

/-- One more write is the latest at its place. -/
theorem latest_concat (ws : List (ι × α)) (w : ι × α) (i : ι) :
    latest (ws ++ [w]) i = if w.1 = i then some w.2 else latest ws i := by
  unfold latest
  rw [List.filterMap_append]
  split <;> simp [*]

/-- After a history every index holds its latest write, or its old value when
the history does not write it. -/
theorem replay_apply (f : ι → α) (ws : List (ι × α)) (i : ι) :
    replay f ws i = (latest ws i).getD (f i) := by
  induction ws using List.reverseRecOn with
  | nil => rfl
  | append_singleton ws w ih =>
    rw [replay_concat, latest_concat]
    by_cases hw : w.1 = i
    · subst hw
      rw [update_self, if_pos rfl, Option.getD_some]
    · rw [update_of_ne (Ne.symm hw), if_neg hw, ih]

/-- An index no write names keeps its value. -/
theorem replay_of_not_mem (h : ∀ w ∈ ws, w.1 ≠ i) : replay f ws i = f i := by
  induction ws generalizing f with
  | nil => rfl
  | cons w ws ih =>
    have hw : i ≠ w.1 := fun he => h w List.mem_cons_self he.symm
    have hi := ih (f := update f w.1 w.2) fun v hv => h v (List.mem_cons_of_mem w hv)
    rw [update_of_ne hw] at hi
    exact hi

end Latest

section Frame

variable {m m' m'' : ι → β} {T U : Set ι}

/-- Two maps agree outside a set of touched addresses. -/
def Frame (m m' : ι → β) (T : Set ι) : Prop := ∀ x, x ∉ T → m' x = m x

theorem Frame.refl (m : ι → β) (T : Set ι) : Frame m m T := fun _ _ => rfl

/-- A wider frame is a weaker one. -/
theorem Frame.mono (h : Frame m m' T) (hs : T ⊆ U) : Frame m m' U :=
  fun x hx => h x fun ht => hx (hs ht)

/-- Frames compose over the union of their places. -/
theorem Frame.trans (h : Frame m m' T) (k : Frame m' m'' U) : Frame m m'' (T ∪ U) :=
  fun x hx => (k x fun hu => hx (Or.inr hu)).trans (h x fun ht => hx (Or.inl ht))

/-- Reads inside a set disjoint from the touched one are unaffected. -/
theorem Frame.of_disjoint (h : Frame m m' T) (hd : Disjoint T U) {x : ι} (hx : x ∈ U) :
    m' x = m x :=
  h x fun ht => Set.disjoint_left.mp hd ht hx

end Frame

end Sys16.StoreHistory
