import Mathlib.Data.List.Infix

/-!
# Runs of a partial deterministic machine

A machine is a partial step function: an event that is not enabled, or that
never completes, has no successor state. Runs are finite event lists, and a
history invariant relates the events seen so far with the state they lead
to. The rules below are the only inductions over runs in this development.
-/

namespace Sys16.EventRuns

variable {σ ε : Type*} {step : σ → ε → Option σ} {s t u : σ} {e : ε} {xs ys es pre : List ε}

/-- The state after a finite list of events, when every event is enabled. -/
def run (step : σ → ε → Option σ) : σ → List ε → Option σ
  | s, [] => some s
  | s, e :: es => (step s e).bind fun t => run step t es

@[simp] theorem run_nil : run step s [] = some s := rfl

theorem run_cons : run step s (e :: es) = (step s e).bind fun t => run step t es := rfl

/-- A run over two lists is a run over the first, then one over the second. -/
theorem run_append (step : σ → ε → Option σ) (s : σ) (xs ys : List ε) :
    run step s (xs ++ ys) = (run step s xs).bind fun t => run step t ys := by
  induction xs generalizing s with
  | nil => rfl
  | cons e xs ih =>
    rw [List.cons_append, run_cons, run_cons]
    cases step s e with
    | none => rfl
    | some t => exact ih t

theorem run_append_eq_some :
    run step s (xs ++ ys) = some u ↔ ∃ t, run step s xs = some t ∧ run step t ys = some u := by
  rw [run_append, Option.bind_eq_some_iff]

theorem run_cons_eq_some :
    run step s (e :: es) = some u ↔ ∃ t, step s e = some t ∧ run step t es = some u := by
  rw [run_cons, Option.bind_eq_some_iff]

/-- The last event of a run is one step from the state before it. -/
theorem run_concat_eq_some :
    run step s (xs ++ [e]) = some u ↔ ∃ t, run step s xs = some t ∧ step t e = some u := by
  rw [run_append_eq_some]
  simp only [run_cons_eq_some, run_nil, Option.some.injEq, exists_eq_right]

/-- Every prefix of a completed run is a completed run. -/
theorem run_prefix (h : run step s es = some u) (hp : pre <+: es) :
    ∃ t, run step s pre = some t := by
  obtain ⟨post, rfl⟩ := hp
  obtain ⟨t, ht, _⟩ := run_append_eq_some.mp h
  exact ⟨t, ht⟩

/-- A condition on the history and the state holds in every state a run reaches. -/
def Along (step : σ → ε → Option σ) (s : σ) (es : List ε) (P : List ε → σ → Prop) : Prop :=
  ∀ pre t, pre <+: es → run step s pre = some t → P pre t

/-- Every step of a run meets a condition on its history, the state before it and its event. -/
def Steps (step : σ → ε → Option σ) (s : σ) (es : List ε) (Q : List ε → σ → ε → Prop) : Prop :=
  ∀ pre e t, pre ++ [e] <+: es → run step s pre = some t → Q pre t e

/-- The empty run has no step. -/
theorem steps_nil (Q : List ε → σ → ε → Prop) : Steps step s [] Q := by
  intro pre e t hp
  simp at hp

/-- A run's steps are its first and those of the run from there. -/
theorem steps_cons {Q : List ε → σ → ε → Prop} (h0 : Q [] s e)
    (h : ∀ t, step s e = some t → Steps step t es fun pre => Q (e :: pre)) :
    Steps step s (e :: es) Q := by
  intro pre e' u hp hr
  cases pre with
  | nil =>
    obtain ⟨rfl, _⟩ := List.cons_prefix_cons.mp hp
    cases hr
    exact h0
  | cons d pre =>
    obtain ⟨rfl, htail⟩ := List.cons_prefix_cons.mp hp
    obtain ⟨t, ht, hrest⟩ := run_cons_eq_some.mp hr
    exact h t ht pre e' u htail hrest

/-- The invariant rule for runs whose steps all meet a condition: what holds
at the start and is kept by every such step holds along the run. -/
theorem Along.of_steps {P : List ε → σ → Prop} {Q : List ε → σ → ε → Prop} (h0 : P [] s)
    (hstep : ∀ pre e t u, P pre t → Q pre t e → step t e = some u → P (pre ++ [e]) u)
    (hq : Steps step s es Q) : Along step s es P := by
  intro pre t hp hr
  induction pre using List.reverseRecOn generalizing t with
  | nil =>
    cases hr
    exact h0
  | append_singleton pre e ih =>
    obtain ⟨v, hv, he⟩ := run_concat_eq_some.mp hr
    have hpre : pre <+: es := (List.prefix_append pre [e]).trans hp
    exact hstep pre e v t (ih v hpre hv) (hq pre e v hp hv) he

/-- The invariant rule at the end of one run, for a condition on the state
that every event of the run keeps. -/
theorem run_invariant {I : σ → Prop} (h0 : I s)
    (hstep : ∀ e ∈ es, ∀ t u, I t → step t e = some u → I u)
    (h : run step s es = some u) : I u := by
  induction es generalizing s with
  | nil =>
    cases h
    exact h0
  | cons e es ih =>
    obtain ⟨t, ht, hr⟩ := run_cons_eq_some.mp h
    exact ih (hstep e List.mem_cons_self s t h0 ht)
      (fun e' he => hstep e' (List.mem_cons_of_mem e he)) hr

/-- The first step of a run, and those of the run from there. -/
theorem Steps.uncons {Q : List ε → σ → ε → Prop} (h : Steps step s (e :: es) Q) :
    Q [] s e ∧ ∀ t, step s e = some t → Steps step t es fun pre => Q (e :: pre) := by
  refine ⟨h [] e s ⟨es, rfl⟩ rfl, fun t ht pre d u hp hr => h (e :: pre) d u ?_ ?_⟩
  · exact List.cons_prefix_cons.mpr ⟨rfl, hp⟩
  · exact run_cons_eq_some.mpr ⟨t, ht, hr⟩

/-- The steps of a run over two lists are those over the first, and those over
the second from where that leads. -/
theorem Steps.append {Q : List ε → σ → ε → Prop} (h : Steps step s (xs ++ ys) Q) :
    Steps step s xs Q ∧
      ∀ t, run step s xs = some t → Steps step t ys fun pre => Q (xs ++ pre) := by
  refine ⟨fun pre d u hp hr => h pre d u (hp.trans (List.prefix_append xs ys)) hr,
    fun t ht pre d u hp hr => h (xs ++ pre) d u ?_ ?_⟩
  · rw [List.append_assoc]
    exact (List.prefix_append_right_inj xs).mpr hp
  · exact run_append_eq_some.mpr ⟨t, ht, hr⟩

/-- The invariant rule for a completed run whose events tell something too:
each of them met its condition where the invariant held. -/
theorem run_invariant_events {I : σ → Prop} {Q : σ → ε → Prop} {R : ε → Prop} (h0 : I s)
    (hstep : ∀ e ∈ es, ∀ t u, I t → Q t e → step t e = some u → I u ∧ R e)
    (hq : Steps step s es fun _ => Q) (h : run step s es = some u) : I u ∧ ∀ e ∈ es, R e := by
  induction es generalizing s with
  | nil =>
    cases h
    exact ⟨h0, fun _ he => by cases he⟩
  | cons e es ih =>
    obtain ⟨t, ht, hr⟩ := run_cons_eq_some.mp h
    obtain ⟨hhead, htail⟩ := hq.uncons
    obtain ⟨hi, hRe⟩ := hstep e List.mem_cons_self s t h0 hhead ht
    obtain ⟨hu, hRs⟩ := ih hi (fun e' he => hstep e' (List.mem_cons_of_mem e he)) (htail t ht) hr
    exact ⟨hu, List.forall_mem_cons.mpr ⟨hRe, hRs⟩⟩

/-- Where a value comes from: what a run has made of an observation is what it
was at the start, or what some event of the run made of it in the state before. -/
theorem run_origin {β : Type*} {f : σ → β} {I : σ → Prop} {Q : σ → ε → β → Prop} (h0 : I s)
    (hinv : ∀ e t u, I t → step t e = some u → I u)
    (hstep : ∀ e t u, I t → step t e = some u → f u = f t ∨ Q t e (f u))
    (h : run step s es = some u) :
    f u = f s ∨ ∃ pre e post t, es = pre ++ e :: post ∧ run step s pre = some t ∧ Q t e (f u) := by
  induction es generalizing s with
  | nil =>
    cases h
    exact Or.inl rfl
  | cons e es ih =>
    obtain ⟨t, ht, hr⟩ := run_cons_eq_some.mp h
    rcases ih (hinv e s t h0 ht) hr with hsame | ⟨pre, e', post, v, rfl, hv, hq⟩
    · rcases hstep e s t h0 ht with hfirst | hfirst
      · exact Or.inl (hsame.trans hfirst)
      · exact Or.inr ⟨[], e, es, s, rfl, rfl, hsame ▸ hfirst⟩
    · exact Or.inr ⟨e :: pre, e', post, v, rfl, run_cons_eq_some.mpr ⟨t, ht, hv⟩, hq⟩

section Refines

variable {τ δ : Type*} {step' : τ → δ → Option τ}

/-- A run of one machine as a list of events of another, which are read off
each event in the state it meets. -/
def projected (step : σ → ε → Option σ) (f : σ → ε → List δ) : σ → List ε → List δ
  | _, [] => []
  | s, e :: es => f s e ++
    match step s e with
    | some t => projected step f t es
    | none => []

/-- The refinement rule: when every step is a run of the abstract machine
over its projection, so is every run. -/
theorem run_refines (abs : σ → τ) {f : σ → ε → List δ} {Q : σ → ε → Prop}
    (hstep : ∀ s e t, Q s e → step s e = some t → run step' (abs s) (f s e) = some (abs t))
    (hq : Steps step s es fun _ => Q) (h : run step s es = some u) :
    run step' (abs s) (projected step f s es) = some (abs u) := by
  induction es generalizing s with
  | nil =>
    cases h
    rfl
  | cons e es ih =>
    obtain ⟨t, ht, hr⟩ := run_cons_eq_some.mp h
    obtain ⟨hhead, htail⟩ := hq.uncons
    unfold projected
    rw [ht]
    exact run_append_eq_some.mpr ⟨abs t, hstep s e t hhead ht, ih (htail t ht) hr⟩

end Refines

end Sys16.EventRuns
