import Mathlib.Logic.Function.Basic
import Sys16.EventRuns
import Sys16.PosixPath

/-!
# Asking the emulator to stop

`Machine.stop` in `pack/genixterm.py` asks by creating a file in the work
directory; the callback of `pack/stop.lua` looks for a file below the
emulator's own directory. The two agree for one work directory only. The
request outlives the processes: a session whose emulator ends before it has
seen the file leaves it to the next one. And an emulator outlives its session
when the Python process ends without `stop`: it goes on looking for the file.
-/

namespace Sys16.StopRequest

open Function EventRuns PosixPath PyText

/-! ## The two files -/

/-- Phases of the Python process of the latest session. -/
inductive Python where
  /-- None runs: the lock on the work directory is free. -/
  | absent
  /-- Between `Popen` and the call of `stop`. -/
  | serving
  /-- In `stop`, `proc.poll()` has returned `None`. -/
  | polled
  /-- In `proc.wait(timeout=20)`. -/
  | waiting
  /-- At `proc.kill()`. -/
  | killing
  /-- In the `proc.wait()` that follows the kill. -/
  | reaping
  /-- `stop` has returned. -/
  | stopped
  deriving DecidableEq, Repr

/-- The emulator of a session. -/
inductive Emulator where
  | absent
  | running
  /-- Told to exit by `manager.machine:exit()`, and still there. -/
  | leaving
  /-- Ended after `manager.machine:exit()`. -/
  | exited
  /-- Ended by itself, for any other reason. -/
  | gone
  /-- Ended by `proc.kill()`. -/
  | killed
  deriving DecidableEq, Repr

/-- The emulator's process is there. -/
def Emulator.Alive (m : Emulator) : Prop := m = .running ∨ m = .leaving

instance (m : Emulator) : Decidable m.Alive := inferInstanceAs (Decidable (_ ∨ _))

/-- The end of an emulator by itself. -/
def Emulator.finish : Emulator → Emulator
  | .running => .gone
  | .leaving => .exited
  | m => m

/-- What `proc.kill()` leaves of an emulator. -/
def Emulator.kill (m : Emulator) : Emulator := if m.Alive then .killed else m

/-- The stop files that exist, the sessions so far, and the Python process of
the latest. An emulator may outlive the Python process of its session. -/
structure State where
  /-- Which stop files are there. -/
  files : List Str → Bool
  /-- The number of the latest session. -/
  current : ℕ
  /-- Its Python process. -/
  python : Python
  /-- The emulators, by session. -/
  emulator : ℕ → Emulator
  /-- The sessions in which `Machine.stop` has been called. -/
  asked : ℕ → Bool

/-- No session has run and no stop file is there. -/
def State.initial : State := ⟨fun _ => false, 0, .absent, fun _ => .absent, fun _ => false⟩

/-- What can happen next. -/
inductive Event where
  /-- A session takes the lock and starts its emulator. -/
  | start
  /-- The emulator does not connect in time: `proc.kill()` and `sys.exit`. -/
  | acceptTimeout
  /-- The Python process ends wherever it is, by a `KeyboardInterrupt` that
  nothing handles, a signal or another exception, and leaves its emulator. -/
  | interrupt
  /-- `Machine.stop` is called and looks at `proc.poll()`: again, after an
  interrupt in it that `run_interactive` handles. -/
  | stop
  /-- The stop file is opened for writing; an `OSError` is passed over. -/
  | create (written : Bool)
  /-- An emulator runs the periodic callback. -/
  | poll (session : ℕ)
  /-- An emulator's process ends by itself. -/
  | finish (session : ℕ)
  /-- A wait ends because the emulator has. -/
  | waited
  /-- The emulator is still there after 20 seconds. -/
  | timeout
  /-- `proc.kill()`. -/
  | kill
  /-- The Python process ends and frees the lock. -/
  | leave
  deriving DecidableEq, Repr

/-- The emulator of the latest session. -/
def State.own (s : State) : Emulator := s.emulator s.current

/-- `proc.kill()`. -/
def State.killOwn (s : State) : State :=
  { s with emulator := update s.emulator s.current s.own.kill }

/-- One event, with the file that Python creates and the one that Lua opens. -/
def step (ask flag : List Str) (s : State) : Event → Option State
  | .start =>
    if s.python = .absent then
      some { s with
        python := .serving, current := s.current + 1,
        emulator := update s.emulator (s.current + 1) .running }
    else none
  | .acceptTimeout =>
    if s.python = .serving then some { s.killOwn with python := .absent } else none
  | .interrupt => if s.python ≠ .absent then some { s with python := .absent } else none
  | .stop =>
    if s.python ≠ .absent then
      some { s with
        python := if s.own.Alive then .polled else .stopped,
        asked := update s.asked s.current true }
    else none
  | .create written =>
    if s.python = .polled then
      some { s with
        python := .waiting, files := if written then update s.files ask true else s.files }
    else none
  | .poll k =>
    if (s.emulator k).Alive then
      -- a callback of an emulator that is already leaving may still come
      if s.files flag then
        some { s with
          files := update s.files flag false, emulator := update s.emulator k .leaving }
      else some s
    else none
  | .finish k =>
    if (s.emulator k).Alive then
      some { s with emulator := update s.emulator k (s.emulator k).finish }
    else none
  | .waited =>
    if (s.python = .waiting ∨ s.python = .reaping) ∧ ¬s.own.Alive then
      some { s with python := .stopped }
    else none
  | .timeout =>
    if s.python = .waiting ∧ s.own.Alive then some { s with python := .killing } else none
  | .kill => if s.python = .killing then some { s.killOwn with python := .reaping } else none
  | .leave => if s.python = .stopped then some { s with python := .absent } else none

variable {ask flag : List Str} {s t u : State} {e : Event} {es pre mid post : List Event} {k : ℕ}

/-! ## A request reaches its emulator -/

/-- One thing holds until a session starts, and another from then on. -/
structure UntilStart (A B : State → Prop) (es : List Event) (s : State) : Prop where
  before : .start ∉ es → A s
  after : .start ∈ es → B s

/-- One more event, when it keeps both and a start leads from the first to the second. -/
theorem UntilStart.step {A B : State → Prop} (h : UntilStart A B es s)
    (hA : e ≠ .start → A s → A u) (hAB : e = .start → A s → B u) (hB : B s → B u) :
    UntilStart A B (es ++ [e]) u := by
  refine ⟨fun hno => ?_, fun hin => ?_⟩
  · obtain ⟨hes, he⟩ := not_or.mp (mt List.mem_append.mpr hno)
    exact hA (fun h => he (h ▸ List.mem_singleton_self _)) (h.before hes)
  · by_cases hes : .start ∈ es
    · exact hB (h.after hes)
    · have he := List.mem_singleton.mp ((List.mem_append.mp hin).resolve_left hes)
      exact hAB he.symm (h.before hes)

/-- A callback leaves its emulator on its way out if there is a stop file, and
otherwise changes nothing. -/
theorem step_poll (h : step ask flag s (.poll k) = some u) : (s.emulator k).Alive ∧
    (s.files flag = true ∧ u = { s with
        files := update s.files flag false, emulator := update s.emulator k .leaving } ∨
      s.files flag = false ∧ u = s) := by
  simp only [step] at h
  split_ifs at h with halive hfile
  · exact ⟨halive, Or.inl ⟨hfile, (Option.some.inj h).symm⟩⟩
  · exact ⟨halive, Or.inr ⟨Bool.eq_false_iff.mpr hfile, (Option.some.inj h).symm⟩⟩

/-- An emulator that ends is not there any more. -/
theorem finish_not_alive (m : Emulator) : ¬m.finish.Alive := by
  cases m <;> decide

/-- When the emulator of a session runs its callback now, it calls
`manager.machine:exit()`. -/
def Exits (flag : List Str) (t : State) (k : ℕ) : Prop :=
  (t.emulator k).Alive ∧ t.files flag = true

/-- In every state of a run, a callback exits only in a session in which
`Machine.stop` has been called. -/
def StopsOwnOnly (flag : List Str) (es : List Event) : Prop :=
  Along (step flag flag) State.initial es fun _ t => ∀ k, Exits flag t k → t.asked k = true

/-- No stop file comes together with an emulator that it is not meant for: no
session starts while there is one, and none writes one while an emulator is
there that an earlier session has left and has not asked to stop. -/
structure Separate (flag : List Str) (t : State) (e : Event) : Prop where
  start : e = .start → t.python = .absent → t.files flag = false
  create : e = .create true → t.python = .polled →
    ∀ k, k ≠ t.current → (t.emulator k).Alive → t.asked k = true

/-- A stop file that an emulator can find is its own session's, or its own
session has made another. -/
structure OwnRequest (flag : List Str) (t : State) : Prop where
  /-- With the file there, `stop` has been called in the session of every emulator. -/
  file : ∀ k, Exits flag t k → t.asked k = true
  /-- Python is inside `stop` only when it has been called. -/
  python : t.python = .polled → t.asked t.current = true
  /-- Sessions to come have neither emulators nor requests. -/
  later : ∀ k, t.current < k → t.emulator k = .absent ∧ t.asked k = false

/-- An emulator that is killed is not there any more. -/
theorem kill_not_alive (m : Emulator) : ¬m.kill.Alive := by
  cases m <;> decide

/-- The end of one emulator brings no other. -/
theorem alive_of_update {f : ℕ → Emulator} {j : ℕ} {m : Emulator} (hm : ¬m.Alive)
    (h : (update f j m k).Alive) : (f k).Alive := by
  by_cases hk : k = j
  · subst hk
    rw [update_self] at h
    exact absurd h hm
  · rwa [update_of_ne hk] at h

/-- An emulator is there only if it was before, or if its session has just started. -/
theorem step_alive (h : step ask flag t e = some u) (hk : (u.emulator k).Alive) :
    (t.emulator k).Alive ∨ e = .start ∧ k = u.current := by
  cases e with
  | start =>
    simp only [step] at h
    split_ifs at h
    cases h
    by_cases hnew : k = t.current + 1
    · exact Or.inr ⟨rfl, hnew⟩
    · exact Or.inl (update_of_ne hnew Emulator.running t.emulator ▸ hk)
  | acceptTimeout | kill =>
    simp only [step] at h
    split_ifs at h
    cases h
    exact Or.inl (alive_of_update (kill_not_alive _) hk)
  | finish j =>
    simp only [step] at h
    split_ifs at h
    cases h
    exact Or.inl (alive_of_update (finish_not_alive _) hk)
  | poll j =>
    obtain ⟨halive, ⟨_, rfl⟩ | ⟨_, rfl⟩⟩ := step_poll h
    · by_cases hj : k = j
      · exact Or.inl (hj ▸ halive)
      · exact Or.inl (update_of_ne hj Emulator.leaving t.emulator ▸ hk)
    · exact Or.inl hk
  | interrupt | stop | create | waited | timeout | leave =>
    simp only [step] at h
    split_ifs at h <;> cases h <;> exact Or.inl hk

/-- A stop file is there only if it was before, or if Python has just written it. -/
theorem step_file (h : step flag flag t e = some u) (hfile : u.files flag = true) :
    t.files flag = true ∨ e = .create true ∧ t.python = .polled := by
  cases e <;> simp only [step] at h <;> split_ifs at h <;> cases h <;>
    grind [update_apply, State.killOwn]

/-- What has been asked for stays so; a new session has a number of its own. -/
theorem step_asked (h : step ask flag t e = some u) :
    (∀ k, t.asked k = true → u.asked k = true) ∧
      (u.python = .polled →
        t.python = .polled ∧ u.current = t.current ∨ u.asked u.current = true) := by
  cases e <;> simp only [step] at h <;> split_ifs at h <;> cases h <;>
    grind [update_apply, State.killOwn]

/-- Sessions to come stay without emulators and requests. -/
theorem step_later (hlater : ∀ k, t.current < k → t.emulator k = .absent ∧ t.asked k = false)
    (h : step ask flag t e = some u) :
    ∀ k, u.current < k → u.emulator k = .absent ∧ u.asked k = false := by
  intro k hk
  cases e <;> simp only [step, State.killOwn] at h <;> split_ifs at h <;> cases h <;>
    grind [update_apply, State.own, Emulator.Alive]

/-- An event keeps stop files with the sessions they are meant for, when none
comes together with another session's emulator. -/
theorem step_ownRequest (h : OwnRequest flag t) (hq : Separate flag t e)
    (hs : step flag flag t e = some u) : OwnRequest flag u := by
  obtain ⟨hkeep, hpolled⟩ := step_asked hs
  refine ⟨fun k ⟨halive, hfile⟩ => ?_, fun hp => ?_, step_later h.later hs⟩
  · rcases step_file hs hfile with hold | ⟨hcreate, hpython⟩
    · rcases step_alive hs halive with hwas | ⟨hstart, _⟩
      · exact hkeep k (h.file k ⟨hwas, hold⟩)
      · -- a session that starts finds no file
        subst hstart
        simp only [step] at hs
        split_ifs at hs with habsent
        exact absurd ((hq.start rfl habsent).symm.trans hold) Bool.false_ne_true
    · rcases step_alive hs halive with hwas | ⟨hstart, _⟩
      · by_cases hk : k = t.current
        · exact hkeep k (hk ▸ h.python hpython)
        · exact hkeep k (hq.create hcreate hpython k hk hwas)
      · rw [hcreate] at hstart
        cases hstart
  · rcases hpolled hp with ⟨hwas, hsame⟩ | hnow
    · exact hkeep _ (hsame ▸ h.python hwas)
    · exact hnow

/-- In a run, a callback exits only in a session in which `Machine.stop` has been
called, if and only if no stop file of the run comes together with an emulator
that it is not meant for. -/
theorem exits_only_when_asked (flag : List Str) (es : List Event) :
    StopsOwnOnly flag es ↔
      Steps (step flag flag) State.initial es fun _ => Separate flag := by
  have hlater : Along (step flag flag) State.initial es fun _ t =>
      ∀ k, t.current < k → t.emulator k = .absent ∧ t.asked k = false :=
    Along.of_steps (Q := fun _ _ _ => True) (fun _ _ => ⟨rfl, rfl⟩)
      (fun _ _ _ _ hi _ hs => step_later hi hs) fun _ _ _ _ _ => trivial
  constructor
  · intro hall pre e t hp ht
    have hnext : ∀ u, step flag flag t e = some u → ∀ k, Exits flag u k → u.asked k = true :=
      fun u hu => hall _ u hp (run_concat_eq_some.mpr ⟨t, ht, hu⟩)
    refine ⟨fun he hpython => Bool.eq_false_iff.mpr fun hfile => ?_, fun he hpython k hk halive => ?_⟩
    · subst he
      have hasked := hnext _ (if_pos hpython) (t.current + 1)
        ⟨Or.inl (update_self _ _ _), hfile⟩
      obtain ⟨_, hnone⟩ := hlater pre t ((List.prefix_append pre _).trans hp) ht (t.current + 1)
        (Nat.lt_succ_self _)
      exact Bool.false_ne_true (hnone.symm.trans hasked)
    · subst he
      exact hnext _ (if_pos hpython) k ⟨halive, update_self _ _ _⟩
  · intro hq
    have hinv : Along (step flag flag) State.initial es fun _ t => OwnRequest flag t :=
      Along.of_steps ⟨fun _ h => absurd h.2 Bool.false_ne_true, nofun, fun _ _ => ⟨rfl, rfl⟩⟩
        (fun _ _ _ _ hi he hs => step_ownRequest hi he hs) hq
    exact fun pre t hp ht => (hinv pre t hp ht).file

/-- A session whose emulator is killed after the request, and the next session. -/
def killedThenNext : List Event :=
  [.start, .stop, .create true, .timeout, .kill, .waited, .leave, .start]

/-- A session that is interrupted and leaves its emulator, and the request of the next. -/
def orphanThenRequest : List Event := [.start, .interrupt, .start, .stop, .create true]

/-- The emulator of the second session finds the file of the first and exits
though nobody has asked it to; and an emulator that the first session has left
behind exits on the request of the second. -/
theorem left_request_stops_next :
    ¬StopsOwnOnly [str "stop"] killedThenNext ∧
      ¬StopsOwnOnly [str "stop"] orphanThenRequest := by
  have hunasked : ∀ es k, (run (step [str "stop"] [str "stop"]) State.initial es).any
      (fun t => decide (t.emulator k).Alive && t.files [str "stop"] && !t.asked k) = true →
      ¬StopsOwnOnly [str "stop"] es := by
    intro es k hrun h
    obtain ⟨t, ht, hval⟩ := (Option.any_eq_true _ _).mp hrun
    simp only [Bool.and_eq_true, decide_eq_true_eq, Bool.not_eq_true'] at hval
    obtain ⟨⟨halive, hfile⟩, hnot⟩ := hval
    exact Bool.false_ne_true (hnot.symm.trans (h es t List.prefix_rfl ht k ⟨halive, hfile⟩))
  exact ⟨hunasked _ 2 (by decide), hunasked _ 1 (by decide)⟩

end Sys16.StopRequest
