import Mathlib.Logic.Function.Basic
import Mathlib.Tactic.Common
import Sys16.EventRuns

/-!
# Emulator sessions on one set of disk images

Any number of sessions share a work directory, each started by `pack/run.sh`
or by `genixterm.py` itself. A session is a shell, a Python process and a MAME
process, each with the phases its source goes through. The lock is that of
`flock`: it belongs to an open file and goes with the last descriptor of it.
Descriptor 9 of the shell is inherited by what the shell starts; Python's own
lock file is not passed on by `Popen`.
-/

namespace Sys16.Sessions

open Function EventRuns

/-- The modes of `pack/run.sh`. -/
inductive Mode where
  | window
  | terminal
  | monitor
  | check
  deriving DecidableEq, Repr

/-- What `genixterm.py` does with a booted machine. -/
inductive Use where
  /-- `run_check`. -/
  | check
  /-- `run_exec`. -/
  | exec
  /-- `run_interactive`. -/
  | interactive
  deriving DecidableEq, Repr

/-- How a session is started. -/
inductive Launcher where
  /-- `pack/run.sh` with a mode, with or without a desktop to open a window on. -/
  | script (mode : Mode) (display : Bool)
  /-- `genixterm.py` without the script. -/
  | direct (use : Use)
  deriving DecidableEq, Repr

/-- Phases of `pack/run.sh`. -/
inductive Shell where
  /-- Not running. -/
  | absent
  /-- Before `exec 9>`. -/
  | begun
  /-- Descriptor 9 is open on the lock file. -/
  | opened
  /-- `flock -n 9` has succeeded. -/
  | locked
  /-- `flock -u 9` has run. -/
  | unlocked
  /-- Waiting for the Python process or the emulator it has started. -/
  | waiting
  deriving DecidableEq, Repr

/-- Phases of `genixterm.py`. -/
inductive Python where
  /-- Not running. -/
  | absent
  /-- Before the lock file is opened. -/
  | begun
  /-- The lock file is open. -/
  | opened
  /-- `fcntl.flock` has succeeded. -/
  | locked
  /-- `Popen` has returned; waiting for the emulator to connect. -/
  | accepting
  /-- In `run_check`, `run_exec` or `run_interactive`. -/
  | serving
  /-- In `stop`, waiting for the emulator to act on the stop file. -/
  | stopping
  /-- In `stop`, waiting for an emulator it has killed. -/
  | reaping
  /-- On its way out: returning, or in `sys.exit`. -/
  | leaving
  deriving DecidableEq, Repr

/-- Phases of an emulator process. -/
inductive Mame where
  /-- Not started. -/
  | absent
  /-- Running with the images open, with or without descriptor 9. -/
  | alive (fd9 : Bool)
  /-- Sent `SIGKILL` and not yet gone. -/
  | doomed
  /-- Gone, its images closed. -/
  | dead
  deriving DecidableEq, Repr

/-- An emulator that has the disk images open. -/
def Mame.HasImages : Mame → Prop
  | .alive _ | .doomed => True
  | .absent | .dead => False

instance (m : Mame) : Decidable m.HasImages := by
  cases m <;> unfold Mame.HasImages <;> infer_instance

/-- One session. -/
structure Session where
  /-- How it was started. -/
  launcher : Launcher
  /-- The `run.sh` process. -/
  shell : Shell
  /-- The `genixterm.py` process. -/
  python : Python
  /-- The emulator. -/
  mame : Mame
  deriving DecidableEq, Repr

/-- A session that has not been started. -/
def Session.unused : Session := ⟨.direct .interactive, .absent, .absent, .absent⟩

/-- The mode after the script's look at `DISPLAY` and `WAYLAND_DISPLAY`. -/
def effectiveMode (mode : Mode) (display : Bool) : Mode :=
  if (mode = .window ∨ mode = .monitor) ∧ display = false then .terminal else mode

/-- What the Python process of a session does: the script passes on `--check`
only; `--exec` is for direct use. -/
def Launcher.use : Launcher → Use
  | .script .check _ => .check
  | .script _ _ => .interactive
  | .direct use => use

/-- The open files that the lock can belong to. -/
inductive OpenFile where
  /-- Descriptor 9 of a session's shell. -/
  | shell (i : ℕ)
  /-- `self.lock` of a session's Python process. -/
  | python (i : ℕ)
  deriving DecidableEq, Repr

/-- The session an open file belongs to. -/
def OpenFile.session : OpenFile → ℕ
  | .shell i => i
  | .python i => i

/-- Whether some process of the session still has descriptor 9: the shell
itself, a Python process it started, or an emulator it started. -/
def Session.fd9Open (x : Session) : Bool :=
  (x.shell != .absent && x.shell != .begun) ||
    (x.python != .absent && (match x.launcher with
      | .script _ _ => true
      | .direct _ => false)) ||
    x.mame == .alive true

/-- Whether the Python process has its lock file open. -/
def Session.lockFileOpen (x : Session) : Bool := x.python != .absent && x.python != .begun

/-- What the processes of a session can do, one at a time. -/
inductive Action where
  /-- Someone starts the session. -/
  | launch (launcher : Launcher)
  /-- `exec 9> disk.lock`. -/
  | shellOpen
  /-- `flock -n 9 || die`. -/
  | shellLock
  /-- The mode dispatch: `flock -u 9`, or start the emulator in a window. -/
  | shellDispatch
  /-- The shell starts `genixterm.py`. -/
  | shellPython
  /-- The shell ends, by itself or by a signal. -/
  | shellEnd
  /-- Python opens `disk.lock`. -/
  | pyOpen
  /-- `fcntl.flock` with `LOCK_NB`, or `sys.exit`. -/
  | pyLock
  /-- `Popen`. -/
  | pyPopen
  /-- The emulator connects. -/
  | pyAccept
  /-- It does not connect in time: `kill` and `sys.exit`. -/
  | pyAcceptTimeout
  /-- Any path from a mode's loop into `stop`. -/
  | pyStop
  /-- `stop` has waited long enough: `kill`. -/
  | pyStopKill
  /-- A wait in `stop` ends with the emulator gone. -/
  | pyStopped
  /-- `KeyboardInterrupt`. -/
  | pyInterrupt
  /-- The end of the process on its way out. -/
  | pyExit
  /-- The process ends by a hangup, another signal or an uncaught exception. -/
  | pyDie
  /-- The emulator ends. -/
  | mameEnd
  deriving DecidableEq, Repr

/-- What an action does to the lock. -/
inductive LockOp where
  | keep
  | shell
  | python
  | unlock
  deriving DecidableEq, Repr

/-- One action of a session, when it is enabled. `free` says that the lock can be had. -/
def Session.act (x : Session) (free : Bool) : Action → Option (Session × LockOp)
  | .launch launcher =>
    if x = .unused then
      match launcher with
      | .script _ _ => some ({ x with launcher := launcher, shell := .begun }, .keep)
      | .direct _ => some ({ x with launcher := launcher, python := .begun }, .keep)
    else none
  | .shellOpen => if x.shell = .begun then some ({ x with shell := .opened }, .keep) else none
  | .shellLock =>
    if x.shell = .opened then
      if free then some ({ x with shell := .locked }, .shell)
      else some ({ x with shell := .absent }, .keep)
    else none
  | .shellDispatch =>
    if x.shell = .locked then
      match x.launcher with
      | .script mode display =>
        match effectiveMode mode display with
        | .check | .terminal => some ({ x with shell := .unlocked }, .unlock)
        | .window | .monitor => some ({ x with shell := .waiting, mame := .alive true }, .keep)
      | .direct _ => none
    else none
  | .shellPython =>
    if x.shell = .unlocked then some ({ x with shell := .waiting, python := .begun }, .keep)
    else none
  | .shellEnd => if x.shell ≠ .absent then some ({ x with shell := .absent }, .keep) else none
  | .pyOpen => if x.python = .begun then some ({ x with python := .opened }, .keep) else none
  | .pyLock =>
    if x.python = .opened then
      if free then some ({ x with python := .locked }, .python)
      else some ({ x with python := .leaving }, .keep)
    else none
  | .pyPopen =>
    if x.python = .locked then some ({ x with python := .accepting, mame := .alive false }, .keep)
    else none
  | .pyAccept =>
    if x.python = .accepting then some ({ x with python := .serving }, .keep) else none
  | .pyAcceptTimeout =>
    if x.python = .accepting then
      some ({ x with python := .leaving, mame := if x.mame = .dead then .dead else .doomed }, .keep)
    else none
  | .pyStop =>
    if x.python = .serving then some ({ x with python := .stopping }, .keep) else none
  | .pyStopKill =>
    if x.python = .stopping then
      some ({ x with python := .reaping, mame := if x.mame = .dead then .dead else .doomed }, .keep)
    else none
  | .pyStopped =>
    if (x.python = .stopping ∨ x.python = .reaping) ∧ x.mame = .dead then
      some ({ x with python := .leaving }, .keep)
    else none
  | .pyInterrupt =>
    if x.python = .absent then none
    else if x.launcher.use = .interactive ∧ x.python = .serving then
      some ({ x with python := .stopping }, .keep)
    else some ({ x with python := .absent }, .keep)
  | .pyExit => if x.python = .leaving then some ({ x with python := .absent }, .keep) else none
  | .pyDie => if x.python ≠ .absent then some ({ x with python := .absent }, .keep) else none
  | .mameEnd => if x.mame.HasImages then some ({ x with mame := .dead }, .keep) else none

/-- All sessions, and the open file that has the lock. -/
structure State where
  /-- The sessions, numbered. -/
  session : ℕ → Session
  /-- The holder of the lock on `disk.lock`. -/
  lock : Option OpenFile

/-- No session has been started. -/
def State.initial : State := ⟨fun _ => .unused, none⟩

/-- The lock after an action of a session. -/
def LockOp.apply (i : ℕ) (lock : Option OpenFile) : LockOp → Option OpenFile
  | .keep => lock
  | .shell => some (.shell i)
  | .python => some (.python i)
  | .unlock => if lock = some (.shell i) then none else lock

/-- The lock goes when the last descriptor of its open file has been closed. -/
def Session.settle (x : Session) (i : ℕ) (lock : Option OpenFile) : Option OpenFile :=
  if lock = some (.shell i) ∧ x.fd9Open = false then none
  else if lock = some (.python i) ∧ x.lockFileOpen = false then none
  else lock

/-- One action of one session. -/
def step (s : State) (e : ℕ × Action) : Option State :=
  ((s.session e.1).act s.lock.isNone e.2).map fun r =>
    { session := update s.session e.1 r.1, lock := r.1.settle e.1 (r.2.apply e.1 s.lock) }

/-- No two emulators have the disk images open. -/
def Exclusive (s : State) : Prop :=
  ∀ i j, (s.session i).mame.HasImages → (s.session j).mame.HasImages → i = j

/-! ## What keeps emulators apart -/

/-- The actions that end a session's Python process. -/
def EndsPython (x : Session) : Action → Prop
  | .pyExit | .pyDie => True
  | .pyInterrupt => ¬(x.launcher.use = .interactive ∧ x.python = .serving)
  | _ => False

/-- An action does not end the Python process of a session whose emulator has
the disk images open. -/
def OutlivesEmulator (s : State) (e : ℕ × Action) : Prop :=
  EndsPython (s.session e.1) e.2 → ¬(s.session e.1).mame.HasImages

/-- The phases in which the Python process has taken the lock and not begun to leave. -/
def Python.HasLock (p : Python) : Prop :=
  p = .locked ∨ p = .accepting ∨ p = .serving ∨ p = .stopping ∨ p = .reaping

/-- A session's claims on the lock: whoever is past taking it has it, and an
emulator with the images open is covered by the open file of its starter. -/
structure Covered (lock : Option OpenFile) (i : ℕ) (x : Session) : Prop where
  /-- The shell between its `flock` and its dispatch. -/
  shell : x.shell = .locked → lock = some (.shell i)
  /-- An emulator that has inherited descriptor 9. -/
  window : x.mame = .alive true → lock = some (.shell i)
  /-- The Python process. -/
  python : x.python.HasLock → lock = some (.python i)
  /-- An emulator started by a Python process that is still there. -/
  headless : x.mame = .alive false ∨ x.mame = .doomed →
    lock = some (.python i) ∧ (x.python.HasLock ∨ x.python = .leaving)
  /-- Until the shell starts something its session has no other process. -/
  alone : x.shell ≠ .absent → x.shell ≠ .waiting → x.python = .absent ∧ x.mame = .absent

variable {s t : State} {x y : Session} {lock : Option OpenFile} {op : LockOp} {a : Action}
  {i j : ℕ}

theorem covered_unused (lock : Option OpenFile) (i : ℕ) : Covered lock i .unused := by
  constructor <;> simp [Session.unused, Python.HasLock]

/-- A covered emulator's lock belongs to its own session. -/
theorem Covered.lock_of_images (h : Covered lock i x) (hm : x.mame.HasImages) :
    lock = some (.shell i) ∨ lock = some (.python i) := by
  cases hx : x.mame with
  | absent => simp [Mame.HasImages, hx] at hm
  | dead => simp [Mame.HasImages, hx] at hm
  | doomed => exact Or.inr (h.headless (Or.inr hx)).1
  | alive fd9 =>
    cases fd9 with
    | true => exact Or.inl (h.window hx)
    | false => exact Or.inr (h.headless (Or.inl hx)).1

/-- Closing descriptors takes the lock from no session that still claims it. -/
theorem Covered.settle (h : Covered lock i x) : Covered (x.settle i lock) i x := by
  have hshell : x.fd9Open = true → lock = some (.shell i) → x.settle i lock = some (.shell i) := by
    intro ho hl
    simp [Session.settle, ho, hl]
  have hpython : x.lockFileOpen = true → lock = some (.python i) →
      x.settle i lock = some (.python i) := by
    intro ho hl
    simp [Session.settle, ho, hl]
  have hopen : x.python.HasLock ∨ x.python = .leaving → x.lockFileOpen = true := by
    rintro ((hp | hp | hp | hp | hp) | hp) <;> simp [Session.lockFileOpen, hp]
  constructor
  · intro hx
    exact hshell (by simp [Session.fd9Open, hx]) (h.shell hx)
  · intro hx
    exact hshell (by simp [Session.fd9Open, hx]) (h.window hx)
  · intro hx
    exact hpython (hopen (Or.inl hx)) (h.python hx)
  · intro hx
    obtain ⟨hl, hp⟩ := h.headless hx
    exact ⟨hpython (hopen hp) hl, hp⟩
  · exact h.alone

/-- An action of a session keeps its claims covered. -/
theorem act_covered (h : Covered lock i x) (hq : EndsPython x a → ¬x.mame.HasImages)
    (hs : x.act lock.isNone a = some (y, op)) : Covered (op.apply i lock) i y := by
  obtain ⟨hshell, hwindow, hpython, hheadless, halone⟩ := h
  cases a with
  | shellDispatch =>
    simp only [Session.act] at hs
    split at hs
    · next hlocked =>
      have hlock : lock = some (.shell i) := hshell hlocked
      have hnone := halone (by simp [hlocked]) (by simp [hlocked])
      -- without a window the lock is given back before anything is started,
      -- in a window the emulator takes descriptor 9 over
      split at hs
      · split at hs <;> constructor <;> grind [LockOp.apply, Python.HasLock]
      · cases hs
    · cases hs
  | pyInterrupt | pyExit | pyDie =>
    -- the process leaves its emulator behind, which has no images open
    simp only [Session.act] at hs
    constructor <;> grind [LockOp.apply, Python.HasLock, EndsPython, Mame.HasImages]
  | _ =>
    simp only [Session.act] at hs
    constructor <;> grind [LockOp.apply, Python.HasLock, Mame.HasImages, Session.unused]

/-- The lock is taken only when it is free. -/
theorem act_takes {free : Bool} (hs : x.act free a = some (y, op))
    (hop : op = .shell ∨ op = .python) : free = true := by
  cases a <;> simp only [Session.act] at hs <;> grind

/-- An action moves the lock only when it is free or belongs to the session. -/
theorem act_lock (hs : x.act lock.isNone a = some (y, op)) :
    y.settle i (op.apply i lock) = lock ∨ ∀ o, lock = some o → o.session = i := by
  have hsettle : y.settle i lock = lock ∨ ∀ o, lock = some o → o.session = i := by
    unfold Session.settle
    grind [OpenFile.session]
  cases op with
  | keep => exact hsettle
  | unlock =>
    unfold LockOp.apply Session.settle
    grind [OpenFile.session]
  | shell =>
    have hfree := Option.isNone_iff_eq_none.mp (act_takes hs (Or.inl rfl))
    exact Or.inr (by simp [hfree])
  | python =>
    have hfree := Option.isNone_iff_eq_none.mp (act_takes hs (Or.inr rfl))
    exact Or.inr (by simp [hfree])

/-- The claims of the other sessions are not affected by a move of the lock
that was free or is another session's. -/
theorem Covered.of_other {lock' : Option OpenFile} (h : Covered lock j x) (hij : i ≠ j)
    (hl : lock' = lock ∨ ∀ o, lock = some o → o.session = i) : Covered lock' j x := by
  rcases hl with rfl | hl
  · exact h
  · have hshell : lock ≠ some (.shell j) := fun hc => hij (hl _ hc).symm
    have hpython : lock ≠ some (.python j) := fun hc => hij (hl _ hc).symm
    exact ⟨fun hx => absurd (h.shell hx) hshell, fun hx => absurd (h.window hx) hshell,
      fun hx => absurd (h.python hx) hpython, fun hx => absurd (h.headless hx).1 hpython,
      h.alone⟩

/-- A step that ends no Python process before its emulator keeps every session covered. -/
theorem step_covered {e : ℕ × Action} (h : ∀ i, Covered s.lock i (s.session i))
    (hq : OutlivesEmulator s e) (hs : step s e = some t) :
    ∀ i, Covered t.lock i (t.session i) := by
  unfold step at hs
  obtain ⟨⟨y, op⟩, hy, rfl⟩ := Option.map_eq_some_iff.mp hs
  intro j
  by_cases hj : j = e.1
  · subst hj
    simpa using (act_covered (h e.1) hq hy).settle
  · simpa [update_of_ne hj] using (h j).of_other (Ne.symm hj) (act_lock hy)

theorem exclusive_of_covered (h : ∀ i, Covered s.lock i (s.session i)) : Exclusive s := by
  intro i j hi hj
  rcases (h i).lock_of_images hi with hi | hi <;> rcases (h j).lock_of_images hj with hj | hj <;>
    rw [hi] at hj <;> cases hj <;> rfl

/-- In a run in which no Python process ends while the emulator it started has
the disk images open, at most one emulator has them open in every state. -/
theorem one_emulator_per_disk (es : List (ℕ × Action))
    (hq : Steps step State.initial es fun _ t e => OutlivesEmulator t e) :
    Along step State.initial es fun _ t => Exclusive t := by
  have hinv : Along step State.initial es fun _ t => ∀ i, Covered t.lock i (t.session i) :=
    Along.of_steps (fun i => covered_unused none i)
      (fun _ _ _ _ hi he hs => step_covered hi he hs) hq
  exact fun pre t hp ht => exclusive_of_covered (hinv pre t hp ht)

/-- A check that runs to its end, then a window. -/
def checkThenWindow : List (ℕ × Action) :=
  [(0, .launch (.direct .check)), (0, .pyOpen), (0, .pyLock), (0, .pyPopen), (0, .pyAccept),
    (0, .pyStop), (0, .mameEnd), (0, .pyStopped), (0, .pyExit),
    (1, .launch (.script .window true)), (1, .shellOpen), (1, .shellLock), (1, .shellDispatch)]

/-- Where a run leaves the emulators of the first two sessions. -/
def emulators (es : List (ℕ × Action)) : Option (Mame × Mame) :=
  (run step State.initial es).map fun t => ((t.session 0).mame, (t.session 1).mame)

/-- The second session's emulator starts when the first one's is gone. -/
theorem one_emulator_check_window :
    emulators checkThenWindow = some (.dead, .alive true) ∧
      Along step State.initial checkThenWindow fun _ t => Exclusive t := by
  refine ⟨by decide, one_emulator_per_disk checkThenWindow ?_⟩
  unfold checkThenWindow
  repeat
    refine steps_cons (by simp [OutlivesEmulator, EndsPython, Mame.HasImages]) fun t ht => ?_
    cases ht
  exact steps_nil _

/-- A check that is interrupted from the keyboard while it serves its emulator,
which ignores the signal, and then another check. -/
def interruptedThenCheck : List (ℕ × Action) :=
  [(0, .launch (.direct .check)), (0, .pyOpen), (0, .pyLock), (0, .pyPopen), (0, .pyAccept),
    (0, .pyInterrupt),
    (1, .launch (.direct .check)), (1, .pyOpen), (1, .pyLock), (1, .pyPopen)]

/-- The interrupt frees the lock and leaves the emulator, and the next session
starts another one on the same images. -/
theorem interrupted_check_leaves_emulator :
    ¬∀ es, Along step State.initial es fun _ t => Exclusive t := by
  intro h
  have hboth : emulators interruptedThenCheck = some (.alive false, .alive false) := by decide
  obtain ⟨t, ht, hm⟩ := Option.map_eq_some_iff.mp hboth
  have h0 : (t.session 0).mame = .alive false := congrArg Prod.fst hm
  have h1 : (t.session 1).mame = .alive false := congrArg Prod.snd hm
  have heq := h interruptedThenCheck interruptedThenCheck t List.prefix_rfl ht 0 1
    (by simp [h0, Mame.HasImages]) (by simp [h1, Mame.HasImages])
  exact absurd heq (by omega)

end Sys16.Sessions
