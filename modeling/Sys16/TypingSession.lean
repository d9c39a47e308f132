import Mathlib.Data.List.Chain
import Sys16.BootDetect

/-!
# A session's typing

A `Machine` of `pack/genixterm.py` with the record of what a session has done
with it: the texts it has queued, the bytes it has handed to `send` and when,
and the console output it has noted. Whatever the order of these acts, bytes
leave in the order they were queued in, at least 0.12 seconds apart, and the
boot command is queued once at most.
-/

namespace Sys16.TypingSession

open PyStruct GenixTerm BootDetect Seconds

/-- A machine and what has been done with it. The last three fields are not in
the source. -/
structure Session where
  machine : Machine
  /-- The bytes handed to `send`, each with the reading of the clock. -/
  sends : List (ℚ × UInt8)
  /-- The texts queued, each with the length of the console output before. -/
  typed : List (ℕ × Bytes)
  /-- The console output noted. -/
  console : Bytes
  deriving DecidableEq, Repr

/-- A session with the machine of `Machine.__init__`. -/
def Session.init (monitor : Bool) : Session := ⟨Machine.init monitor, [], [], []⟩

/-- What `note` queues for the ROM monitor. -/
def BOOT : Bytes := bytes "k\r"

/-- `Machine.type`. -/
def Session.type (s : Session) (text : Bytes) : Session :=
  { s with machine := s.machine.type text, typed := s.typed ++ [(s.console.length, text)] }

/-- `Machine.pump_keys`. -/
def Session.pump [Seconds] (s : Session) (now : ℚ) : Session :=
  { s with
    machine := (s.machine.pump_keys now).1,
    sends := s.sends ++ (s.machine.pump_keys now).2.toList.map fun ch => (now, ch) }

/-- `Machine.note`. -/
def Session.note (s : Session) (data : Bytes) : Session :=
  { s with
    machine := s.machine.note data,
    typed := if (s.machine.note data).booted ≠ s.machine.booted then
        s.typed ++ [((s.console ++ data).length, BOOT)] else s.typed,
    console := s.console ++ data }

/-- `m.seen.clear()`. -/
def Session.clear (s : Session) : Session := { s with machine := { s.machine with seen := [] } }

/-- The texts queued, in order. -/
def Session.texts (s : Session) : List Bytes := s.typed.map Prod.snd

/-- The bytes handed to `send`, in order. -/
def Session.handed (s : Session) : Bytes := s.sends.map Prod.snd

variable {s t u : Session} {m : Machine} {now : ℚ} {data text : Bytes} {base : List (ℕ × Bytes)}
  {b : Bool}

/-! ## What each act does -/

/-- `note` keeps the queue and its pace, or queues the boot command of a
machine that has nothing queued and has not booted. -/
theorem note_effect (m : Machine) (data : Bytes) :
    (m.note data).seen = window (m.seen ++ data) ∧ (m.note data).next_key = m.next_key ∧
      (m.note data).monitor = m.monitor ∧
      ((m.note data).booted = m.booted ∧ (m.note data).pending = m.pending ∨
        m.monitor = false ∧ m.booted = false ∧ m.pending = [] ∧ (m.note data).booted = true ∧
          (m.note data).pending = BOOT) := by
  by_cases h : m.booted = false ∧ m.monitor = false ∧
      occurs MONITOR (window (m.seen ++ data)) = true ∧ m.pending = []
  · rw [note_boots h.1 h.2.1 h.2.2.2 h.2.2.1]
    generalize window (m.seen ++ data) = w
    exact ⟨rfl, rfl, rfl, Or.inr ⟨h.2.1, h.1, h.2.2.2, rfl, rfl⟩⟩
  · rw [note_keeps h]
    generalize window (m.seen ++ data) = w
    exact ⟨rfl, rfl, rfl, Or.inl ⟨rfl, rfl⟩⟩

/-- `pump_keys` waits, or hands over the first byte queued. -/
theorem pump_effect [Seconds] (m : Machine) (now : ℚ) :
    (m.pump_keys now).1.seen = m.seen ∧ (m.pump_keys now).1.booted = m.booted ∧
      (m.pump_keys now).1.monitor = m.monitor ∧
      ((m.pump_keys now) = (m, none) ∨
        ∃ ch, (m.pump_keys now).2 = some ch ∧ m.pending = ch :: (m.pump_keys now).1.pending ∧
          m.next_key ≤ now ∧ (m.pump_keys now).1.next_key = later now 0.12) := by
  unfold Machine.pump_keys
  cases hp : m.pending with
  | nil => exact ⟨rfl, rfl, rfl, Or.inl rfl⟩
  | cons ch rest =>
    dsimp only
    split
    · next hkey => exact ⟨rfl, rfl, rfl, Or.inr ⟨ch, rfl, rfl, hkey, rfl⟩⟩
    · exact ⟨rfl, rfl, rfl, Or.inl rfl⟩

/-! ## Order and pace -/

/-- A session's bytes leave in the order they were queued in, each at least
0.12 seconds after the one before, as the program adds them. -/
structure Orderly [Seconds] (s : Session) : Prop where
  /-- What has been handed over and what is left are what was queued. -/
  fifo : s.handed ++ s.machine.pending = s.texts.flatten
  paced : s.sends.IsChain fun x y => later x.1 0.12 ≤ y.1
  /-- The pace holds for the next byte too. -/
  next : ∀ x ∈ s.sends.getLast?, later x.1 0.12 ≤ s.machine.next_key

/-- Nothing has been queued or handed over at the start. -/
theorem orderly_init [Seconds] (monitor : Bool) : Orderly (Session.init monitor) :=
  ⟨rfl, List.isChain_nil, fun _ h => absurd h (by simp [Session.init])⟩

/-- A text that is queued goes behind what is left. -/
theorem Orderly.type [Seconds] (h : Orderly s) (text : Bytes) : Orderly (s.type text) := by
  refine ⟨?_, h.paced, h.next⟩
  have hfifo := h.fifo
  unfold Session.texts at hfifo ⊢
  show s.handed ++ (s.machine.pending ++ text) = _
  rw [← List.append_assoc, hfifo]
  simp [Session.type]

/-- Clearing the window does not touch the queue. -/
theorem Orderly.clear [Seconds] (h : Orderly s) : Orderly s.clear := ⟨h.fifo, h.paced, h.next⟩

/-- A byte goes over from the head of the queue, and not before its time. -/
theorem Orderly.pump [Seconds] (h : Orderly s) (now : ℚ) : Orderly (s.pump now) := by
  obtain ⟨_, _, _, hwait | ⟨ch, hch, hpending, hkey, hnext⟩⟩ := pump_effect s.machine now
  · have hsame : s.pump now = s := by
      unfold Session.pump
      rw [hwait]
      simp
    rw [hsame]
    exact h
  · have hsends : (s.pump now).sends = s.sends ++ [(now, ch)] := by
      unfold Session.pump
      rw [hch]
      rfl
    refine ⟨?_, ?_, ?_⟩
    · have hfifo := h.fifo
      unfold Session.handed at hfifo ⊢
      rw [hpending] at hfifo
      rw [hsends, List.map_append, List.append_assoc]
      exact hfifo
    · rw [hsends]
      refine List.IsChain.append h.paced (List.isChain_singleton _) fun x hx y hy => ?_
      have hlast := h.next x hx
      obtain rfl : (now, ch) = y := by simpa using hy
      exact hlast.trans hkey
    · rw [hsends]
      intro x hx
      obtain rfl : (now, ch) = x := by simpa using hx
      exact le_of_eq hnext.symm

/-- Output may queue the boot command, which keeps the order and the pace. -/
theorem Orderly.note [Seconds] (h : Orderly s) (data : Bytes) : Orderly (s.note data) := by
  obtain ⟨_, hkey, _, ⟨hbooted, hpending⟩ | ⟨_, hboot, hnil, hbooted, hpending⟩⟩ :=
    note_effect s.machine data
  · have htexts : (s.note data).texts = s.texts := by
      unfold Session.texts Session.note
      dsimp only
      rw [if_neg (not_not.mpr hbooted)]
    refine ⟨?_, h.paced, ?_⟩
    · rw [htexts, ← h.fifo]
      show s.handed ++ (s.machine.note data).pending = _
      rw [hpending]
    · intro x hx
      show _ ≤ (s.machine.note data).next_key
      rw [hkey]
      exact h.next x hx
  · have htexts : (s.note data).texts = s.texts ++ [BOOT] := by
      unfold Session.texts Session.note
      dsimp only
      rw [if_pos (by rw [hbooted, hboot]; decide), List.map_append]
      rfl
    refine ⟨?_, h.paced, ?_⟩
    · have hfifo := h.fifo
      rw [hnil, List.append_nil] at hfifo
      rw [htexts, List.flatten_append, List.flatten_singleton, ← hfifo]
      show s.handed ++ (s.machine.note data).pending = _
      rw [hpending]
    · intro x hx
      show _ ≤ (s.machine.note data).next_key
      rw [hkey]
      exact h.next x hx

/-! ## The boot command -/

/-- Since the texts were `base` and the machine booted or not, at most the boot
command has been queued, by a machine that had not booted and is not held in
the monitor. -/
def Since (base : List (ℕ × Bytes)) (b : Bool) (s : Session) : Prop :=
  s.typed = base ∧ s.machine.booted = b ∨
    b = false ∧ s.machine.monitor = false ∧ s.machine.booted = true ∧
      ∃ n, s.typed = base ++ [(n, BOOT)]

/-- Nothing has been queued since now. -/
theorem Since.refl (s : Session) : Since s.typed s.machine.booted s := Or.inl ⟨rfl, rfl⟩

/-- Handing bytes over queues nothing. -/
theorem Since.pump [Seconds] (h : Since base b s) (now : ℚ) : Since base b (s.pump now) := by
  obtain ⟨_, hbooted, hmonitor, _⟩ := pump_effect s.machine now
  show s.typed = base ∧ (s.machine.pump_keys now).1.booted = b ∨ b = false ∧
    (s.machine.pump_keys now).1.monitor = false ∧ (s.machine.pump_keys now).1.booted = true ∧ _
  rw [hbooted, hmonitor]
  exact h

/-- Output queues the boot command at most, and that once. -/
theorem Since.note (h : Since base b s) (data : Bytes) : Since base b (s.note data) := by
  obtain ⟨_, _, hmonitor, hcase⟩ := note_effect s.machine data
  rcases hcase with ⟨hbooted, _⟩ | ⟨hmon, hboot, _, hbooted, _⟩
  · have htyped : (s.note data).typed = s.typed := if_neg (not_not.mpr hbooted)
    show (s.note data).typed = base ∧ (s.machine.note data).booted = b ∨ b = false ∧
      (s.machine.note data).monitor = false ∧ (s.machine.note data).booted = true ∧
      ∃ n, (s.note data).typed = _
    rw [htyped, hbooted, hmonitor]
    exact h
  · have htyped : (s.note data).typed = s.typed ++ [((s.console ++ data).length, BOOT)] :=
      if_pos (by rw [hbooted, hboot]; decide)
    rcases h with ⟨htexts, hb⟩ | ⟨_, _, hb, _⟩
    · refine Or.inr ⟨hb.symm.trans hboot, hmonitor.trans hmon, hbooted, ?_⟩
      exact ⟨_, htyped.trans (by rw [htexts])⟩
    · rw [hboot] at hb
      cases hb

/-! ## The window -/

/-- The window is that of the console output from a point on. -/
def Watches (n : ℕ) (s : Session) : Prop :=
  n ≤ s.console.length ∧ s.machine.seen = window (s.console.drop n)

/-- Without output the window is empty. -/
theorem window_nil : window [] = [] := by
  unfold window
  exact List.drop_nil

/-- A new session watches all of its output. -/
theorem watches_init (monitor : Bool) : Watches 0 (Session.init monitor) := by
  refine ⟨le_rfl, ?_⟩
  show [] = window (([] : Bytes).drop 0)
  rw [List.drop_nil, window_nil]

/-- A window that is cleared watches what comes from then on. -/
theorem watches_clear (s : Session) : Watches s.console.length s.clear := by
  refine ⟨le_rfl, ?_⟩
  show [] = window (s.console.drop s.console.length)
  rw [List.drop_length, window_nil]

/-- Typing does not move the window. -/
theorem Watches.type {n : ℕ} (h : Watches n s) (text : Bytes) : Watches n (s.type text) := h

/-- Handing bytes over does not move it either. -/
theorem Watches.pump [Seconds] {n : ℕ} (h : Watches n s) (now : ℚ) : Watches n (s.pump now) := by
  refine ⟨h.1, ?_⟩
  show (s.machine.pump_keys now).1.seen = _
  rw [(pump_effect s.machine now).1]
  exact h.2

/-- Output moves the window on, cut or not. -/
theorem Watches.note {n : ℕ} (h : Watches n s) (data : Bytes) : Watches n (s.note data) := by
  refine ⟨?_, ?_⟩
  · show n ≤ (s.console ++ data).length
    rw [List.length_append]
    exact h.1.trans (Nat.le_add_right _ _)
  · show (s.machine.note data).seen = window ((s.console ++ data).drop n)
    rw [(note_effect s.machine data).1, h.2, window_append, List.drop_append_of_le_length h.1]

/-- A marker that the machine has seen is in the window. -/
theorem Watches.saw {n : ℕ} (h : Watches n s) {marker : Bytes} :
    s.machine.saw marker = true ↔ marker <:+: window (s.console.drop n) := by
  unfold Machine.saw
  rw [h.2, occurs_iff]

/-! ## Conditions that hold through a loop -/

/-- A condition that typing and listening keep. -/
structure Closed [Seconds] (P : Session → Prop) : Prop where
  pump : ∀ s now, P s → P (s.pump now)
  note : ∀ s data, P s → P (s.note data)

/-- The order and the pace hold through any loop. -/
theorem closed_orderly [Seconds] : Closed Orderly :=
  ⟨fun _ now h => h.pump now, fun _ data h => h.note data⟩

/-- What has been queued since a point stays the boot command at most. -/
theorem closed_since [Seconds] (base : List (ℕ × Bytes)) (b : Bool) : Closed (Since base b) :=
  ⟨fun _ now h => h.pump now, fun _ data h => h.note data⟩

/-- The window goes on watching the output from the same point. -/
theorem closed_watches [Seconds] (n : ℕ) : Closed (Watches n) :=
  ⟨fun _ now h => h.pump now, fun _ data h => h.note data⟩

/-- Console output is only added to. -/
theorem closed_console [Seconds] (before : Bytes) : Closed fun s => before <+: s.console :=
  ⟨fun _ _ h => h, fun _ data h => h.trans (List.prefix_append _ data)⟩

/-- Whether the machine is held in the monitor does not change. -/
theorem closed_monitor [Seconds] (monitor : Bool) : Closed fun s => s.machine.monitor = monitor :=
  ⟨fun s now h => ((pump_effect s.machine now).2.2.1).trans h,
    fun s data h => ((note_effect s.machine data).2.2.1).trans h⟩

end Sys16.TypingSession
