import Sys16.SyncDeadline
import Sys16.TypingSession

/-!
# The sessions that nobody types at

`run_check` and `run_exec` of `pack/genixterm.py`, each pass of their loops with
what it reads of the clock, the process and the socket. What either of them
types, in which order and after which output, holds for all such readings: the
check passes only on output that a shell has printed after it was asked to.
-/

namespace Sys16.BootSession

open PyText PyStruct GenixTerm BootDetect SyncDeadline TypingSession Seconds

/-- How `recv` ends. -/
inductive Recv where
  /-- The bytes there are, none of them when the other side has closed. -/
  | data (d : Bytes)
  /-- `EAGAIN` or `EWOULDBLOCK`. -/
  | again
  /-- Any other `OSError`. -/
  | failed
  deriving DecidableEq, Repr

/-- What one pass of a loop reads, in order. -/
structure Pass where
  /-- The clock, in the condition of the loop. -/
  before : ℚ
  /-- `proc.poll() is None`. -/
  alive : Bool
  /-- The clock, for `pump_keys`. -/
  now : ℚ
  recv : Recv
  /-- The clock, when the command is typed. -/
  prompt : ℚ
  /-- The clock, against `done`. -/
  after : ℚ
  deriving DecidableEq, Repr

def USER : Bytes := bytes "SINGLE USER MODE"
/-- What the check types at the shell. -/
def ECHO : Bytes := bytes "echo ok''1234\r"
/-- What the shell prints for it. -/
def ANSWER : Bytes := bytes "ok1234\r\n"

/-- A `recv` whose failures are ignored. -/
def hear (s : Session) : Recv → Session
  | .data d => if d = [] then s else s.note d
  | .again => s
  | .failed => s

section

variable [Seconds]

/-! ## The shutdown -/

/-- The loop of `sync_and_stop`. What `drain` takes is thrown away. -/
def quietLoop (deadline : ℚ) : Session → List Pass → Option Session
  | s, [] => if s.machine.pending = [] then some s else none
  | s, p :: ps =>
    if s.machine.pending ≠ [] ∧ p.before < deadline then quietLoop deadline (s.pump p.now) ps
    else some s

/-- `Machine.sync_and_stop` up to its call of `stop`, entered at a time. -/
def sync_and_stop (s : Session) (entered : ℚ) (ps : List Pass) : Option Session :=
  quietLoop (later entered 6) (s.type SYNC) ps

/-! ## `run_check` -/

/-- The banner, the mode and the prompt have all been seen. -/
def atShell (s : Session) : Bool :=
  s.machine.saw BANNER && s.machine.saw USER && s.machine.saw PROMPT

/-- The first loop of `run_check`, with `gone` and the passes that are left. -/
def bootLoop (deadline : ℚ) : Session → List Pass → Option (Session × Bool × List Pass)
  | _, [] => none
  | s, p :: ps =>
    if p.before < deadline ∧ p.alive = true then
      let s := s.pump p.now
      match p.recv with
      | .failed => some (s, true, ps)
      | .again => if atShell s then some (s, false, ps) else bootLoop deadline s ps
      | .data d =>
        if d = [] then some (s, true, ps)
        else
          let s := s.note d
          if atShell s then some (s, false, ps) else bootLoop deadline s ps
    else some (s, false, ps)

/-- The loop of `run_check` that waits for the shell. -/
def shellLoop (deadline : ℚ) : Session → List Pass → Option (Session × List Pass)
  | _, [] => none
  | s, p :: ps =>
    if p.before < deadline ∧ s.machine.saw ANSWER = false then
      shellLoop deadline (hear (s.pump p.now) p.recv) ps
    else some (s, ps)

/-- The readings that are taken outside the loops. -/
structure Readings where
  /-- The clock, at the start. -/
  start : ℚ
  /-- The clock: in `run_check` when the echo is typed, in `run_exec` for the first `done`. -/
  second : ℚ
  /-- `proc.poll() is not None` after the boot. -/
  stopped : Bool
  /-- The clock, when `sync_and_stop` is entered. -/
  entered : ℚ
  deriving DecidableEq, Repr

/-- What a session without a user ends with. -/
structure Outcome where
  session : Session
  /-- The lines printed besides the console output. -/
  lines : List Str
  /-- The value returned. -/
  code : ℕ
  deriving DecidableEq, Repr

/-- The part of `run_check` that exercises the shell, with `ok`. -/
def checkShell (r : Readings) (s : Session) (ps : List Pass) :
    Option (Session × Bool × List Pass) :=
  if atShell s then do
    let (s, ps) ← shellLoop (later r.second 25) (s.type ECHO) ps
    return (s, s.machine.saw ANSWER, ps)
  else some (s, false, ps)

/-- `run_check`. -/
def run_check (timeout : ℚ) (r : Readings) (s : Session) (ps : List Pass) : Option Outcome := do
  let (s, gone, ps) ← bootLoop (later r.start timeout) s ps
  let warning := if gone || r.stopped then
    [str "\nthe emulator stopped on its own; see work/mame.log"] else []
  let (s, ok, ps) ← checkShell r s ps
  let s ← sync_and_stop s r.entered ps
  return {
    session := s
    lines := warning ++ [str "", if ok then
      str "CHECK PASSED: GENIX booted to a shell and ran a command"
      else str "CHECK FAILED: see mame.log"]
    code := if ok then 0 else 1 }

/-! ## `run_exec` -/

/-- `isspace` of a byte. -/
def isSpace (b : UInt8) : Bool := b = 0x20 || (0x09 ≤ b && b ≤ 0x0d)

/-- `rstrip` of bytes. -/
def rstrip (b : Bytes) : Bytes := (b.reverse.dropWhile isSpace).reverse

/-- The variables of `run_exec`. -/
structure Exec where
  session : Session
  typed : Bool
  done : ℚ
  deriving DecidableEq, Repr

/-- How the loop of `run_exec` is left. -/
inductive Left where
  /-- Its condition: the time is up, or the emulator has stopped. -/
  | condition
  /-- The command has had its forty seconds. -/
  | late
  /-- The prompt is back. -/
  | prompt
  deriving DecidableEq, Repr

/-- The command is typed at the first prompt of the shell. -/
def Exec.prompted (command : Str) (now : ℚ) (e : Exec) : Except Failure Exec :=
  if e.typed = false ∧ e.session.machine.saw PROMPT = true ∧ e.session.machine.saw USER = true
  then do
    let text ← encodeLatin1 command
    return {
      session := (e.session.type (text ++ bytes "\r")).clear
      typed := true
      done := later now 40 }
  else .ok e

/-- One pass of the loop, with whether it is left at its end. -/
def Exec.pass (command : Str) (e : Exec) (p : Pass) : Except Failure (Exec × Option Left) := do
  let e ← Exec.prompted command p.prompt { e with session := hear (e.session.pump p.now) p.recv }
  if e.typed = true ∧ e.done < p.after then return (e, some .late)
  else if e.typed = true ∧ occurs PROMPT e.session.machine.seen = true ∧
      e.session.machine.pending = [] ∧ (rstrip e.session.machine.seen).getLast? = some 0x23 then
    return (e, some .prompt)
  else return (e, none)

/-- The loop of `run_exec`, with how it is left and the passes that are left. -/
def execLoop (command : Str) (deadline : ℚ) :
    Exec → List Pass → Option (Except Failure (Exec × Left × List Pass))
  | _, [] => none
  | e, p :: ps =>
    if p.before < deadline ∧ p.alive = true then
      match e.pass command p with
      | .error f => some (.error f)
      | .ok (e, some left) => some (.ok (e, left, ps))
      | .ok (e, none) => execLoop command deadline e ps
    else some (.ok (e, .condition, ps))

/-- `run_exec`, with how its loop is left. An error ends the program there. -/
def run_exec (timeout : ℚ) (r : Readings) (s : Session) (command : Str) (ps : List Pass) :
    Option (Except Failure (Outcome × Left)) := do
  match ← execLoop command (later r.start timeout) ⟨s, false, later r.second timeout⟩ ps with
  | .error f => return .error f
  | .ok (e, left, ps) =>
    let s ← sync_and_stop e.session r.entered ps
    return .ok ({ session := s, lines := [str ""], code := if e.typed then 0 else 1 }, left)

end

variable {P : Session → Prop} {s t u : Session} {p : Pass} {ps rest : List Pass} {deadline : ℚ}
  {gone monitor b : Bool} {n k : ℕ} {text marker : Bytes} {command : Str} {e e' : Exec} {left : Left}

/-! ## What the loops keep -/

/-- Hearing a chunk keeps every closed property of the session. -/
theorem hear_keeps [Seconds] (hP : Closed P) (h : P s) (r : Recv) : P (hear s r) := by
  cases r with
  | data d =>
    unfold hear
    dsimp only
    split
    · exact h
    · exact hP.note s d h
  | again => exact h
  | failed => exact h

/-- The boot loop keeps every closed property of the session. -/
theorem bootLoop_keeps [Seconds] (hP : Closed P) (h0 : P s)
    (h : bootLoop deadline s ps = some (t, gone, rest)) : P t := by
  induction ps generalizing s with
  | nil => cases h
  | cons p ps ih =>
    have hpump := hP.pump s p.now h0
    unfold bootLoop at h
    split_ifs at h with hc
    · dsimp only at h
      split at h
      · cases h
        exact hpump
      · split_ifs at h
        · cases h
          exact hpump
        · exact ih hpump h
      · next d _ =>
        have hnote := hP.note _ d hpump
        split_ifs at h
        · cases h
          exact hpump
        · cases h
          exact hnote
        · exact ih hnote h
    · cases h
      exact h0

/-- The shell loop keeps every closed property of the session. -/
theorem shellLoop_keeps [Seconds] (hP : Closed P) (h0 : P s)
    (h : shellLoop deadline s ps = some (t, rest)) : P t := by
  induction ps generalizing s with
  | nil => cases h
  | cons p ps ih =>
    unfold shellLoop at h
    split_ifs at h
    · exact ih (hear_keeps hP (hP.pump s p.now h0) p.recv) h
    · cases h
      exact h0

/-- The loop of the shutdown keeps whatever typing keeps. -/
theorem quietLoop_keeps [Seconds] (hP : ∀ s now, P s → P (s.pump now)) (h0 : P s)
    (h : quietLoop deadline s ps = some t) : P t := by
  induction ps generalizing s with
  | nil =>
    unfold quietLoop at h
    split_ifs at h
    cases h
    exact h0
  | cons p ps ih =>
    unfold quietLoop at h
    split_ifs at h
    · exact ih (hP s p.now h0) h
    · cases h
      exact h0

/-- The shutdown queues the sync, and notes nothing more. -/
theorem sync_effect [Seconds] {entered : ℚ} (h : sync_and_stop s entered ps = some t) :
    t.typed = s.typed ++ [(s.console.length, SYNC)] ∧ t.console = s.console ∧
      (Orderly s → Orderly t) ∧ s.handed <+: t.handed := by
  unfold sync_and_stop at h
  refine ⟨?_, ?_, fun ho => ?_, ?_⟩
  · exact quietLoop_keeps (P := fun t => t.typed = s.typed ++ [(s.console.length, SYNC)])
      (fun _ _ h => h) rfl h
  · exact quietLoop_keeps (s := s.type SYNC) (P := fun t => t.console = s.console)
      (fun _ _ h => h) rfl h
  · exact quietLoop_keeps closed_orderly.pump (ho.type SYNC) h
  · refine quietLoop_keeps (s := s.type SYNC) (P := fun t => s.handed <+: t.handed)
      (fun t now hp => ?_) List.prefix_rfl h
    refine hp.trans ?_
    unfold Session.handed Session.pump
    rw [List.map_append]
    exact List.prefix_append _ _

/-! ## What a session types -/

/-- The texts of a session: the command, if there is one, then the sync, and
the boot command at most once, before or after the command but never for a
machine that is held in the monitor. -/
def Script (monitor : Bool) (command : Option Bytes) (texts : List Bytes) : Prop :=
  ∃ before after, texts = before ++ command.toList ++ after ++ [SYNC] ∧
    (before ++ after = [] ∨ monitor = false ∧ before ++ after = [BOOT])

/-- A session that has typed the sync and no command. -/
theorem Since.script_without (h : Since [] false s) (hmon : s.machine.monitor = monitor)
    (ht : t.typed = s.typed ++ [(s.console.length, SYNC)]) : Script monitor none t.texts := by
  unfold Session.texts
  rw [ht]
  rcases h with ⟨htyped, _⟩ | ⟨_, hm, _, k, htyped⟩
  · exact ⟨[], [], by simp [htyped], Or.inl rfl⟩
  · exact ⟨[BOOT], [], by simp [htyped], Or.inr ⟨hmon.symm.trans hm, rfl⟩⟩

/-- A session that has typed a command and the sync. -/
theorem Since.script (h : Since [] false s) (hmon : s.machine.monitor = monitor)
    (h' : Since (s.typed ++ [(n, text)]) s.machine.booted t) (hmon' : t.machine.monitor = monitor)
    (hu : u.typed = t.typed ++ [(t.console.length, SYNC)]) : Script monitor (some text) u.texts := by
  unfold Session.texts
  rw [hu]
  rcases h' with ⟨htyped', _⟩ | ⟨hboot, hm', _, k', htyped'⟩
  · rcases h with ⟨htyped, _⟩ | ⟨_, hm, _, k, htyped⟩
    · exact ⟨[], [], by simp [htyped', htyped], Or.inl rfl⟩
    · exact ⟨[BOOT], [], by simp [htyped', htyped], Or.inr ⟨hmon.symm.trans hm, rfl⟩⟩
  · rcases h with ⟨htyped, _⟩ | ⟨_, _, hb, _⟩
    · exact ⟨[], [BOOT], by simp [htyped', htyped], Or.inr ⟨hmon'.symm.trans hm', rfl⟩⟩
    · rw [hboot] at hb
      cases hb

/-- What `note` queues on its own is no other text. -/
theorem Since.not_mem (h : Since [] false s) (n : ℕ) : (n, ECHO) ∉ s.typed := by
  intro hn
  rcases h with ⟨htyped, _⟩ | ⟨_, _, _, k, htyped⟩
  · rw [htyped] at hn
    cases hn
  · rw [htyped, List.nil_append] at hn
    have htext : ECHO = BOOT := congrArg Prod.snd (List.mem_singleton.mp hn)
    exact absurd htext (by decide)

/-- The echo is queued once. -/
theorem Since.mem_iff (h : Since (s.typed ++ [(s.console.length, ECHO)]) b t)
    (hs : ∀ n, (n, ECHO) ∉ s.typed) :
    (n, ECHO) ∈ t.typed ++ [(k, SYNC)] ↔ n = s.console.length := by
  have hboot : ECHO ≠ BOOT := by decide
  have hsync : ECHO ≠ SYNC := by decide
  have hbase : (n, ECHO) ∈ s.typed ++ [(s.console.length, ECHO)] ↔ n = s.console.length := by
    simp [hs n]
  rcases h with ⟨htyped, _⟩ | ⟨_, _, _, j, htyped⟩
  · rw [htyped, List.mem_append, hbase]
    simp [hsync]
  · rw [htyped, List.mem_append, List.mem_append, hbase]
    simp [hsync, hboot]

/-! ## `run_check` -/

/-- How a check goes: to the end without a shell, or through the echo. -/
theorem run_check_phases [Seconds] {timeout : ℚ} {r : Readings} {o : Outcome}
    (h : run_check timeout r s ps = some o) : ∃ t gone rest,
      bootLoop (later r.start timeout) s ps = some (t, gone, rest) ∧
        (atShell t = false ∧ sync_and_stop t r.entered rest = some o.session ∧ o.code = 1 ∨
          atShell t = true ∧ ∃ u rest', shellLoop (later r.second 25) (t.type ECHO) rest =
            some (u, rest') ∧ sync_and_stop u r.entered rest' = some o.session ∧
            o.code = if u.machine.saw ANSWER then 0 else 1) := by
  unfold run_check at h
  obtain ⟨⟨t, gone, rest⟩, hboot, h⟩ := Option.bind_eq_some_iff.mp h
  refine ⟨t, gone, rest, hboot, ?_⟩
  obtain ⟨⟨u, ok, rest'⟩, hshell, h⟩ := Option.bind_eq_some_iff.mp h
  obtain ⟨v, hsync, h⟩ := Option.bind_eq_some_iff.mp h
  cases h
  dsimp only at hshell hsync ⊢
  unfold checkShell at hshell
  cases hat : atShell t with
  | false =>
    rw [hat, if_neg (by decide)] at hshell
    cases hshell
    exact Or.inl ⟨rfl, hsync, rfl⟩
  | true =>
    rw [hat, if_pos rfl] at hshell
    obtain ⟨⟨w, rest''⟩, hloop, hw⟩ := Option.bind_eq_some_iff.mp hshell
    cases hw
    exact Or.inr ⟨rfl, _, _, hloop, hsync, rfl⟩

/-- The shell is seen exactly when all three markers stand in the window. -/
theorem atShell_iff (h : Watches 0 s) : atShell s = true ↔
    ∀ marker ∈ [BANNER, USER, PROMPT], marker <:+: window s.console := by
  have hsaw : ∀ marker, s.machine.saw marker = true ↔ marker <:+: window s.console :=
    fun _ => h.saw
  unfold atShell
  simp only [Bool.and_eq_true, hsaw, List.forall_mem_cons, and_assoc, List.not_mem_nil,
    false_imp_iff, implies_true, and_true]

/-- Whatever a check reads, what it types goes out in order and at its pace:
the echo, if it came to the shell, then the sync, and the boot command at most
once. -/
theorem check_typing [Seconds] {timeout : ℚ} {r : Readings} {o : Outcome}
    (h : run_check timeout r (Session.init monitor) ps = some o) : Orderly o.session ∧
      (Script monitor none o.session.texts ∨ Script monitor (some ECHO) o.session.texts) := by
  obtain ⟨t, gone, rest, hboot, hcase⟩ := run_check_phases h
  have hmon := bootLoop_keeps (closed_monitor monitor) rfl hboot
  have hsince := bootLoop_keeps (closed_since [] false) (Or.inl ⟨rfl, rfl⟩) hboot
  have horder := bootLoop_keeps closed_orderly (orderly_init monitor) hboot
  rcases hcase with ⟨_, hsync, _⟩ | ⟨_, u, rest', hshell, hsync, _⟩
  · obtain ⟨htyped, _, ho, _⟩ := sync_effect hsync
    exact ⟨ho horder, Or.inl (Since.script_without hsince hmon htyped)⟩
  · obtain ⟨htyped, _, ho, _⟩ := sync_effect hsync
    have hmon' := shellLoop_keeps (s := t.type ECHO) (closed_monitor monitor) hmon hshell
    have hsince' := shellLoop_keeps (closed_since _ _) (Since.refl (t.type ECHO)) hshell
    exact ⟨ho (shellLoop_keeps closed_orderly (horder.type ECHO) hshell),
      Or.inr (Since.script hsince hmon hsince' hmon' htyped)⟩

/-- A machine that is at its shell at once, answers, and is shut down late. -/
def quickBoot : List Pass :=
  [⟨0, true, 0, .data (bytes "UNIX/2.0v1 SINGLE USER MODE # "), 0, 0⟩,
    ⟨0, true, 1, .data (bytes "ok1234\r\n"), 0, 0⟩, ⟨0, true, 2, .again, 0, 0⟩,
    ⟨0, true, 3, .again, 0, 0⟩, ⟨9, true, 4, .again, 0, 0⟩]

section

open ExactSeconds

/-- The typing of a check that passes. -/
theorem check_typing_quick :
    ∃ o, run_check 420 ⟨0, 0, false, 0⟩ (Session.init false) quickBoot = some o ∧
      Orderly o.session ∧
      (Script false none o.session.texts ∨ Script false (some ECHO) o.session.texts) := by
  obtain ⟨o, h⟩ : ∃ o, run_check 420 ⟨0, 0, false, 0⟩ (Session.init false) quickBoot = some o :=
    Option.isSome_iff_exists.mp (by decide +kernel)
  exact ⟨o, h, check_typing h⟩

end

/-- The terminal's echo of what the check types. -/
def ECHOED : Bytes := bytes "echo ok''1234\r\n"

/-- The echo completes no answer: every answer in it ends at its last byte, and
there the quotes are in the way. -/
theorem answer_not_echoed {before echoed : Bytes} (h : ¬ANSWER <:+: before)
    (he : echoed <+: ECHOED) : ¬ANSWER <:+: before ++ echoed := by
  rintro ⟨x, y, hxy⟩
  by_cases hlen : echoed.length ≤ y.length
  · have hsplit : x ++ ANSWER ++ y.take (y.length - echoed.length) ++
        y.drop (y.length - echoed.length) = before ++ echoed := by
      rw [← hxy, List.append_assoc, List.take_append_drop]
    have htail : (y.drop (y.length - echoed.length)).length = echoed.length := by
      rw [List.length_drop]
      omega
    exact h ⟨x, _, (List.append_inj' hsplit htail).1⟩
  · -- the answer ends in the echo, with its line feed
    have hat : (before ++ echoed)[x.length + 7]? = some 0x0a := by
      rw [← hxy, List.append_assoc, List.getElem?_append_right (by omega),
        Nat.add_sub_cancel_left]
      rfl
    have hat' : (before ++ echoed)[x.length + 1]? = some 0x6b := by
      rw [← hxy, List.append_assoc, List.getElem?_append_right (by omega),
        Nat.add_sub_cancel_left]
      rfl
    have hsum := congrArg List.length hxy
    have hanswer : ANSWER.length = 8 := rfl
    have hechoed : ECHOED.length = 15 := rfl
    have hle := he.length_le
    simp only [List.length_append, hanswer] at hsum
    rw [List.getElem?_append_right (by omega)] at hat
    obtain ⟨k, hk⟩ : ∃ k, x.length + 7 - before.length = k := ⟨_, rfl⟩
    have hfeed : ECHOED[k]? = some 0x0a := by
      rw [hk] at hat
      obtain ⟨z, hz⟩ := he
      rw [← hz, List.getElem?_append_left (List.getElem?_eq_some_iff.mp hat).1]
      exact hat
    have hfeeds : ∀ k < 15, ECHOED[k]? = some 0x0a → k = 14 := by decide
    have hlast : k = 14 := hfeeds k (by omega) hfeed
    subst hlast
    rw [List.getElem?_append_right (by omega), show x.length + 1 - before.length = 8 by omega]
      at hat'
    obtain ⟨z, hz⟩ := he
    have hquote : ECHOED[8]? = some 0x6b := by
      rw [← hz, List.getElem?_append_left (List.getElem?_eq_some_iff.mp hat').1]
      exact hat'
    exact absurd hquote (by decide)

/-- A check passes exactly when the banner, the mode and the prompt were in the
window when it queued the echo, and the shell's answer is there at the end. The
terminal's echo alone does not make it pass. -/
theorem check_verdict [Seconds] {timeout : ℚ} {r : Readings} {o : Outcome}
    (h : run_check timeout r (Session.init monitor) ps = some o) :
    (o.code = 0 ↔ ∃ n, (n, ECHO) ∈ o.session.typed ∧
      (∀ marker ∈ [BANNER, USER, PROMPT], marker <:+: window (o.session.console.take n)) ∧
      ANSWER <:+: window o.session.console) ∧
    ∀ n, (n, ECHO) ∈ o.session.typed → o.session.console.drop n <+: ECHOED →
      ¬ANSWER <:+: o.session.console.take n → o.code = 1 := by
  obtain ⟨t, gone, rest, hboot, hcase⟩ := run_check_phases h
  have hsince := bootLoop_keeps (closed_since [] false) (Or.inl ⟨rfl, rfl⟩) hboot
  have hwatch := bootLoop_keeps (closed_watches 0) (watches_init monitor) hboot
  have hnone : ∀ n, (n, ECHO) ∉ t.typed := Since.not_mem hsince
  rcases hcase with ⟨_, hsync, hcode⟩ | ⟨hat, u, rest', hshell, hsync, hcode⟩
  · obtain ⟨htyped, _, _, _⟩ := sync_effect hsync
    have hno : ∀ n, (n, ECHO) ∉ o.session.typed := by
      intro n hn
      rw [htyped] at hn
      rcases List.mem_append.mp hn with hn | hn
      · exact hnone n hn
      · have htext : ECHO = SYNC := congrArg Prod.snd (List.mem_singleton.mp hn)
        exact absurd htext (by decide)
    refine ⟨⟨fun h0 => ?_, fun ⟨n, hn, _⟩ => absurd hn (hno n)⟩, fun n hn => absurd hn (hno n)⟩
    rw [hcode] at h0
    cases h0
  · obtain ⟨htyped, hconsole, _, _⟩ := sync_effect hsync
    have hsince' := shellLoop_keeps (closed_since _ _) (Since.refl (t.type ECHO)) hshell
    have hwatch' := shellLoop_keeps (s := t.type ECHO) (closed_watches 0) hwatch hshell
    have hprefix := shellLoop_keeps (s := t.type ECHO) (closed_console t.console)
      List.prefix_rfl hshell
    have htake : u.console.take t.console.length = t.console :=
      (List.prefix_iff_eq_take.mp hprefix).symm
    have hmem : ∀ n, (n, ECHO) ∈ o.session.typed ↔ n = t.console.length := by
      intro n
      rw [htyped]
      exact Since.mem_iff hsince' hnone
    have hmarkers := (atShell_iff hwatch).mp hat
    have hsaw : u.machine.saw ANSWER = true ↔ ANSWER <:+: window u.console := hwatch'.saw
    rw [hconsole]
    refine ⟨⟨fun h0 => ⟨t.console.length, (hmem _).mpr rfl, by rw [htake]; exact hmarkers, ?_⟩,
      fun ⟨n, _, _, hanswer⟩ => ?_⟩, fun n hn hecho hbefore => ?_⟩
    · rw [hcode] at h0
      by_contra hno
      rw [if_neg fun hs => hno (hsaw.mp hs)] at h0
      cases h0
    · rw [hcode, if_pos (hsaw.mpr hanswer)]
    · rw [hcode, if_neg]
      intro hs
      have hall : u.console.take n ++ u.console.drop n = u.console := List.take_append_drop n _
      refine answer_not_echoed hbefore hecho ?_
      rw [hall]
      exact (hsaw.mp hs).trans (List.drop_suffix _ _).isInfix

section

open ExactSeconds

/-- The verdict on a machine that answers. -/
theorem check_verdict_quick :
    ∃ o, run_check 420 ⟨0, 0, false, 0⟩ (Session.init false) quickBoot = some o ∧ o.code = 0 ∧
      (o.code = 0 ↔ ∃ n, (n, ECHO) ∈ o.session.typed ∧
        (∀ marker ∈ [BANNER, USER, PROMPT], marker <:+: window (o.session.console.take n)) ∧
        ANSWER <:+: window o.session.console) := by
  obtain ⟨o, h⟩ : ∃ o, run_check 420 ⟨0, 0, false, 0⟩ (Session.init false) quickBoot = some o :=
    Option.isSome_iff_exists.mp (by decide +kernel)
  have hcode : (run_check 420 ⟨0, 0, false, 0⟩ (Session.init false) quickBoot).map Outcome.code =
      some 0 := by decide +kernel
  rw [h] at hcode
  exact ⟨o, h, Option.some.inj hcode, (check_verdict h).1⟩

end

/-! ## `run_exec` -/

/-- The command was queued at a prompt of the shell, and the output searched
since then is what came after it. -/
structure Commanded (monitor : Bool) (command : Str) (s : Session) (text : Bytes) (t : Session) :
    Prop where
  text_eq : ∃ line, encodeLatin1 command = .ok line ∧ text = line ++ bytes "\r"
  before : Since [] false s
  monitor_eq : s.machine.monitor = monitor
  markers : ∀ marker ∈ [PROMPT, USER], marker <:+: window s.console
  since : Since (s.typed ++ [(s.console.length, text)]) s.machine.booted t
  console : s.console <+: t.console
  watches : Watches s.console.length t

/-- Being commanded is kept by pumping and by hearing. -/
theorem closed_commanded [Seconds] (monitor : Bool) (command : Str) (s : Session) (text : Bytes) :
    Closed (Commanded monitor command s text) where
  pump _ now h := ⟨h.text_eq, h.before, h.monitor_eq, h.markers, h.since.pump now, h.console,
    h.watches.pump now⟩
  note _ data h := ⟨h.text_eq, h.before, h.monitor_eq, h.markers, h.since.note data,
    h.console.trans (List.prefix_append _ data), h.watches.note data⟩

/-- Where `run_exec` stands: it waits for the prompt, or has queued the command. -/
structure Running [Seconds] (monitor : Bool) (command : Str) (e : Exec) : Prop where
  orderly : Orderly e.session
  monitor_eq : e.session.machine.monitor = monitor
  stands : e.typed = false ∧ Since [] false e.session ∧ Watches 0 e.session ∨
    e.typed = true ∧ ∃ s text, Commanded monitor command s text e.session

/-- The output and the typing at the head of a pass. -/
theorem Running.hears [Seconds] (h : Running monitor command e) (now : ℚ) (r : Recv) :
    Running monitor command { e with session := hear (e.session.pump now) r } := by
  have hkeeps : ∀ {P : Session → Prop}, Closed P → P e.session →
      P (hear (e.session.pump now) r) :=
    fun hP h0 => hear_keeps hP (hP.pump _ now h0) r
  refine ⟨hkeeps closed_orderly h.orderly, hkeeps (closed_monitor monitor) h.monitor_eq, ?_⟩
  rcases h.stands with ⟨hno, hsince, hwatch⟩ | ⟨hyes, s, text, hc⟩
  · exact Or.inl ⟨hno, hkeeps (closed_since [] false) hsince, hkeeps (closed_watches 0) hwatch⟩
  · exact Or.inr ⟨hyes, s, text, hkeeps (closed_commanded _ _ _ _) hc⟩

/-- The command is queued at the prompt. -/
theorem Running.types [Seconds] {line : Bytes} {done : ℚ} (h : Running monitor command e)
    (hno : e.typed = false) (hprompt : e.session.machine.saw PROMPT = true)
    (huser : e.session.machine.saw USER = true) (hline : encodeLatin1 command = .ok line) :
    Running monitor command
      ⟨(e.session.type (line ++ bytes "\r")).clear, true, done⟩ := by
  refine ⟨(h.orderly.type _).clear, h.monitor_eq,
    Or.inr ⟨rfl, e.session, line ++ bytes "\r", ?_⟩⟩
  rcases h.stands with ⟨_, hsince, hwatch⟩ | ⟨hyes, _⟩
  · refine ⟨⟨line, hline, rfl⟩, hsince, h.monitor_eq, ?_, Or.inl ⟨rfl, rfl⟩, List.prefix_rfl,
      watches_clear (e.session.type _)⟩
    have hsaw : ∀ marker, e.session.machine.saw marker = true ↔
        marker <:+: window e.session.console := fun _ => hwatch.saw
    simp only [List.forall_mem_cons, ← hsaw]
    exact ⟨hprompt, huser, fun _ h => absurd h List.not_mem_nil⟩
  · rw [hno] at hyes
    cases hyes

/-- What is known where the loop is left because the prompt is back. -/
def Returned (e : Exec) : Prop :=
  e.typed = true ∧ e.session.machine.pending = [] ∧ e.session.machine.saw PROMPT = true

/-- A pass keeps the command running, and a prompt that ends it has returned. -/
theorem Running.pass [Seconds] {l : Option Left} (h : Running monitor command e)
    (hp : e.pass command p = .ok (e', l)) :
    Running monitor command e' ∧ (l = some .prompt → Returned e') := by
  have hhears := h.hears p.now p.recv
  unfold Exec.pass at hp
  obtain ⟨e₁, hfirst, hp⟩ := bind_eq_ok.mp hp
  have hrun : Running monitor command e₁ := by
    unfold Exec.prompted at hfirst
    split_ifs at hfirst with hc
    · obtain ⟨line, hline, hfirst⟩ := bind_eq_ok.mp hfirst
      obtain rfl := Except.ok.inj hfirst
      exact hhears.types hc.1 hc.2.1 hc.2.2 hline
    · obtain rfl := Except.ok.inj hfirst
      exact hhears
  split_ifs at hp with hlate hback
  · obtain ⟨rfl, rfl⟩ := Prod.mk.inj (Except.ok.inj hp)
    exact ⟨hrun, nofun⟩
  · obtain ⟨rfl, rfl⟩ := Prod.mk.inj (Except.ok.inj hp)
    exact ⟨hrun, fun _ => ⟨hback.1, hback.2.2.1, hback.2.1⟩⟩
  · obtain ⟨rfl, rfl⟩ := Prod.mk.inj (Except.ok.inj hp)
    exact ⟨hrun, nofun⟩

/-- The loop keeps the command running until it returns. -/
theorem execLoop_running [Seconds] (h0 : Running monitor command e)
    (h : execLoop command deadline e ps = some (.ok (e', left, rest))) :
    Running monitor command e' ∧ (left = .prompt → Returned e') := by
  induction ps generalizing e with
  | nil => cases h
  | cons p ps ih =>
    unfold execLoop at h
    split_ifs at h with hc
    · split at h
      · cases h
      · next e₁ l hp =>
        cases h
        obtain ⟨hrun, hback⟩ := h0.pass hp
        exact ⟨hrun, fun hl => hback (congrArg some hl)⟩
      · next e₁ hp =>
        exact ih (h0.pass hp).1 h
    · cases h
      exact ⟨h0, nofun⟩

/-- A session that runs one command types it once, at a prompt of the shell and
before the sync, and returns 0 exactly when it has queued it; when it is left
because the prompt is back, the whole command has been handed over and the
prompt has come after it. -/
theorem exec_outcome [Seconds] {timeout : ℚ} {r : Readings} {o : Outcome}
    (h : run_exec timeout r (Session.init monitor) command ps = some (.ok (o, left))) :
    Orderly o.session ∧
      (o.code = 1 ∧ left ≠ .prompt ∧ Script monitor none o.session.texts ∨
        o.code = 0 ∧ ∃ line n, encodeLatin1 command = .ok line ∧
          Script monitor (some (line ++ bytes "\r")) o.session.texts ∧
          (n, line ++ bytes "\r") ∈ o.session.typed ∧
          (∀ marker ∈ [PROMPT, USER], marker <:+: window (o.session.console.take n)) ∧
          (left = .prompt → o.session.texts.dropLast.flatten <+: o.session.handed ∧
            PROMPT <:+: window (o.session.console.drop n))) := by
  unfold run_exec at h
  obtain ⟨x, hloop, h⟩ := Option.bind_eq_some_iff.mp h
  cases x with
  | error f => cases h
  | ok x =>
    obtain ⟨e, l, rest⟩ := x
    obtain ⟨t, hsync, h⟩ := Option.bind_eq_some_iff.mp h
    cases h
    have hstart : Running monitor command ⟨Session.init monitor, false, later r.second timeout⟩ :=
      ⟨orderly_init monitor, rfl, Or.inl ⟨rfl, Or.inl ⟨rfl, rfl⟩, watches_init monitor⟩⟩
    obtain ⟨hrun, hback⟩ := execLoop_running hstart hloop
    obtain ⟨htyped, hconsole, ho, hhanded⟩ := sync_effect hsync
    refine ⟨ho hrun.orderly, ?_⟩
    rcases hrun.stands with ⟨hno, hsince, _⟩ | ⟨hyes, s, text, hc⟩
    · refine Or.inl ⟨by simp [hno], fun hl => ?_, Since.script_without hsince hrun.monitor_eq htyped⟩
      rw [(hback hl).1] at hno
      cases hno
    · obtain ⟨line, hline, rfl⟩ := hc.text_eq
      have htake : t.console.take s.console.length = s.console := by
        rw [hconsole]
        exact (List.prefix_iff_eq_take.mp hc.console).symm
      have hmem : (s.console.length, line ++ bytes "\r") ∈ e.session.typed := by
        rcases hc.since with ⟨hq, _⟩ | ⟨_, _, _, j, hq⟩ <;> rw [hq] <;> simp
      refine Or.inr ⟨by simp [hyes], line, s.console.length, hline,
        Since.script hc.before hc.monitor_eq hc.since hrun.monitor_eq htyped, ?_, ?_, fun hl => ?_⟩
      · rw [htyped]
        exact List.mem_append_left _ hmem
      · rw [htake]
        exact hc.markers
      · obtain ⟨_, hempty, hsaw⟩ := hback hl
        have hfifo := hrun.orderly.fifo
        rw [hempty, List.append_nil] at hfifo
        have hlast : t.texts.dropLast = e.session.texts := by
          unfold Session.texts
          rw [htyped, List.map_append, List.map_singleton, List.dropLast_concat]
        refine ⟨by rw [hlast, ← hfifo]; exact hhanded, ?_⟩
        rw [hconsole]
        exact hc.watches.saw.mp hsaw

/-- A shell that takes a command of two letters, and is shut down late. -/
def quickCommand : List Pass :=
  [⟨0, true, 0, .data (bytes "SINGLE USER MODE # "), 0, 0⟩, ⟨0, true, 1, .again, 0, 0⟩,
    ⟨0, true, 2, .again, 0, 0⟩, ⟨0, true, 3, .data (bytes "a\r\n# "), 0, 0⟩,
    ⟨9, true, 4, .again, 0, 0⟩]

section

open ExactSeconds

/-- The outcome of a command that comes back to the prompt. -/
theorem exec_outcome_quick :
    ∃ o left, run_exec 420 ⟨0, 0, false, 0⟩ (Session.init false) (str "ls") quickCommand =
        some (.ok (o, left)) ∧ Orderly o.session ∧
      (o.code = 1 ∧ left ≠ .prompt ∧ Script false none o.session.texts ∨
        o.code = 0 ∧ ∃ line n, encodeLatin1 (str "ls") = .ok line ∧
          Script false (some (line ++ bytes "\r")) o.session.texts ∧
          (n, line ++ bytes "\r") ∈ o.session.typed ∧
          (∀ marker ∈ [PROMPT, USER], marker <:+: window (o.session.console.take n)) ∧
          (left = .prompt → o.session.texts.dropLast.flatten <+: o.session.handed ∧
            PROMPT <:+: window (o.session.console.drop n))) := by
  have hok : (run_exec 420 ⟨0, 0, false, 0⟩ (Session.init false) (str "ls") quickCommand).any
      Except.isOk = true := by decide +kernel
  obtain ⟨x, hx, hisok⟩ := (Option.any_eq_true _ _).mp hok
  obtain ⟨⟨o, left⟩, rfl⟩ := exists_of_isOk hisok
  exact ⟨o, left, hx, exec_outcome hx⟩

end

end Sys16.BootSession
