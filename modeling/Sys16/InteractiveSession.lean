import Sys16.BootSession
import Sys16.EscapeInput

/-!
# The session that a user types at

`run_interactive` of `pack/genixterm.py` with its loop, its three ways out and
what it does to the terminal and to the emulator. However it is left, the
terminal is as it was before, the emulator has been stopped once, and every
byte of the console has been shown; what was typed at the machine is what the
user typed, the boot command and the sync.
-/

namespace Sys16.InteractiveSession

open PyText PyStruct GenixTerm SyncDeadline EscapeInput TypingSession BootSession

/-- A file that `select` finds ready, with what is read from it. -/
inductive Ready where
  | terminal (data : Bytes)
  | console (recv : Recv)
  deriving DecidableEq, Repr

/-- What one pass of the loop reads. -/
structure Turn where
  /-- `proc.poll() is None`. -/
  alive : Bool
  /-- The clock, for `pump_keys`. -/
  now : ℚ
  ready : List Ready
  deriving DecidableEq, Repr

/-- What a session does besides typing at the machine. -/
inductive Effect where
  /-- `tty.setraw`. -/
  | raw
  /-- `termios.tcsetattr` with the attributes that were saved. -/
  | restore
  /-- A text on standard output. -/
  | say (text : Str)
  /-- `os.write` of console output to the terminal. -/
  | write (data : Bytes)
  /-- The file that asks the emulator to stop. -/
  | ask
  | kill
  /-- A text on standard error. -/
  | complain (text : Str)
  /-- The socket, the listener and the log are closed. -/
  | close
  deriving DecidableEq, Repr

/-- The state of `run_interactive`. -/
structure Interactive where
  session : Session
  escape : Bool
  /-- `poll` or `wait` has seen the end of the emulator, and will say so again. -/
  ended : Bool
  effects : List Effect
  /-- The input handled, not in the source. -/
  input : Bytes
  /-- The bytes that the input loop has queued, not in the source. -/
  keys : Bytes
  deriving DecidableEq, Repr

/-! ## The parts -/

/-- One more effect. -/
def Interactive.effect (x : Interactive) (e : Effect) : Interactive :=
  { x with effects := x.effects ++ [e] }

/-- `proc.poll() is None`, with what a process that has not been seen to end says. -/
def Interactive.poll (x : Interactive) (alive : Bool) : Interactive × Bool :=
  if x.ended then (x, false) else ({ x with ended := !alive }, alive)

/-- The state for the loop over the bytes of a read. -/
def Interactive.term (x : Interactive) : Term :=
  ⟨x.session.machine, x.escape, x.input, x.keys, x.session.handed⟩

/-- What that loop leaves: the bytes it has appended are queued. -/
def Interactive.take (x : Interactive) (t : Term) : Interactive :=
  { x with
    session := x.session.type (t.typed.drop x.keys.length)
    escape := t.escape
    input := t.input
    keys := t.typed }

/-- The console data of a pass: a failed `recv` counts as a closed socket. -/
def received : Recv → Bytes
  | .data d => d
  | .again => []
  | .failed => []

/-- The body of the loop over the files that are ready. -/
def Interactive.serve (x : Interactive) : Ready → Interactive × Option Leave
  | .terminal data =>
    if data = [] then (x, some .interrupt)
    else (x.take (x.term.feed data).1, (x.term.feed data).2)
  | .console recv =>
    if received recv = [] then (x, some .interrupt)
    else (Interactive.effect { x with session := x.session.note (received recv) }
      (.write (received recv)), none)

/-- The loop over the files that are ready, up to where the session is left. -/
def Interactive.serveAll (x : Interactive) : List Ready → Interactive × Option Leave
  | [] => (x, none)
  | f :: ready =>
    match x.serve f with
    | (x, some leave) => (x, some leave)
    | (x, none) => Interactive.serveAll x ready

/-- The loop of `run_interactive`, with how it is left; its condition fails when
the emulator has ended. -/
def inputLoop [Seconds] : Interactive → List Turn → Option (Interactive × Option Leave)
  | _, [] => none
  | x, p :: turns =>
    match x.poll p.alive with
    | (x, false) => some (x, none)
    | (x, true) =>
      match Interactive.serveAll { x with session := x.session.pump p.now } p.ready with
      | (x, some leave) => some (x, some leave)
      | (x, none) => inputLoop x turns

/-- What `Machine.stop` reads. -/
structure Stopping where
  /-- `proc.poll() is None`. -/
  alive : Bool
  /-- The file that asks can be made. -/
  made : Bool
  /-- The emulator ends within the time it is given. -/
  ends : Bool
  deriving DecidableEq, Repr

def KILLED : Str := str ("\r\nthe emulator did not stop when asked and had to be " ++
  "killed.\r\nthe disk may be damaged; if the next boot " ++
  "misbehaves, run ./run-linux.sh --reset\r\n")

/-- The wait of `Machine.stop` for the emulator that it has asked. -/
def Interactive.reap (x : Interactive) (ends : Bool) : Interactive :=
  if ends then { x with ended := true }
  else ({ x with ended := true }.effect .kill).effect (.complain KILLED)

/-- `Machine.stop`. -/
def Interactive.stop (x : Interactive) (r : Stopping) : Interactive :=
  match x.poll r.alive with
  | (x, false) => x.effect .close
  | (x, true) => ((if r.made then x.effect .ask else x).reap r.ends).effect .close

/-! ## The whole session -/

def GREETING : Str := str "\r\nBooting GENIX.  Ctrl-] then q to sync and shut down.\r\n"
def SYNCING : Str := str "\r\nsyncing the disk and shutting down...\n"
def HALTING : Str := str "\r\nshutting down without syncing...\n"
def STOPPED : Str := str "the machine has stopped.\n"

/-- The readings that are taken outside the loop. -/
structure Closing where
  /-- The clock, when `sync_and_stop` is entered. -/
  entered : ℚ
  /-- Those of its loop. -/
  quiet : List Pass
  /-- Those of the call of `stop` for `q` or `x`. -/
  first : Stopping
  /-- Those of the call of `stop` at the end of every session. -/
  last : Stopping
  deriving DecidableEq, Repr

/-- The terminal, as it was. -/
def Interactive.restored (x : Interactive) (text : Str) : Interactive :=
  (x.effect .restore).effect (.say text)

/-- What the loop does before it is left for good. -/
def Interactive.leave [Seconds] (r : Closing) (x : Interactive) : Option Leave → Option Interactive
  | some .sync => do
    let x := x.restored SYNCING
    let s ← sync_and_stop x.session r.entered r.quiet
    return (Interactive.stop { x with session := s } r.first).effect (.say STOPPED)
  | some .stop => some (((x.restored HALTING).stop r.first).effect (.say STOPPED))
  | some .interrupt => some x
  | none => some x

/-- The text after the `finally` clause, which is skipped by a `return`. -/
def farewell : Option Leave → List Effect
  | some .sync => []
  | some .stop => []
  | some .interrupt => [.say (str "\r\n" ++ STOPPED)]
  | none => [.say (str "\r\n" ++ STOPPED)]

/-- `run_interactive`, with how its loop is left. It returns 0 in any case. -/
def run_interactive [Seconds] (r : Closing) (s : Session) (turns : List Turn) :
    Option (Interactive × Option Leave) := do
  let x : Interactive := ⟨s, false, false, [.say GREETING, .raw], [], []⟩
  let (x, leave) ← inputLoop x turns
  let x ← x.leave r leave
  let x := (x.effect .restore).stop r.last
  return ({ x with effects := x.effects ++ farewell leave }, leave)

variable {x y : Interactive} {t t' : Term} {leave : Option Leave} {turns : List Turn} {f : Ready}
  {ready : List Ready} {monitor : Bool} {data : Bytes} {b : UInt8} {es : List Event} {r : Closing}

/-! ## The loop and its events -/

/-- A file that is ready, as an event. -/
def Ready.event : Ready → Event
  | .terminal data => .read data
  | .console recv => .console (received recv)

/-- The events of a session, up to the end of the emulator. -/
def events : List Turn → List Event
  | [] => []
  | p :: turns =>
    if p.alive then .pump p.now :: (p.ready.map Ready.event ++ events turns) else []

/-- A byte of input queues what the loop has typed for it. -/
theorem byte_queues (t : Term) (b : UInt8) : ∃ w, (t.byte b).1.typed = t.typed ++ w ∧
    (t.byte b).1.machine = t.machine.type w ∧ (t.byte b).1.sent = t.sent := by
  have hnone : t.machine = t.machine.type [] := by
    unfold Machine.type
    rw [List.append_nil]
  unfold Term.byte
  dsimp only
  split_ifs
  · exact ⟨[], (List.append_nil _).symm, hnone, rfl⟩
  · exact ⟨[], (List.append_nil _).symm, hnone, rfl⟩
  · exact ⟨[0x1d], rfl, rfl, rfl⟩
  · exact ⟨[], (List.append_nil _).symm, hnone, rfl⟩
  · exact ⟨[b], rfl, rfl, rfl⟩

/-- Two texts that are queued are queued as one. -/
theorem type_type (m : Machine) (v w : Bytes) : (m.type v).type w = m.type (v ++ w) := by
  unfold Machine.type
  rw [List.append_assoc]

/-- A read queues what its bytes have typed, and hands nothing over. -/
theorem feed_queues (t : Term) (data : Bytes) : ∃ w, (t.feed data).1.typed = t.typed ++ w ∧
    (t.feed data).1.machine = t.machine.type w ∧ (t.feed data).1.sent = t.sent := by
  induction data generalizing t with
  | nil =>
    refine ⟨[], (List.append_nil _).symm, ?_, rfl⟩
    unfold Machine.type
    rw [List.append_nil]
    rfl
  | cons b data ih =>
    obtain ⟨v, htyped, hmachine, hsent⟩ := byte_queues t b
    cases hb : t.byte b with
    | mk t₁ out =>
      rw [hb] at htyped hmachine hsent
      cases out with
      | some l =>
        rw [feed_stop hb]
        exact ⟨v, htyped, hmachine, hsent⟩
      | none =>
        rw [feed_next hb]
        obtain ⟨w, htyped', hmachine', hsent'⟩ := ih t₁
        refine ⟨v ++ w, ?_, ?_, hsent'.trans hsent⟩
        · rw [htyped', htyped, List.append_assoc]
        · rw [hmachine', hmachine, type_type]

/-- The state after a read is the one its loop leaves. -/
theorem take_term (x : Interactive) (data : Bytes) :
    (x.take (x.term.feed data).1).term = (x.term.feed data).1 := by
  obtain ⟨w, htyped, hmachine, hsent⟩ := feed_queues x.term data
  have hdrop : (x.term.feed data).1.typed.drop x.keys.length = w := by
    rw [htyped]
    exact List.drop_left
  unfold Interactive.take
  rw [hdrop]
  unfold Interactive.term
  have hm : (x.session.type w).machine = x.session.machine.type w := rfl
  dsimp only
  rw [hm]
  exact Term.mk.injEq .. |>.mpr ⟨hmachine.symm, rfl, rfl, rfl, hsent.symm⟩

/-- Serving a file is the step for its event. -/
theorem serve_term [Seconds] (x : Interactive) (f : Ready) :
    ((x.serve f).1.term, (x.serve f).2) = x.term.step f.event := by
  cases f with
  | terminal data =>
    unfold Interactive.serve Ready.event Term.step
    dsimp only
    split_ifs
    · rfl
    · exact Prod.ext (take_term x data) rfl
  | console recv =>
    unfold Interactive.serve Ready.event Term.step
    dsimp only
    split_ifs
    · rfl
    · rfl

/-- Handing a byte over is the step for a call of `pump_keys`. -/
theorem pump_term [Seconds] (x : Interactive) (now : ℚ) :
    (Interactive.term { x with session := x.session.pump now }, none) =
      x.term.step (.pump now) := by
  have hsent : (x.session.pump now).handed =
      x.session.handed ++ (x.session.machine.pump_keys now).2.toList := by
    unfold Session.handed Session.pump
    rw [List.map_append, List.map_map]
    exact congrArg (_ ++ ·) (List.map_id _)
  refine Prod.ext ?_ rfl
  unfold Interactive.term Term.step
  dsimp only
  rw [hsent]
  rfl

/-- A pass that is not left goes on to the events after it. -/
theorem serveAll_next [Seconds] (h : x.serveAll ready = (y, none)) (es : List Event) :
    x.term.run (ready.map Ready.event ++ es) = y.term.run es := by
  induction ready generalizing x with
  | nil =>
    cases h
    rfl
  | cons f ready ih =>
    have hstep := serve_term x f
    unfold Interactive.serveAll at h
    cases hf : x.serve f with
    | mk z out =>
      rw [hf] at hstep h
      cases out with
      | some l => cases h
      | none =>
        rw [List.map_cons, List.cons_append, run_next hstep.symm]
        exact ih h

/-- A pass that is left leaves the events after it. -/
theorem serveAll_stop [Seconds] {l : Leave} (h : x.serveAll ready = (y, some l)) (es : List Event) :
    x.term.run (ready.map Ready.event ++ es) = (y.term, some l) := by
  induction ready generalizing x with
  | nil => cases h
  | cons f ready ih =>
    have hstep := serve_term x f
    unfold Interactive.serveAll at h
    cases hf : x.serve f with
    | mk z out =>
      rw [hf] at hstep h
      cases out with
      | some l' =>
        cases h
        exact run_stop hstep.symm _
      | none =>
        rw [List.map_cons, List.cons_append, run_next hstep.symm]
        exact ih h

/-- Serving a file does not look at the emulator. -/
theorem serve_ended (x : Interactive) (f : Ready) : (x.serve f).1.ended = x.ended := by
  cases f with
  | terminal data =>
    unfold Interactive.serve
    dsimp only
    split_ifs
    · rfl
    · rfl
  | console recv =>
    unfold Interactive.serve
    dsimp only
    split_ifs
    · rfl
    · rfl

/-- Nor does serving all that are ready. -/
theorem serveAll_ended {out : Option Leave} (h : x.serveAll ready = (y, out)) :
    y.ended = x.ended := by
  induction ready generalizing x with
  | nil =>
    cases h
    rfl
  | cons f ready ih =>
    have hone := serve_ended x f
    unfold Interactive.serveAll at h
    cases hf : x.serve f with
    | mk z out' =>
      rw [hf] at hone h
      cases out' with
      | some l =>
        cases h
        exact hone
      | none => exact (ih h).trans hone

/-- The loop is the run of its events, and its condition fails where the
emulator has ended. -/
theorem inputLoop_term [Seconds] (hx : x.ended = false) (h : inputLoop x turns = some (y, leave)) :
    x.term.run (events turns) = (y.term, leave) := by
  induction turns generalizing x with
  | nil => cases h
  | cons p turns ih =>
    unfold inputLoop Interactive.poll at h
    rw [hx, if_neg Bool.false_ne_true] at h
    unfold events
    cases hp : p.alive with
    | false =>
      rw [hp] at h
      cases h
      rfl
    | true =>
      rw [hp] at h
      rw [if_pos rfl, run_next (pump_term x p.now).symm]
      dsimp only at h
      split at h
      · next z l hz =>
        cases h
        exact serveAll_stop hz _
      · next z hz =>
        exact (serveAll_next hz (events turns)).trans (ih (serveAll_ended hz) h)

/-! ## What the loop keeps -/

/-- A condition that each part of the loop keeps. -/
structure Kept [Seconds] (Q : Interactive → Prop) : Prop where
  poll : ∀ x alive, Q x → Q (x.poll alive).1
  pump : ∀ x : Interactive, ∀ now, Q x → Q { x with session := x.session.pump now }
  take : ∀ x data, Q x → Q (x.take (x.term.feed data).1)
  write : ∀ x : Interactive, ∀ data, Q x →
    Q (Interactive.effect { x with session := x.session.note data } (.write data))

variable {Q : Interactive → Prop}

/-- Serving a file keeps what each part of the loop keeps. -/
theorem serve_keeps [Seconds] (hQ : Kept Q) (hx : Q x) (f : Ready) : Q (x.serve f).1 := by
  cases f with
  | terminal data =>
    unfold Interactive.serve
    dsimp only
    split_ifs
    · exact hx
    · exact hQ.take x data hx
  | console recv =>
    unfold Interactive.serve
    dsimp only
    split_ifs
    · exact hx
    · exact hQ.write x (received recv) hx

/-- So does serving all that are ready, up to where the session is left. -/
theorem serveAll_keeps [Seconds] (hQ : Kept Q) (hx : Q x) (ready : List Ready) :
    Q (x.serveAll ready).1 := by
  induction ready generalizing x with
  | nil => exact hx
  | cons f ready ih =>
    have hone := serve_keeps hQ hx f
    unfold Interactive.serveAll
    cases hf : x.serve f with
    | mk z out =>
      rw [hf] at hone
      cases out with
      | some l => exact hone
      | none => exact ih hone

/-- And so does the loop, however it is left. -/
theorem inputLoop_keeps [Seconds] (hQ : Kept Q) (hx : Q x) (h : inputLoop x turns = some (y, leave)) :
    Q y := by
  induction turns generalizing x with
  | nil => cases h
  | cons p turns ih =>
    have hpoll := hQ.poll x p.alive hx
    unfold inputLoop at h
    split at h
    · next z hz =>
      cases h
      rw [hz] at hpoll
      exact hpoll
    · next z hz =>
      rw [hz] at hpoll
      have hserve := serveAll_keeps hQ (hQ.pump z p.now hpoll) p.ready
      split at h
      · next u l hu =>
        cases h
        rw [hu] at hserve
        exact hserve
      · next u hu =>
        rw [hu] at hserve
        exact ih hserve h

/-- Looking at the emulator does nothing else. -/
theorem poll_same (x : Interactive) (alive : Bool) : (x.poll alive).1.session = x.session ∧
    (x.poll alive).1.effects = x.effects ∧ (x.poll alive).1.keys = x.keys := by
  unfold Interactive.poll
  split_ifs
  · exact ⟨rfl, rfl, rfl⟩
  · exact ⟨rfl, rfl, rfl⟩

/-- What the loop has typed: the user's bytes in order, and the boot command
once at most, unless the machine is held in the monitor. -/
structure Keyed (monitor : Bool) (x : Interactive) : Prop where
  monitor_eq : x.session.machine.monitor = monitor
  unheld : x.session.machine.booted = true → monitor = false
  texts : ∃ before after, x.keys = before ++ after ∧ x.session.texts.flatten =
    before ++ (if x.session.machine.booted then BOOT else []) ++ after

/-- A session while it is served: its typing is in order, and all of the
console has been shown on the raw terminal. -/
structure Serving [Seconds] (monitor : Bool) (x : Interactive) : Prop where
  orderly : Orderly x.session
  keyed : Keyed monitor x
  shown : ∃ output : List Bytes, x.effects = [.say GREETING, .raw] ++ output.map .write ∧
    output.flatten = x.session.console

/-- Input is queued behind what is there, and nothing is shown for it. -/
theorem Serving.take [Seconds] (h : Serving monitor x) (data : Bytes) :
    Serving monitor (x.take (x.term.feed data).1) := by
  obtain ⟨w, htyped, _, _⟩ := feed_queues x.term data
  have hkeys : (x.term.feed data).1.typed = x.keys ++ w := htyped
  have htake : x.take (x.term.feed data).1 =
      { x with
        session := x.session.type w
        escape := (x.term.feed data).1.escape
        input := (x.term.feed data).1.input
        keys := x.keys ++ w } := by
    unfold Interactive.take
    rw [hkeys, List.drop_left]
  obtain ⟨before, after, hsplit, htexts⟩ := h.keyed.texts
  rw [htake]
  refine ⟨h.orderly.type w, ⟨h.keyed.monitor_eq, h.keyed.unheld, before, after ++ w, ?_, ?_⟩,
    h.shown⟩
  · dsimp only
    rw [hsplit, List.append_assoc]
  · have hadd : (x.session.type w).texts.flatten = x.session.texts.flatten ++ w := by
      unfold Session.texts Session.type
      simp
    dsimp only
    rw [hadd, htexts, List.append_assoc]
    rfl

/-- Output puts the boot command between the keys at most, and that once. -/
theorem Keyed.note (h : Keyed monitor x) (data : Bytes) (e : Effect) :
    Keyed monitor (Interactive.effect { x with session := x.session.note data } e) := by
  obtain ⟨before, after, hsplit, htexts⟩ := h.texts
  obtain ⟨_, _, hmonitor, ⟨hbooted, _⟩ | ⟨hmon, hboot, _, hbooted, _⟩⟩ :=
    note_effect x.session.machine data
  · have hsame : (x.session.note data).texts = x.session.texts := by
      unfold Session.texts Session.note
      dsimp only
      rw [if_neg (not_not.mpr hbooted)]
    have hbooted' : (x.session.note data).machine.booted = x.session.machine.booted := hbooted
    refine ⟨hmonitor.trans h.monitor_eq, fun hb => h.unheld (hbooted.symm.trans hb), before, after,
      hsplit, ?_⟩
    change (x.session.note data).texts.flatten =
      before ++ (if (x.session.note data).machine.booted then _ else _) ++ after
    rw [hsame, hbooted', htexts]
  · have hadd : (x.session.note data).texts = x.session.texts ++ [BOOT] := by
      unfold Session.texts Session.note
      dsimp only
      rw [if_pos (by rw [hbooted, hboot]; decide), List.map_append]
      rfl
    have hbooted' : (x.session.note data).machine.booted = true := hbooted
    refine ⟨hmonitor.trans h.monitor_eq, fun _ => h.monitor_eq.symm.trans hmon, before ++ after, [],
      ?_, ?_⟩
    · exact hsplit.trans (List.append_nil _).symm
    · change (x.session.note data).texts.flatten =
        before ++ after ++ (if (x.session.note data).machine.booted then _ else _) ++ []
      rw [hadd, hbooted', if_pos rfl, List.flatten_append, htexts, hboot]
      simp

/-- Output is shown as it is noted. -/
theorem Serving.write [Seconds] (h : Serving monitor x) (data : Bytes) : Serving monitor
    (Interactive.effect { x with session := x.session.note data } (.write data)) := by
  refine ⟨h.orderly.note data, h.keyed.note data (.write data), ?_⟩
  obtain ⟨output, heffects, hall⟩ := h.shown
  refine ⟨output ++ [data], ?_, ?_⟩
  · change x.effects ++ [.write data] = _
    rw [heffects, List.map_append, List.append_assoc]
    rfl
  · rw [List.flatten_append, hall, List.flatten_singleton]
    rfl

/-- Each part of the loop serves the session. -/
theorem serving_kept [Seconds] (monitor : Bool) : Kept (Serving monitor) where
  poll x alive h := by
    obtain ⟨hsession, heffects, hkeys⟩ := poll_same x alive
    obtain ⟨hmonitor, hunheld, htexts⟩ := h.keyed
    exact ⟨by rw [hsession]; exact h.orderly,
      ⟨by rw [hsession]; exact hmonitor, by rw [hsession]; exact hunheld,
        by rw [hsession, hkeys]; exact htexts⟩,
      by rw [hsession, heffects]; exact h.shown⟩
  pump x now h := by
    obtain ⟨_, hbooted, hmonitor, _⟩ := pump_effect x.session.machine now
    have hbooted' : (x.session.pump now).machine.booted = x.session.machine.booted := hbooted
    refine ⟨h.orderly.pump now, ⟨hmonitor.trans h.keyed.monitor_eq,
      fun hb => h.keyed.unheld (hbooted.symm.trans hb), ?_⟩, h.shown⟩
    dsimp only
    rw [hbooted']
    exact h.keyed.texts
  take x data h := h.take data
  write x data h := h.write data

/-! ## The way out -/

/-- Effects after the loop: the terminal is not made raw again, and no output is
written to it but texts. -/
def Cooked (tail : List Effect) : Prop := ∀ e ∈ tail, e ≠ .raw ∧ ∀ data, e ≠ .write data

/-- Two parts without raw output have none together. -/
theorem Cooked.append {tail tail' : List Effect} (h : Cooked tail) (h' : Cooked tail') :
    Cooked (tail ++ tail') := fun e he => (List.mem_append.mp he).elim (h e) (h' e)

/-- A step of the shutdown: some texts, and the emulator asked to stop at most
once, not at all when it has ended before. -/
structure Shut (x y : Interactive) : Prop where
  tail : ∃ tail, y.effects = x.effects ++ tail ∧ Cooked tail ∧
    tail.count .ask + (if x.ended then 1 else 0) ≤ if y.ended then 1 else 0
  keys : y.keys = x.keys

/-- Doing nothing is a step of the shutdown. -/
theorem Shut.refl (x : Interactive) : Shut x x :=
  ⟨⟨[], (List.append_nil _).symm, fun _ he => absurd he List.not_mem_nil, (Nat.zero_add _).le⟩, rfl⟩

/-- Two steps ask once between them: the second finds an emulator that has ended. -/
theorem Shut.trans {z : Interactive} (h : Shut x y) (h' : Shut y z) : Shut x z := by
  obtain ⟨⟨tail, heffects, hcooked, hcount⟩, hkeys⟩ := h
  obtain ⟨⟨tail', heffects', hcooked', hcount'⟩, hkeys'⟩ := h'
  refine ⟨⟨tail ++ tail', ?_, hcooked.append hcooked', ?_⟩, hkeys'.trans hkeys⟩
  · rw [heffects', heffects, List.append_assoc]
  · rw [List.count_append]
    omega

/-- An effect that does not ask is a step of the shutdown. -/
theorem shut_effect (x : Interactive) {e : Effect} (hcooked : Cooked [e]) (hask : e ≠ .ask) :
    Shut x (x.effect e) := by
  refine ⟨⟨[e], rfl, hcooked, ?_⟩, rfl⟩
  rw [List.count_singleton, if_neg (by simpa using hask), Nat.zero_add]
  exact Nat.le_refl _

theorem shut_say (x : Interactive) (text : Str) : Shut x (x.effect (.say text)) :=
  shut_effect x (by simp [Cooked]) nofun

theorem shut_restore (x : Interactive) : Shut x (x.effect .restore) :=
  shut_effect x (by simp [Cooked]) nofun

theorem shut_close (x : Interactive) : Shut x (x.effect .close) :=
  shut_effect x (by simp [Cooked]) nofun

/-- The emulator is asked before it is waited for. -/
theorem shut_reap (x : Interactive) (made ends : Bool) (hx : x.ended = false) :
    Shut x ((if made then x.effect .ask else x).reap ends) := by
  refine ⟨⟨(if made then [.ask] else []) ++ if ends then [] else [.kill, .complain KILLED], ?_, ?_, ?_⟩,
    ?_⟩
  · cases made <;> cases ends <;> simp [Interactive.reap, Interactive.effect]
  · cases made <;> cases ends <;> simp [Cooked]
  · rw [hx]
    cases made <;> cases ends <;> simp [Interactive.reap, Interactive.effect]
  · cases made <;> cases ends <;> rfl

/-- `stop` leaves an emulator that has ended. -/
theorem stop_effect (x : Interactive) (r : Stopping) :
    Shut x (x.stop r) ∧ (x.stop r).ended = true ∧ (x.stop r).session = x.session := by
  unfold Interactive.stop Interactive.poll
  cases hx : x.ended with
  | true =>
    rw [if_pos rfl]
    exact ⟨shut_close x, hx, rfl⟩
  | false =>
    rw [if_neg Bool.false_ne_true]
    have hpoll : ∀ alive, Shut x { x with ended := !alive } := fun alive =>
      ⟨⟨[], (List.append_nil _).symm, fun _ he => absurd he List.not_mem_nil, by rw [hx]; simp⟩, rfl⟩
    cases r.alive with
    | false => exact ⟨(hpoll false).trans (shut_close _), rfl, rfl⟩
    | true =>
      have hreap := shut_reap { x with ended := !true } r.made r.ends rfl
      refine ⟨((hpoll true).trans hreap).trans (shut_close _), ?_, ?_⟩
      · cases r.made <;> cases r.ends <;> rfl
      · cases r.made <;> cases r.ends <;> rfl

/-- What the session types as it is left. -/
def parting (leave : Option Leave) : Bytes := if leave = some .sync then SYNC else []

/-- Whatever is done before the end, the terminal is restored first. -/
theorem leave_effect [Seconds] (h : x.leave r leave = some y) : (y = x ∨ Shut (x.effect .restore) y) ∧
    y.session.console = x.session.console ∧ (Orderly x.session → Orderly y.session) ∧
    y.session.texts.flatten = x.session.texts.flatten ++ parting leave := by
  have hrestored : ∀ text, Shut (x.effect .restore) (x.restored text) := fun text => shut_say _ text
  cases leave with
  | none =>
    obtain rfl := Option.some.inj h
    exact ⟨Or.inl rfl, rfl, id, (List.append_nil _).symm⟩
  | some l =>
    cases l with
    | interrupt =>
      obtain rfl := Option.some.inj h
      exact ⟨Or.inl rfl, rfl, id, (List.append_nil _).symm⟩
    | stop =>
      obtain rfl := Option.some.inj h
      obtain ⟨hstop, _, hsession⟩ := stop_effect (x.restored HALTING) r.first
      have hsame : ((((x.restored HALTING).stop r.first).effect (.say STOPPED)).session) =
          x.session := hsession
      refine ⟨Or.inr (((hrestored HALTING).trans hstop).trans (shut_say _ STOPPED)), ?_, ?_, ?_⟩
      · rw [hsame]
      · rw [hsame]
        exact id
      · rw [hsame]
        exact (List.append_nil _).symm
    | sync =>
      unfold Interactive.leave at h
      obtain ⟨s, hsync, h⟩ := Option.bind_eq_some_iff.mp h
      obtain rfl := Option.some.inj h
      obtain ⟨htyped, hconsole, horder, _⟩ := sync_effect hsync
      have htyping : Shut (x.restored SYNCING) { x.restored SYNCING with session := s } :=
        ⟨(Shut.refl (x.restored SYNCING)).tail, rfl⟩
      obtain ⟨hstop, _, hsession⟩ := stop_effect { x.restored SYNCING with session := s } r.first
      have hsame : (((Interactive.stop { x.restored SYNCING with session := s } r.first).effect
          (.say STOPPED)).session) = s := hsession
      refine ⟨Or.inr ((((hrestored SYNCING).trans htyping).trans hstop).trans (shut_say _ STOPPED)),
        ?_, ?_, ?_⟩
      · rw [hsame]
        exact hconsole
      · rw [hsame]
        exact horder
      · rw [hsame]
        unfold Session.texts
        rw [htyped, List.map_append, List.flatten_append]
        exact congrArg (_ ++ ·) (List.flatten_singleton (l := SYNC))

/-- A session's record at its end: the typing is in order, the console has been
shown on the raw terminal and nowhere else, the terminal has been restored for
good, and the emulator has ended, asked to at most once. -/
structure Over [Seconds] (x : Interactive) : Prop where
  orderly : Orderly x.session
  shown : ∃ (output : List Bytes) (tail : List Effect),
    x.effects = [.say GREETING, .raw] ++ output.map .write ++ .restore :: tail ∧
      output.flatten = x.session.console ∧ Cooked tail
  ended : x.ended = true
  asked : x.effects.count .ask ≤ 1

/-- The last text is no raw output and asks for nothing. -/
theorem farewell_cooked (leave : Option Leave) :
    Cooked (farewell leave) ∧ (farewell leave).count .ask = 0 := by
  rcases leave with _ | _ | _ | _ <;> simp [farewell, Cooked]

/-- What the end of every session adds to what was done before. -/
theorem Serving.over [Seconds] {z : Interactive} (h : Serving monitor y)
    (hz : z = y ∨ Shut (y.effect .restore) z) (hconsole : z.session.console = y.session.console) (horder : Orderly z.session)
    (leave : Option Leave) (last : Stopping) :
    Over { (z.effect .restore).stop last with
      effects := ((z.effect .restore).stop last).effects ++ farewell leave } ∧
      ((z.effect .restore).stop last).keys = y.keys := by
  obtain ⟨hstop, hended, hsession⟩ := stop_effect (z.effect .restore) last
  have hshut : Shut (y.effect .restore) ((z.effect .restore).stop last) := by
    rcases hz with rfl | hz
    · exact hstop
    · exact (hz.trans (shut_restore z)).trans hstop
  obtain ⟨tail, heffects, hcooked, hcount⟩ := hshut.tail
  obtain ⟨output, houtput, hall⟩ := h.shown
  obtain ⟨hcooked', hnone⟩ := farewell_cooked leave
  rw [hended, if_pos rfl] at hcount
  have hlist : ((z.effect .restore).stop last).effects ++ farewell leave =
      [.say GREETING, .raw] ++ output.map .write ++ .restore :: (tail ++ farewell leave) := by
    rw [heffects]
    unfold Interactive.effect
    rw [houtput]
    simp
  have hsame : ((z.effect .restore).stop last).session = z.session := hsession
  refine ⟨⟨?_, ⟨output, tail ++ farewell leave, hlist, ?_, hcooked.append hcooked'⟩, hended, ?_⟩,
    hshut.keys⟩
  · dsimp only
    rw [hsame]
    exact horder
  · dsimp only
    rw [hsame, hconsole]
    exact hall
  · have hwrites : (output.map Effect.write).count .ask = 0 :=
      List.count_eq_zero.mpr fun hmem => by
        obtain ⟨_, _, hask⟩ := List.mem_map.mp hmem
        cases hask
    have hfirst : [Effect.say GREETING, .raw].count .ask = 0 := by simp
    have hrest : (Effect.restore :: (tail ++ farewell leave)).count .ask = tail.count .ask := by
      rw [List.count_cons_of_ne (by decide), List.count_append, hnone, Nat.add_zero]
    dsimp only
    rw [hlist, List.count_append, List.count_append, hwrites, hfirst, hrest]
    omega

/-- What the input loop has queued, from the events of its session. -/
theorem keys_decoded [Seconds] (h : x.term.run es = (y.term, leave)) (hesc : x.escape = false)
    (hkeys : x.keys = []) :
    (∀ i l, QuitsFirst (inputs es) i l →
      leave = some l ∧ y.keys = decoded ((inputs es).take i)) ∧
    ((∀ i l, ¬Quits (inputs es) i l) →
      leave = (if closed es then some .interrupt else none) ∧ y.keys = decoded (inputs es)) := by
  obtain ⟨hout, hsame⟩ := run_same (Same.mk rfl rfl rfl : Same x.term x.term) es
  rw [h] at hout hsame
  have htyped : x.term.typed = [] := hkeys
  have hy : y.keys = (x.term.feed (inputs es)).1.typed := hsame.typed
  refine ⟨fun i l hquits => ?_, fun hnone => ?_⟩
  · obtain ⟨hleave, _, hfed⟩ := feed_quits (t := x.term) hesc hquits
    rw [hleave] at hout
    exact ⟨hout, by rw [hy, hfed, htyped, List.nil_append]⟩
  · obtain ⟨t', hfeed, hread⟩ := feed_reads (t := x.term) hesc hnone
    rw [hfeed] at hout hy
    exact ⟨hout, by rw [hy, hread.typed, htyped, List.nil_append]⟩

/-- However a session is left, it is over in order, and what has been typed is
the user's input up to the byte that leaves it, decoded and in order, with the
boot command in one place of it at most and the sync after it for `q` alone. It
is left at the first `q` or `x` behind an odd number of escape keys, or else
when the terminal or the console is closed or the emulator ends. -/
theorem interactive_outcome [Seconds]
    (h : run_interactive r (Session.init monitor) turns = some (x, leave)) :
    Over x ∧
    (∃ before boot after, x.keys = before ++ after ∧
      (boot = [] ∨ monitor = false ∧ boot = BOOT) ∧
      x.session.texts.flatten = before ++ boot ++ after ++ parting leave) ∧
    (∀ i l, QuitsFirst (inputs (events turns)) i l →
      leave = some l ∧ x.keys = decoded ((inputs (events turns)).take i)) ∧
    ((∀ i l, ¬Quits (inputs (events turns)) i l) →
      leave = (if closed (events turns) then some .interrupt else none) ∧
      x.keys = decoded (inputs (events turns))) := by
  unfold run_interactive at h
  obtain ⟨⟨y, l⟩, hloop, h⟩ := Option.bind_eq_some_iff.mp h
  obtain ⟨z, hleave, h⟩ := Option.bind_eq_some_iff.mp h
  cases h
  have hserving : Serving monitor y := by
    refine inputLoop_keeps (serving_kept monitor) ⟨orderly_init monitor,
      ⟨rfl, fun hb => absurd hb Bool.false_ne_true, [], [], rfl, rfl⟩, [], ?_, rfl⟩ hloop
    exact (List.append_nil _).symm
  obtain ⟨hz, hconsole, horder, htexts⟩ := leave_effect hleave
  obtain ⟨hover, hkeys⟩ := hserving.over hz hconsole (horder hserving.orderly) leave r.last
  have hsession := (stop_effect (z.effect .restore) r.last).2.2
  refine ⟨hover, ?_, ?_⟩
  · obtain ⟨before, after, hsplit, hflat⟩ := hserving.keyed.texts
    refine ⟨before, if y.session.machine.booted then BOOT else [], after, hkeys.trans hsplit, ?_, ?_⟩
    · cases hb : y.session.machine.booted with
      | false => exact Or.inl rfl
      | true => exact Or.inr ⟨hserving.keyed.unheld hb, rfl⟩
    · dsimp only
      rw [hsession]
      exact htexts.trans (by rw [hflat])
  · dsimp only
    rw [hkeys]
    exact keys_decoded (inputLoop_term rfl hloop) rfl rfl

/-- The monitor comes up, one letter is typed, and the session is left with `q`. -/
def letterThenQuit : List Turn :=
  [⟨true, 0, [.console (.data (bytes "\r*"))]⟩, ⟨true, 1, [.terminal (bytes "a")]⟩,
    ⟨true, 2, [.terminal [0x1d]]⟩, ⟨true, 3, [.terminal (bytes "qb")]⟩]

/-- A shutdown that is not given the time to type the sync. -/
def hurried : Closing := ⟨4, [⟨11, true, 11, .again, 0, 0⟩], ⟨true, true, true⟩, ⟨true, true, true⟩⟩

section

open ExactSeconds

/-- The session is over in order, with the boot command before the letter. -/
theorem interactive_outcome_quit :
    ∃ x, run_interactive hurried (Session.init false) letterThenQuit = some (x, some .sync) ∧
      Over x ∧ x.keys = bytes "a" ∧
      ∃ before boot after, x.keys = before ++ after ∧ (boot = [] ∨ false = false ∧ boot = BOOT) ∧
        x.session.texts.flatten = before ++ boot ++ after ++ parting (some .sync) := by
  have hrun : (run_interactive hurried (Session.init false) letterThenQuit).map
      (fun p => (p.1.keys, p.2)) = some (bytes "a", some .sync) := by decide +kernel
  obtain ⟨⟨x, leave⟩, hx, hp⟩ := Option.map_eq_some_iff.mp hrun
  obtain ⟨hkeys, rfl⟩ := Prod.mk.inj hp
  obtain ⟨hover, htyped, _⟩ := interactive_outcome hx
  exact ⟨x, hx, hover, hkeys, htyped⟩

end

end Sys16.InteractiveSession
