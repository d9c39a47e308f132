import Mathlib.Algebra.Order.Ring.Rat
import Mathlib.Data.List.Infix
import Mathlib.Order.Monotone.Basic
import Sys16.ByteStore
import Sys16.PyStruct

/-!
# The console of `pack/genixterm.py`

Class `Machine` without its sockets and processes: the queue of bytes still to
be typed, the window of console output that is searched for markers, and the
shutdown that types a sync first; and the input loop of `run_interactive`. Times
are numbers of seconds, and the sums that the code makes of them may round. A
call of `send` hands over one byte, which the socket accepts or refuses; the code
does not look at which.
-/

namespace Sys16.GenixTerm

open ByteStore PyText PyStruct

/-- The bytes of a literal. -/
def bytes (s : String) : Bytes := (str s).map UInt8.ofNat

def BANNER : Bytes := bytes "UNIX/2.0v1"
def PROMPT : Bytes := bytes "# "
def MONITOR : Bytes := bytes "\r*"

/-! ## The clock -/

/-- The program's sum of a reading of the clock and some seconds. It is one of
floats and may round, but a later reading never has an earlier sum. -/
class Seconds where
  later : ℚ → ℚ → ℚ
  later_mono : ∀ seconds, Monotone fun now => later now seconds

namespace ExactSeconds

/-- Sums that come out without rounding. -/
scoped instance exactSeconds : Seconds where
  later now seconds := now + seconds
  later_mono seconds _ _ h := add_le_add_left h seconds

end ExactSeconds

open Seconds

variable [Seconds]

/-- The typing and the output of a `Machine`. -/
structure Machine where
  /-- `args.monitor`. -/
  monitor : Bool
  /-- The last of the console output. -/
  seen : Bytes
  booted : Bool
  /-- Bytes still to type. -/
  pending : Bytes
  next_key : ℚ
  deriving DecidableEq, Repr

/-- `Machine.__init__`. -/
def Machine.init (monitor : Bool) : Machine := ⟨monitor, [], false, [], 0⟩

/-! ## Typing -/

/-- `Machine.type`. -/
def Machine.type (m : Machine) (text : Bytes) : Machine := { m with pending := m.pending ++ text }

/-- `Machine.pump_keys`, with the byte that it hands to `send`. -/
def Machine.pump_keys (m : Machine) (now : ℚ) : Machine × Option UInt8 :=
  match m.pending with
  | [] => (m, none)
  | ch :: rest =>
    if m.next_key ≤ now then ({ m with pending := rest, next_key := later now 0.12 }, some ch)
    else (m, none)

/-! ## Output -/

/-- `marker in seen`. -/
def occurs (marker : Bytes) : Bytes → Bool
  | [] => marker.isEmpty
  | b :: seen => marker.isPrefixOf (b :: seen) || occurs marker seen

/-- `del seen[:-4096]`. -/
def window (seen : Bytes) : Bytes := seen.drop (seen.length - 4096)

/-- `Machine.note`. -/
def Machine.note (m : Machine) (data : Bytes) : Machine :=
  let m := { m with seen := window (m.seen ++ data) }
  if m.booted = false ∧ m.monitor = false ∧ occurs MONITOR m.seen = true ∧ m.pending = [] then
    { m with booted := true }.type (bytes "k\r")
  else m

/-- `Machine.saw`. -/
def Machine.saw (m : Machine) (marker : Bytes) : Bool := occurs marker m.seen

/-! ## Shutting down -/

/-- A shutdown in progress, with the calls of `send` so far and the bytes that
the socket has accepted. -/
structure Shutdown where
  machine : Machine
  sends : ℕ
  accepted : Bytes
  deriving DecidableEq, Repr

/-- `pump_keys` in the loop, with whether each call of `send` is accepted. -/
def Shutdown.pump (s : Shutdown) (now : ℚ) (accepts : ℕ → Bool) : Shutdown :=
  match s.machine.pump_keys now with
  | (m, none) => { s with machine := m }
  | (m, some ch) =>
    ⟨m, s.sends + 1, if accepts s.sends then s.accepted ++ [ch] else s.accepted⟩

/-- The loop of `Machine.sync_and_stop` from a pass on, with fuel, up to where
it is left: the clock is read for the condition and again for `pump_keys`. The
console output that `drain` takes is thrown away. -/
def syncLoop (clock : ℕ → ℚ) (accepts : ℕ → Bool) (deadline : ℚ) :
    ℕ → ℕ → Shutdown → Option Shutdown
  | 0, _, _ => none
  | fuel + 1, i, s =>
    if s.machine.pending ≠ [] ∧ clock (2 * i + 1) < deadline then
      syncLoop clock accepts deadline fuel (i + 1) (s.pump (clock (2 * i + 2)) accepts)
    else some s

/-- `Machine.sync_and_stop` up to its call of `stop`, with the readings of the
clock in order. -/
def Machine.sync_and_stop (m : Machine) (clock : ℕ → ℚ) (accepts : ℕ → Bool) (fuel : ℕ) :
    Option Shutdown :=
  syncLoop clock accepts (later (clock 0) 6) fuel 0 ⟨m.type (bytes "\r/bin/sync\r"), 0, []⟩

/-! ## The input loop -/

/-- How `run_interactive` is left. -/
inductive Leave where
  /-- `q`: `sync_and_stop`. -/
  | sync
  /-- `x`: `stop`. -/
  | stop
  /-- An empty read from the terminal or the console. -/
  | interrupt
  deriving DecidableEq, Repr

/-- The state of `run_interactive`. The last three fields are not in the
source: the input handled, the bytes the input loop has queued, and those
handed to `send`. -/
structure Term where
  machine : Machine
  escape : Bool
  input : Bytes
  typed : Bytes
  sent : Bytes
  deriving DecidableEq, Repr

/-- `m.pending.append(b)` in the input loop. -/
def Term.append (t : Term) (b : UInt8) : Term :=
  { t with machine := t.machine.type [b], typed := t.typed ++ [b] }

/-- One pass of the loop over the bytes of a read. -/
def Term.byte (t : Term) (b : UInt8) : Term × Option Leave :=
  let t := { t with input := t.input ++ [b] }
  if t.escape then
    let t := { t with escape := false }
    if b = 0x71 ∨ b = 0x51 then (t, some .sync)
    else if b = 0x78 ∨ b = 0x58 then (t, some .stop)
    else (t.append 0x1d, none)
  else if b = 0x1d then ({ t with escape := true }, none)
  else (t.append b, none)

/-- The loop over the bytes of a read. -/
def Term.feed (t : Term) : Bytes → Term × Option Leave
  | [] => (t, none)
  | b :: data =>
    match t.byte b with
    | (t, some leave) => (t, some leave)
    | (t, none) => Term.feed t data

/-- What happens in `run_interactive`: the call of `pump_keys` at the head of
the loop, input, and console output. -/
inductive Event where
  | pump (now : ℚ)
  | read (data : Bytes)
  | console (data : Bytes)
  deriving DecidableEq, Repr

/-- The code for one event. -/
def Term.step (t : Term) : Event → Term × Option Leave
  | .pump now =>
    let (m, ch) := t.machine.pump_keys now
    ({ t with machine := m, sent := t.sent ++ ch.toList }, none)
  | .read data => if data = [] then (t, some .interrupt) else t.feed data
  | .console data =>
    if data = [] then (t, some .interrupt) else ({ t with machine := t.machine.note data }, none)

/-- `run_interactive` over events, up to where it is left. -/
def Term.run (t : Term) : List Event → Term × Option Leave
  | [] => (t, none)
  | e :: es =>
    match t.step e with
    | (t, some leave) => (t, some leave)
    | (t, none) => Term.run t es

end Sys16.GenixTerm
