import Mathlib.Order.Monotone.Basic
import Mathlib.Tactic.Linarith
import Sys16.GenixTerm

/-!
# The sync before a shutdown

`sync_and_stop` types the sync behind what is still queued, for six seconds at
most and with at least 0.12 seconds from one byte to the next, and a byte that
the socket refuses is gone. Everything gets out exactly when no send is refused
and the clock leaves time for as many passes as there are bytes.
-/

namespace Sys16.SyncDeadline

open PyStruct GenixTerm Seconds

variable {clock : ℕ → ℚ} {accepts : ℕ → Bool} {deadline key key' now : ℚ} {m : Machine}
  {s t : Shutdown} {n i j fuel : ℕ} {b : UInt8} {rest : Bytes}

section

variable [Seconds]

/-- What is typed for the sync. -/
def SYNC : Bytes := bytes "\r/bin/sync\r"

/-- The whole of the queue and the sync have been accepted, each byte once and
in order, when `stop` is called. -/
def GetsOut (clock : ℕ → ℚ) (accepts : ℕ → Bool) (m : Machine) : Prop :=
  ∃ fuel s, m.sync_and_stop clock accepts fuel = some s ∧ s.accepted = m.pending ++ SYNC

/-- The clock leaves time for a number of sends from a pass on: there are as
many passes, each begun before the deadline, the first of them not before a
given time and each of the others at least 0.12 seconds after the one before, as
the program adds them. -/
def InTime (clock : ℕ → ℚ) (deadline : ℚ) : ℕ → ℕ → ℚ → Prop
  | 0, _, _ => True
  | n + 1, i, key => ∃ p, i ≤ p ∧ clock (2 * p + 1) < deadline ∧ key ≤ clock (2 * p + 2) ∧
      InTime clock deadline n (p + 1) (later (clock (2 * p + 2)) 0.12)

/-- Starting earlier leaves no less time. -/
theorem InTime.earlier (h : InTime clock deadline n i key) (hij : j ≤ i) (hkey : key' ≤ key) :
    InTime clock deadline n j key' := by
  cases n with
  | zero => trivial
  | succ n =>
    obtain ⟨p, hp, hbefore, hafter, hrest⟩ := h
    exact ⟨p, hij.trans hp, hbefore, hkey.trans hafter, hrest⟩

/-! ## One pass -/

/-- A key that is not due leaves the session alone. -/
theorem pump_waits (h : ¬s.machine.next_key ≤ now) : s.pump now accepts = s := by
  unfold Shutdown.pump Machine.pump_keys
  cases hp : s.machine.pending with
  | nil => rfl
  | cons b rest =>
    dsimp only
    rw [if_neg h]

/-- The state after a byte has been handed to the socket. -/
def sent (s : Shutdown) (accepts : ℕ → Bool) (now : ℚ) (b : UInt8) (rest : Bytes) : Shutdown where
  machine := { s.machine with pending := rest, next_key := later now 0.12 }
  sends := s.sends + 1
  accepted := if accepts s.sends then s.accepted ++ [b] else s.accepted

/-- A key that is due is sent, taken or not. -/
theorem pump_sends (hp : s.machine.pending = b :: rest) (h : s.machine.next_key ≤ now) :
    s.pump now accepts = sent s accepts now b rest := by
  unfold Shutdown.pump Machine.pump_keys
  rw [hp]
  dsimp only
  rw [if_pos h]
  rfl

/-- With nothing queued the loop ends at once. -/
theorem syncLoop_ends (hp : s.machine.pending = []) :
    syncLoop clock accepts deadline (fuel + 1) i s = some s := by
  unfold syncLoop
  rw [if_neg fun h => h.1 hp]

/-- Past the deadline the loop ends at once. -/
theorem syncLoop_late (h : ¬clock (2 * i + 1) < deadline) :
    syncLoop clock accepts deadline (fuel + 1) i s = some s := by
  unfold syncLoop
  rw [if_neg fun hc => h hc.2]

/-- A pass pumps once and goes on. -/
theorem syncLoop_pass (hp : s.machine.pending = b :: rest) (h : clock (2 * i + 1) < deadline) :
    syncLoop clock accepts deadline (fuel + 1) i s =
      syncLoop clock accepts deadline fuel (i + 1) (s.pump (clock (2 * i + 2)) accepts) := by
  have hne : s.machine.pending ≠ [] := by
    rw [hp]
    exact List.cons_ne_nil b rest
  conv_lhs => unfold syncLoop
  rw [if_pos ⟨hne, h⟩]

/-! ## The loop -/

/-- What the socket accepts from a pass on is no more than what is queued; when
it is as much, no send is refused and there is time for each. -/
def HandsOver (clock : ℕ → ℚ) (accepts : ℕ → Bool) (deadline : ℚ) (i : ℕ) (s t : Shutdown) :
    Prop :=
  ∃ w, t.accepted = s.accepted ++ w ∧ w.length ≤ s.machine.pending.length ∧
    (w.length = s.machine.pending.length →
      (∀ k, k < s.machine.pending.length → accepts (s.sends + k) = true) ∧
      InTime clock deadline s.machine.pending.length i s.machine.next_key)

/-- Nothing more is handed over once the queue is empty. -/
theorem HandsOver.done (hp : s.machine.pending = []) :
    HandsOver clock accepts deadline i s s := by
  refine ⟨[], (List.append_nil _).symm, Nat.zero_le _, fun _ => ?_⟩
  rw [hp]
  exact ⟨fun k hk => absurd hk (Nat.not_lt_zero k), trivial⟩

/-- A loop that is left with bytes in the queue has not handed them over. -/
theorem HandsOver.late (hp : s.machine.pending = b :: rest) :
    HandsOver clock accepts deadline i s s := by
  refine ⟨[], (List.append_nil _).symm, Nat.zero_le _, fun hlen => ?_⟩
  rw [hp] at hlen
  cases hlen

/-- A pass that waits. -/
theorem HandsOver.waits (h : HandsOver clock accepts deadline (i + 1) s t) :
    HandsOver clock accepts deadline i s t := by
  obtain ⟨w, hw, hle, hall⟩ := h
  refine ⟨w, hw, hle, fun hlen => ?_⟩
  obtain ⟨hok, htime⟩ := hall hlen
  exact ⟨hok, htime.earlier (Nat.le_succ i) (le_refl _)⟩

/-- A pass that sends: a refused byte is missing from then on. -/
theorem HandsOver.sends (hp : s.machine.pending = b :: rest)
    (hearly : clock (2 * i + 1) < deadline) (hkey : s.machine.next_key ≤ clock (2 * i + 2))
    (h : HandsOver clock accepts deadline (i + 1) (sent s accepts (clock (2 * i + 2)) b rest) t) :
    HandsOver clock accepts deadline i s t := by
  obtain ⟨w, hw, hle, hall⟩ := h
  have hrest : (sent s accepts (clock (2 * i + 2)) b rest).machine.pending = rest := rfl
  rw [hrest] at hle hall
  unfold HandsOver
  rw [hp]
  cases hacc : accepts s.sends with
  | true =>
    refine ⟨b :: w, ?_, Nat.succ_le_succ hle, fun hlen => ?_⟩
    · rw [hw, sent, hacc, if_pos rfl, List.append_assoc]
      rfl
    · obtain ⟨hok, htime⟩ := hall (Nat.succ.inj hlen)
      refine ⟨fun k hk => ?_, i, Nat.le_refl i, hearly, hkey, htime⟩
      cases k with
      | zero => exact hacc
      | succ k =>
        have hk' := hok k (Nat.succ_lt_succ_iff.mp hk)
        rw [show s.sends + (k + 1) = s.sends + 1 + k by omega]
        exact hk'
  | false =>
    refine ⟨w, ?_, Nat.le_succ_of_le hle, fun hlen => ?_⟩
    · rw [hw, sent, hacc, if_neg (by simp)]
    · rw [List.length_cons] at hlen
      omega

/-- Every key the loop hands over was accepted. -/
theorem syncLoop_accepts (h : syncLoop clock accepts deadline fuel i s = some t) :
    HandsOver clock accepts deadline i s t := by
  induction fuel generalizing i s with
  | zero => cases h
  | succ fuel ih =>
    cases hp : s.machine.pending with
    | nil =>
      rw [syncLoop_ends hp] at h
      cases h
      exact HandsOver.done hp
    | cons b rest =>
      by_cases hearly : clock (2 * i + 1) < deadline
      · rw [syncLoop_pass hp hearly] at h
        by_cases hkey : s.machine.next_key ≤ clock (2 * i + 2)
        · rw [pump_sends hp hkey] at h
          exact HandsOver.sends hp hearly hkey (ih h)
        · rw [pump_waits hkey] at h
          exact (ih h).waits
      · rw [syncLoop_late hearly] at h
        cases h
        exact HandsOver.late hp

/-- With time for every byte and no refusal, the loop empties the queue: each
byte goes in the first pass that may send it, which is no later than the pass
that was found for it. -/
theorem syncLoop_empties (hmono : Monotone clock)
    (htime : InTime clock deadline s.machine.pending.length i s.machine.next_key)
    (hok : ∀ k, k < s.machine.pending.length → accepts (s.sends + k) = true) :
    ∃ fuel t, syncLoop clock accepts deadline fuel i s = some t ∧
      t.accepted = s.accepted ++ s.machine.pending := by
  induction hp : s.machine.pending generalizing i s with
  | nil => exact ⟨1, s, syncLoop_ends hp, (List.append_nil _).symm⟩
  | cons b rest ih =>
    rw [hp] at htime hok
    obtain ⟨p, hip, hbefore, hafter, hrest⟩ := htime
    induction hd : p - i using Nat.strong_induction_on generalizing i with
    | _ d ihd =>
      have hearly : clock (2 * i + 1) < deadline := lt_of_le_of_lt (hmono (by omega)) hbefore
      by_cases hkey : s.machine.next_key ≤ clock (2 * i + 2)
      · have hle : clock (2 * i + 2) ≤ clock (2 * p + 2) := hmono (by omega)
        have hfits : InTime clock deadline rest.length (i + 1)
            (later (clock (2 * i + 2)) 0.12) :=
          hrest.earlier (by omega) (later_mono 0.12 hle)
        have hnext : ∀ k, k < rest.length → accepts (s.sends + 1 + k) = true := by
          intro k hk
          have hk' := hok (k + 1) (Nat.succ_lt_succ hk)
          rw [show s.sends + (k + 1) = s.sends + 1 + k by omega] at hk'
          exact hk'
        have hfirst : accepts s.sends = true := hok 0 (Nat.succ_pos _)
        obtain ⟨fuel, t, hloop, hacc⟩ :=
          ih (s := sent s accepts (clock (2 * i + 2)) b rest) hfits hnext rfl
        refine ⟨fuel + 1, t, ?_, ?_⟩
        · rw [syncLoop_pass hp hearly, pump_sends hp hkey]
          exact hloop
        · rw [hacc, sent, hfirst, if_pos rfl, List.append_assoc]
          rfl
      · have hlt : i < p := by
          refine Nat.lt_of_le_of_ne hip ?_
          rintro rfl
          exact hkey hafter
        obtain ⟨fuel, t, hloop, hacc⟩ := ihd (p - (i + 1)) (by omega) hlt rfl
        refine ⟨fuel + 1, t, ?_, hacc⟩
        rw [syncLoop_pass hp hearly, pump_waits hkey]
        exact hloop

/-! ## The whole shutdown -/

/-- A sync that gets out was accepted throughout and within the time. -/
theorem inTime_of_getsOut (h : GetsOut clock accepts m) :
    (∀ k, k < m.pending.length + 11 → accepts k = true) ∧
      InTime clock (later (clock 0) 6) (m.pending.length + 11) 0 m.next_key := by
  obtain ⟨fuel, t, hrun, hall⟩ := h
  obtain ⟨w, hw, _, hthen⟩ := syncLoop_accepts hrun
  have hlen : (m.type SYNC).pending.length = m.pending.length + 11 := List.length_append
  have hwhole : w = (m.type SYNC).pending := by
    rw [hall] at hw
    exact hw.symm
  obtain ⟨hok, htime⟩ := hthen (congrArg List.length hwhole)
  change ∀ k, k < (m.type SYNC).pending.length → accepts (0 + k) = true at hok
  change InTime clock _ (m.type SYNC).pending.length 0 m.next_key at htime
  rw [hlen] at hok htime
  refine ⟨fun k hk => ?_, htime⟩
  rw [← Nat.zero_add k]
  exact hok k hk

/-- Under a clock that never goes back, a clean shutdown gets the queue and the
sync out before it calls `stop` exactly when the socket accepts every one of
the sends and the clock leaves time for all of them within six seconds. -/
theorem sync_gets_out_iff (hmono : Monotone clock) :
    GetsOut clock accepts m ↔ (∀ k, k < m.pending.length + 11 → accepts k = true) ∧
      InTime clock (later (clock 0) 6) (m.pending.length + 11) 0 m.next_key := by
  refine ⟨inTime_of_getsOut, fun ⟨hok, htime⟩ => ?_⟩
  have hlen : (m.type SYNC).pending.length = m.pending.length + 11 := List.length_append
  rw [← hlen] at hok htime
  have hstart : ∀ k, k < (m.type SYNC).pending.length → accepts (0 + k) = true := by
    intro k hk
    rw [Nat.zero_add]
    exact hok k hk
  obtain ⟨fuel, t, hrun, hacc⟩ :=
    syncLoop_empties (s := ⟨m.type SYNC, 0, []⟩) hmono htime hstart
  exact ⟨fuel, t, hrun, hacc⟩

end

/-! ## A steady clock -/

open ExactSeconds

/-- A clock that moves 0.12 seconds from one reading to the next. -/
def steady (i : ℕ) : ℚ := i * 0.12

/-- The steady clock does not go back. -/
theorem steady_mono : Monotone steady := by
  intro i j h
  have hcast : (i : ℚ) ≤ j := Nat.cast_le.mpr h
  unfold steady
  linarith

/-- With a steady clock every pass sends. -/
theorem steady_inTime (n i : ℕ) (h : 2 * (i + n) ≤ 50) (hkey : key ≤ steady (2 * i + 2)) :
    InTime steady 6 n i key := by
  induction n generalizing i key with
  | zero => trivial
  | succ n ih =>
    refine ⟨i, Nat.le_refl i, ?_, hkey, ih (i + 1) (by omega) ?_⟩
    · have hcast : ((2 * i + 1 : ℕ) : ℚ) ≤ 49 := by exact_mod_cast (by omega : 2 * i + 1 ≤ 49)
      unfold steady
      linarith
    · show steady (2 * i + 2) + 0.12 ≤ _
      unfold steady
      push_cast
      linarith

/-- The sync alone, on a steady clock and with a socket that refuses nothing. -/
theorem sync_gets_out_steady : GetsOut steady (fun _ => true) (Machine.init false) := by
  refine (sync_gets_out_iff steady_mono).mpr ⟨fun _ _ => rfl, ?_⟩
  have hsix : later (steady 0) 6 = 6 := by
    show steady 0 + 6 = 6
    unfold steady
    norm_num
  rw [hsix]
  refine steady_inTime 11 0 (by decide) ?_
  unfold steady Machine.init
  norm_num

/-- The first send is refused and all the others are accepted: the byte is gone. -/
theorem sync_loses_refused : ∃ clock accepts m, Monotone clock ∧
    (∀ i, accepts i = false → ∃ j, i < j ∧ accepts j = true) ∧ ¬GetsOut clock accepts m := by
  refine ⟨steady, fun i => i ≠ 0, Machine.init false, steady_mono, fun i _ => ?_, fun h => ?_⟩
  · exact ⟨i + 1, Nat.lt_succ_self i, by simp⟩
  · have hfirst := (inTime_of_getsOut h).1 0 (Nat.succ_pos _)
    simp at hfirst

end Sys16.SyncDeadline
