import Mathlib.Data.List.TakeWhile
import Mathlib.Data.Fintype.Basic
import Mathlib.Tactic.FinCases
import Sys16.DcuMachine
import Sys16.LittleEndian

/-!
# Commands, status and the command timer

The DCU has one opcode register, one one-shot timer and live argument
registers. A transfer, however long, leaves all of them alone, so what a run
of register accesses and expiries does to them is decided by the events. The
results state exactly when each opcode is executed once and when a command
sees its arguments.
-/

namespace Sys16.DcuCommands

open Function DcuMachine EventRuns

variable {D : Type*} {fuel : ℕ} {s t u v : Dcu D} {es pre post : List Event}

/-! ## What a command leaves alone -/

/-- The registers, timer and interrupt line agree in two states. -/
structure SameRegisters (s t : Dcu D) : Prop where
  /-- Argument bytes. -/
  chan : t.chan = s.chan
  /-- Latched opcode. -/
  op : t.op = s.op
  /-- Channel code. -/
  code : t.code = s.code
  /-- Command timer. -/
  timer : t.timer = s.timer
  /-- Interrupt line. -/
  line3 : t.line3 = s.line3

theorem SameRegisters.refl (s : Dcu D) : SameRegisters s s := ⟨rfl, rfl, rfl, rfl, rfl⟩

theorem SameRegisters.trans (h : SameRegisters s t) (k : SameRegisters t u) : SameRegisters s u :=
  ⟨k.chan.trans h.chan, k.op.trans h.op, k.code.trans h.code, k.timer.trans h.timer,
    k.line3.trans h.line3⟩

variable [HardDisk D]

/-- Reading a unit's shape leaves the registers alone. -/
theorem dcu_geometry_registers (s : Dcu D) (unit : ℕ) :
    SameRegisters s (dcu_geometry s unit) := by
  unfold dcu_geometry
  split
  · exact .refl s
  · dsimp only
    split <;> exact ⟨rfl, rfl, rfl, rfl, rfl⟩

/-- Moving a sector leaves the registers alone. -/
theorem dcu_sector_registers (s : Dcu D) (unit : ℕ) (opcode : UInt8) (addr lba : ℕ) :
    SameRegisters s (dcu_sector s unit opcode addr lba).1 := by
  unfold dcu_sector
  split
  · exact ⟨rfl, rfl, rfl, rfl, rfl⟩
  · dsimp only
    split <;> exact ⟨rfl, rfl, rfl, rfl, rfl⟩

/-- Moving the sectors of an IOCB leaves the registers alone. -/
theorem dcu_sectors_registers (s : Dcu D) (unit : ℕ) (opcode : UInt8) (table n i lba : ℕ)
    (resid : UInt8) : SameRegisters s (dcu_sectors s unit opcode table n i lba resid).1 := by
  induction n generalizing s i lba resid with
  | zero => exact .refl s
  | succ n ih =>
    have h := dcu_sector_registers s unit opcode (pageAddr s.mem table i) lba
    unfold dcu_sectors
    dsimp only
    split
    · exact h.trans (ih _ _ _ _)
    · exact h

/-- An access leaves the registers alone. -/
theorem dcu_access_registers (s : Dcu D) (c : Iocb) : SameRegisters s (dcu_access s c).1 := by
  unfold dcu_access
  split
  · exact (dcu_geometry_registers s c.unit).trans (dcu_sectors_registers _ _ _ _ _ _ _ _)
  · exact .refl s

/-- Carrying out an IOCB leaves the registers alone. -/
theorem dcu_iocb_registers (s : Dcu D) (iocb : ℕ) : SameRegisters s (dcu_iocb s iocb).1 := by
  have h := dcu_access_registers s (readIocb s.mem iocb)
  have hput : ∀ (t : Dcu D) addr v, SameRegisters t (t.putByte addr v) :=
    fun _ _ _ => ⟨rfl, rfl, rfl, rfl, rfl⟩
  unfold dcu_iocb
  dsimp only
  split
  · split <;> exact h.trans ((hput _ _ _).trans (hput _ _ _))
  · exact h.trans ((hput _ _ _).trans (hput _ _ _))

/-- Walking the whole chain leaves the registers alone. -/
theorem dcu_transfer_registers {iocb : ℕ} {ok : Bool} (h : dcu_transfer fuel s iocb = some (t, ok)) :
    SameRegisters s t := by
  induction fuel generalizing s iocb with
  | zero => cases h
  | succ fuel ih =>
    have hr := dcu_iocb_registers s iocb
    unfold dcu_transfer at h
    split at h
    · next he =>
      rw [he] at hr
      exact hr.trans (ih h)
    · next he =>
      rw [he] at hr
      cases h
      exact hr

/-- A command, whatever it is, leaves the registers, the timer and the line alone. -/
theorem dcu_execute_registers {ok : Bool} (h : dcu_execute fuel s = some (t, ok)) :
    SameRegisters s t := by
  unfold dcu_execute at h
  split_ifs at h with h1 h2 h3 h4 h5
  · cases h
    exact ⟨rfl, rfl, rfl, rfl, rfl⟩
  · cases h
    exact .refl s
  · dsimp only at h
    split_ifs at h with hu
    · cases h
      have hg := dcu_geometry_registers { s with unit := dcu_arg s >>> 13 } (dcu_arg s >>> 13)
      exact ⟨hg.chan, hg.op, hg.code, hg.timer, hg.line3⟩
    · cases h
      exact ⟨rfl, rfl, rfl, rfl, rfl⟩
  · cases h
    exact .refl s
  · exact dcu_transfer_registers h
  · cases h
    exact ⟨rfl, rfl, rfl, rfl, rfl⟩

/-- What an expiry does to the registers: the timer was armed and is not any
more, the outcome is posted and line 3 is low. -/
theorem step_expire (h : step fuel s .expire = some t) :
    s.timer = true ∧ t.timer = false ∧ t.chan = s.chan ∧ t.op = s.op ∧
      (t.code = .done ∨ t.code = .error) ∧ t.line3 = false := by
  simp only [step] at h
  split_ifs at h with ht
  simp only [dcu_complete, Option.map_eq_some_iff] at h
  obtain ⟨⟨v, ok⟩, hv, rfl⟩ := h
  have hr := dcu_execute_registers hv
  refine ⟨ht, hr.timer, hr.chan, hr.op, ?_, rfl⟩
  cases ok
  · exact Or.inr rfl
  · exact Or.inl rfl

/-! ## What one event can do -/

/-- A write of the opcode register. -/
def isOpcode : Event → Bool
  | .write 3 _ => true
  | _ => false

/-- Events that set the channel code to idle, whatever the timer does. -/
def Idles (e : Event) : Prop := e = .reset ∨ ∃ data, e = .write 4 data

/-- An opcode event is a write to offset 3. -/
theorem isOpcode_eq_true {e : Event} (h : isOpcode e = true) : ∃ d, e = .write 3 d := by
  unfold isOpcode at h
  split at h
  · exact ⟨_, rfl⟩
  · cases h

/-- An event as the command logic sees it: an expiry completes, an opcode
write starts, an acknowledge or reset idles, anything else leaves the code,
the timer, the opcode and the line alone. -/
inductive Effect (t : Dcu D) (e : Event) (u : Dcu D) : Prop where
  /-- The timer was armed; the outcome is posted and line 3 falls. -/
  | complete (he : e = .expire) (armed : t.timer = true) (timer : u.timer = false)
      (code : u.code = .done ∨ u.code = .error) (line3 : u.line3 = false)
  /-- The opcode is latched and the timer armed. -/
  | start (d : UInt8) (he : e = .write 3 d) (op : u.op = d) (timer : u.timer = true)
      (code : u.code = .busy) (line3 : u.line3 = t.line3)
  /-- The code goes idle and line 3 high; the timer is not touched. -/
  | idle (he : Idles e) (op : e ≠ .reset → u.op = t.op) (timer : u.timer = t.timer)
      (code : u.code = .idle) (line3 : u.line3 = true)
  /-- Nothing of the command state changes. -/
  | quiet (ho : isOpcode e = false) (hx : e ≠ .expire) (hi : ¬Idles e) (op : u.op = t.op)
      (timer : u.timer = t.timer) (code : u.code = t.code) (line3 : u.line3 = t.line3)

/-- Every step has one of the four effects. -/
theorem step_effect {e : Event} (h : step fuel t e = some u) : Effect t e u := by
  cases e with
  | read offset =>
    cases h
    exact .quiet rfl (by simp) (by simp [Idles]) rfl rfl rfl rfl
  | store addr data =>
    cases h
    exact .quiet rfl (by simp) (by simp [Idles]) rfl rfl rfl rfl
  | expire =>
    obtain ⟨harmed, htimer, _, _, hcode, hline⟩ := step_expire h
    exact .complete rfl harmed htimer hcode hline
  | reset =>
    cases h
    exact .idle (Or.inl rfl) (fun hn => absurd rfl hn) rfl rfl rfl
  | write offset data =>
    cases h
    by_cases h3 : offset = 3
    · subst h3
      exact .start data rfl rfl rfl rfl rfl
    · by_cases h4 : offset = 4
      · subst h4
        exact .idle (Or.inr ⟨data, rfl⟩) (fun _ => rfl) rfl rfl rfl
      · refine .quiet ?_ (by simp) (by simp [Idles, h4]) ?_ ?_ ?_ ?_
        · unfold isOpcode
          split
          · next heq =>
            cases heq
            exact absurd rfl h3
          · rfl
        all_goals
          unfold dcu_w
          split
          case h_4 => exact absurd rfl h3
          case h_5 => exact absurd rfl h4
          all_goals rfl

/-! ## Opcode writes and executions -/

/-- The events up to the next opcode write. -/
def stretch (post : List Event) : List Event := post.takeWhile fun e => !isOpcode e

/-- The opcodes `dcu_execute` runs with along a run, in order. -/
def executed (fuel : ℕ) : Dcu D → List Event → List UInt8
  | _, [] => []
  | s, e :: es =>
    match step fuel s e with
    | none => []
    | some t => (if e = .expire then [s.op] else []) ++ executed fuel t es

/-- Between two opcode writes an armed timer fires at most once, with the
opcode that is latched; a disarmed one does not fire at all. -/
theorem executed_stretch (ho : ∀ e ∈ es, isOpcode e = false) (hr : .reset ∉ es)
    (h : run (step fuel) s es = some u) :
    if s.timer ∧ .expire ∈ es then executed fuel s es = [s.op] ∧ u.timer = false
    else executed fuel s es = [] ∧ u.timer = s.timer := by
  induction es generalizing s with
  | nil =>
    cases h
    simp [executed]
  | cons e es ih =>
    obtain ⟨t, ht, hu⟩ := run_cons_eq_some.mp h
    obtain ⟨hre, hres⟩ := List.ne_and_not_mem_of_not_mem_cons hr
    have hi := ih (fun e' he => ho e' (List.mem_cons_of_mem e he)) hres hu
    by_cases he : e = .expire
    · subst he
      obtain ⟨hs, htt, _, hop, _⟩ := step_expire ht
      simp only [htt, Bool.false_eq_true, false_and, if_false] at hi
      simp [executed, ht, hi, hs]
    · have hkeep : t.timer = s.timer ∧ t.op = s.op := by
        cases step_effect ht with
        | complete hx => exact absurd hx he
        | start d hw =>
          subst hw
          exact absurd (ho _ List.mem_cons_self) (by simp [isOpcode])
        | idle _ hop htimer => exact ⟨htimer, hop (Ne.symm hre)⟩
        | quiet _ _ _ hop htimer => exact ⟨htimer, hop⟩
      rw [hkeep.1, hkeep.2] at hi
      simpa [executed, ht, he, Ne.symm he] using hi

/-- The stretch after a command holds no further opcode. -/
theorem stretch_not_opcode (post : List Event) : ∀ e ∈ stretch post, isOpcode e = false := by
  intro e he
  simpa using List.mem_takeWhile_imp he

/-- A stretch reaches either the end of the run or the next opcode write. -/
theorem stretch_split (post : List Event) :
    stretch post = post ∨ ∃ d rest, post = stretch post ++ .write 3 d :: rest := by
  have hs := List.takeWhile_append_dropWhile (p := fun e => !isOpcode e) (l := post)
  cases hd : post.dropWhile fun e => !isOpcode e with
  | nil =>
    rw [hd, List.append_nil] at hs
    exact Or.inl hs
  | cons e rest =>
    have hne : post.dropWhile (fun e => !isOpcode e) ≠ [] := by simp [hd]
    have ho : isOpcode e = true := by
      have hh := List.head_dropWhile_not (fun e => !isOpcode e) hne
      simpa [hd] using hh
    obtain ⟨d, rfl⟩ := isOpcode_eq_true ho
    rw [hd] at hs
    exact Or.inr ⟨d, rest, hs.symm⟩

/-- The stretch after the last opcode runs up to it. -/
theorem stretch_append {mid : List Event} (hm : ∀ e ∈ mid, isOpcode e = false) (d : UInt8)
    (post : List Event) : stretch (mid ++ .write 3 d :: post) = mid := by
  unfold stretch
  rw [List.takeWhile_append_of_pos (fun e he => by simp [hm e he])]
  simp [isOpcode]

/-- The opcode written after `pre` is executed exactly once before the next
opcode write, or nothing has followed and its timer is still armed. -/
def ExecutedOnce (fuel : ℕ) (s : Dcu D) (pre : List Event) (d : UInt8) (post : List Event)
    (u : Dcu D) : Prop :=
  ∀ t, run (step fuel) s (pre ++ [.write 3 d]) = some t →
    executed fuel t (stretch post) = [d] ∨
      stretch post = post ∧ executed fuel t post = [] ∧ u.timer = true

/-- Between two opcode writes of a run the command timer expires. -/
def NoOverrun (es : List Event) : Prop :=
  ∀ pre d mid d' post, es = pre ++ .write 3 d :: (mid ++ .write 3 d' :: post) →
    (∀ e ∈ mid, isOpcode e = false) → .expire ∈ mid

/-- From a machine reset, every opcode written is executed exactly once if and
only if no opcode write overruns one whose timer has not expired. -/
theorem executed_once_iff (hr : .reset ∉ es)
    (h : run (step fuel) (machine_reset s) es = some u) :
    (∀ pre d post, es = pre ++ .write 3 d :: post →
      ExecutedOnce fuel (machine_reset s) pre d post u) ↔ NoOverrun es := by
  constructor
  · intro hall pre d mid d' post hes hm
    subst hes
    rw [List.append_cons] at h
    obtain ⟨t, ht, hpost⟩ := run_append_eq_some.mp h
    obtain ⟨v, hv, _⟩ := run_append_eq_some.mp hpost
    have hmr : .reset ∉ mid := fun hc => hr (by simp [hc])
    have hx := executed_stretch hm hmr hv
    rcases hall pre d _ rfl t ht with he | ⟨he, _⟩
    · rw [stretch_append hm] at he
      by_contra hn
      rw [if_neg (fun hc => hn hc.2), he] at hx
      exact List.cons_ne_nil _ _ hx.1
    · rw [stretch_append hm] at he
      simpa using congrArg List.length he
  · intro hno pre d post hes t ht
    subst hes
    have hrp : .reset ∉ post := fun hc => hr (by simp [hc])
    have hwrite : t.timer = true ∧ t.op = d := by
      obtain ⟨v, _, hv⟩ := run_concat_eq_some.mp ht
      cases hv
      exact ⟨rfl, rfl⟩
    rw [List.append_cons] at h
    obtain ⟨t', ht', hu⟩ := run_append_eq_some.mp h
    cases Option.some.inj (ht.symm.trans ht')
    rcases stretch_split post with hend | ⟨d', rest, hnext⟩
    · have hx := executed_stretch (hend ▸ stretch_not_opcode post) hrp hu
      rw [hend]
      split_ifs at hx with hc
      · exact Or.inl (hwrite.2 ▸ hx.1)
      · exact Or.inr ⟨rfl, hx.1, hx.2.trans hwrite.1⟩
    · have hexp := hno pre d (stretch post) d' rest (by rw [← hnext]) (stretch_not_opcode post)
      rw [hnext, run_append_eq_some] at hu
      obtain ⟨v, hv, _⟩ := hu
      have hrs : .reset ∉ stretch post := fun hc => hrp (List.takeWhile_subset _ hc)
      have hx := executed_stretch (stretch_not_opcode post) hrs hv
      rw [if_pos ⟨hwrite.1, hexp⟩, hwrite.2] at hx
      exact Or.inl hx.1

/-- One sense command written and completed, at the theorem above. -/
theorem executed_once_sense :
    (∀ pre d post, [Event.write 3 0x84, .expire] = pre ++ .write 3 d :: post →
      ExecutedOnce 1 (machine_reset blank) pre d post
        { blank with op := 0x84, code := .done, line3 := false }) ↔
      NoOverrun [.write 3 0x84, .expire] :=
  executed_once_iff (by decide) rfl

omit [HardDisk D] in
/-- The status byte shows `DCU_READY` in every state, a pending command included. -/
theorem status_ready (t : Dcu D) : dcu_r t 4 &&& DCU_READY = DCU_READY := by
  unfold dcu_r
  rw [if_pos rfl]
  cases t.code <;> cases t.selftest <;> cases t.auxerr <;> decide

/-- The guest writes an opcode only after a status read that showed
`DCU_READY`, with no opcode write in between. -/
def Polled (fuel : ℕ) (s : Dcu D) (es : List Event) : Prop :=
  ∀ pre d post, es = pre ++ .write 3 d :: post → ∃ before mid t,
    pre = before ++ .read 4 :: mid ∧ (∀ e ∈ mid, isOpcode e = false) ∧
      run (step fuel) s before = some t ∧ dcu_r t 4 &&& DCU_READY ≠ 0

/-- A polled run in which an opcode is lost: the second one is written, after
a status read that shows ready, before the timer of the first has expired. -/
theorem polled_opcode_lost :
    ¬∀ (es : List Event) (u : Dcu Image), .reset ∉ es → Polled 1 (machine_reset blank) es →
      run (step 1) (machine_reset blank) es = some u →
      ∀ pre d post, es = pre ++ .write 3 d :: post →
        ExecutedOnce 1 (machine_reset blank) pre d post u := by
  intro h
  have hpoll : Polled 1 (machine_reset blank)
      [.read 4, .write 3 0x84, .read 4, .write 3 0x74, .expire] := by
    intro pre d post hes
    have hready : ∀ t : Dcu Image, dcu_r t 4 &&& DCU_READY ≠ 0 := fun t => by
      rw [status_ready]
      decide
    rcases pre with _ | ⟨a, _ | ⟨b, _ | ⟨c, _ | ⟨e, _ | ⟨f, pre⟩⟩⟩⟩⟩ <;> simp at hes
    · obtain ⟨rfl, _⟩ := hes
      exact ⟨[], [], _, rfl, by simp, rfl, hready _⟩
    · obtain ⟨rfl, rfl, rfl, _⟩ := hes
      exact ⟨[.read 4, .write 3 0x84], [], _, rfl, by simp, rfl, hready _⟩
  have hlost := h _ { blank with op := 0x74, code := .done, line3 := false } (by decide) hpoll rfl
    [.read 4] 0x84 [.read 4, .write 3 0x74, .expire] rfl _ rfl
  exact absurd hlost (by decide)

/-! ## Argument registers -/

/-- The byte an event writes into an argument register. -/
def argWrite (i : Fin 3) : Event → Option UInt8
  | .write offset data => if offset = i then some data else none
  | _ => none

/-- The last byte a list of events writes into an argument register. -/
def lastArg (i : Fin 3) (es : List Event) : Option UInt8 := (es.filterMap (argWrite i)).getLast?

omit [HardDisk D] in
/-- A channel register holds the last byte written to it. -/
theorem dcu_w_chan (s : Dcu D) (offset : ℕ) (data : UInt8) (i : Fin 3) :
    (dcu_w s offset data).chan i = (argWrite i (.write offset data)).getD (s.chan i) := by
  have hi := i.isLt
  change _ = (if offset = i then some data else none).getD (s.chan i)
  unfold dcu_w
  split
  case h_1 => fin_cases i <;> simp
  case h_2 => fin_cases i <;> simp
  case h_3 => fin_cases i <;> simp
  case h_7 h0 h1 h2 _ _ _ =>
    rw [if_neg]
    · rfl
    · intro hc
      fin_cases i
      · exact h0 hc
      · exact h1 hc
      · exact h2 hc
  all_goals
    rw [if_neg (by omega)]
    rfl

/-- Only a write of an argument register or a reset changes it. -/
theorem step_chan {e : Event} (hr : e ≠ .reset) (h : step fuel s e = some t) (i : Fin 3) :
    t.chan i = (argWrite i e).getD (s.chan i) := by
  cases e with
  | read offset =>
    cases h
    rfl
  | store addr data =>
    cases h
    rfl
  | expire => rw [(step_expire h).2.2.1]; rfl
  | reset => exact absurd rfl hr
  | write offset data =>
    cases h
    exact dcu_w_chan s offset data i

/-- Without a reset an argument register holds the last byte written to it. -/
theorem run_chan (hr : .reset ∉ es) (h : run (step fuel) s es = some u) (i : Fin 3) :
    u.chan i = (lastArg i es).getD (s.chan i) := by
  induction es using List.reverseRecOn generalizing u with
  | nil =>
    cases h
    rfl
  | append_singleton pre e ih =>
    obtain ⟨t, ht, hu⟩ := run_concat_eq_some.mp h
    have hpre := ih (fun hc => hr (List.mem_append_left _ hc)) ht
    have hre : e ≠ .reset := fun hc => hr (by simp [hc])
    rw [step_chan hre hu i, hpre]
    unfold lastArg
    rw [List.filterMap_append]
    cases ha : argWrite i e with
    | none => simp [ha]
    | some b => simp [ha]

omit [HardDisk D] in
/-- The argument determines the three bytes it is assembled from. -/
theorem dcu_arg_inj : dcu_arg t = dcu_arg s ↔ ∀ i, t.chan i = s.chan i := by
  unfold dcu_arg
  rw [LittleEndian.or_bytes₃, LittleEndian.or_bytes₃]
  constructor
  · intro h i
    have h0 := (s.chan 0).toNat_lt
    have h1 := (s.chan 1).toNat_lt
    have h2 := (s.chan 2).toNat_lt
    have k0 := (t.chan 0).toNat_lt
    have k1 := (t.chan 1).toNat_lt
    have k2 := (t.chan 2).toNat_lt
    apply UInt8.toNat_inj.mp
    fin_cases i
    · show (t.chan 0).toNat = (s.chan 0).toNat
      omega
    · show (t.chan 1).toNat = (s.chan 1).toNat
      omega
    · show (t.chan 2).toNat = (s.chan 2).toNat
      omega
  · intro h
    rw [h 0, h 1, h 2]

/-- Each expiry of a run executes its command on the argument that stood when
the command's opcode was written. -/
def ArgumentsHeld (fuel : ℕ) (s : Dcu D) (es : List Event) : Prop :=
  ∀ pre d mid post t v, es = pre ++ .write 3 d :: (mid ++ .expire :: post) →
    (∀ e ∈ mid, isOpcode e = false ∧ e ≠ .reset) → run (step fuel) s pre = some t →
    run (step fuel) s (pre ++ .write 3 d :: mid) = some v → dcu_arg v = dcu_arg t

/-- Whatever argument register is written between an opcode write and its
expiry is left with the byte it held when the opcode was written. -/
def ArgumentsQuiet (fuel : ℕ) (s : Dcu D) (es : List Event) : Prop :=
  ∀ pre d mid post t, es = pre ++ .write 3 d :: (mid ++ .expire :: post) →
    (∀ e ∈ mid, isOpcode e = false ∧ e ≠ .reset) → run (step fuel) s pre = some t →
    ∀ i b, lastArg i mid = some b → b = t.chan i

/-- Every command of a run executes with the arguments it was given if and
only if no argument register is left changed between its opcode write and
its expiry. -/
theorem arguments_held_iff (h : run (step fuel) s es = some u) :
    ArgumentsHeld fuel s es ↔ ArgumentsQuiet fuel s es := by
  have hchan : ∀ pre d mid t v, (∀ e ∈ mid, isOpcode e = false ∧ e ≠ .reset) →
      run (step fuel) s pre = some t → run (step fuel) s (pre ++ .write 3 d :: mid) = some v →
      ∀ i, v.chan i = (lastArg i mid).getD (t.chan i) := by
    intro pre d mid t v hm ht hv i
    obtain ⟨t', ht', hv⟩ := run_append_eq_some.mp hv
    cases Option.some.inj (ht.symm.trans ht')
    obtain ⟨w, hw, hv⟩ := run_cons_eq_some.mp hv
    cases hw
    exact run_chan (fun hc => (hm _ hc).2 rfl) hv i
  constructor
  · intro hheld pre d mid post t hes hm ht i b hb
    have hsplit : pre ++ .write 3 d :: mid <+: es := by
      rw [hes]
      exact ⟨.expire :: post, by simp⟩
    obtain ⟨v, hv⟩ := run_prefix h hsplit
    have hi := dcu_arg_inj.mp (hheld pre d mid post t v hes hm ht hv) i
    rw [hchan pre d mid t v hm ht hv i, hb] at hi
    exact hi
  · intro hquiet pre d mid post t v hes hm ht hv
    apply dcu_arg_inj.mpr
    intro i
    rw [hchan pre d mid t v hm ht hv i]
    cases hb : lastArg i mid with
    | none => rfl
    | some b => exact hquiet pre d mid post t hes hm ht i b hb

/-- A seek command whose argument register is rewritten with its own byte. -/
theorem arguments_held_rewritten :
    ArgumentsHeld 1 blank [.write 1 0x41, .write 3 0xe8, .write 1 0x41, .expire] ↔
      ArgumentsQuiet 1 blank [.write 1 0x41, .write 3 0xe8, .write 1 0x41, .expire] :=
  arguments_held_iff (u := { blank with
    chan := update (update blank.chan 1 0x41) 1 0x41, op := 0xe8, code := .done, line3 := false }) rfl

/-- A command that executes with an argument byte written after its opcode. -/
theorem argument_overwritten :
    ¬ArgumentsHeld 1 blank [.write 3 0x20, .write 1 0x20, .expire] := by
  intro h
  have harg := h [] 0x20 [.write 1 0x20] [] blank
    { blank with
      chan := update blank.chan 1 0x20, op := 0x20, code := .busy, auxerr := false, timer := true }
    rfl (by simp [isOpcode]) rfl rfl
  exact absurd harg (by decide)

end Sys16.DcuCommands
