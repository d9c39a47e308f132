import Mathlib.Tactic.IntervalCases
import Sys16.BusRefinement

/-!
# Commands and their status on the bus

A command moves its bytes through the program space, where the registers of
the controller are addresses like any others: a page that lies over them is
written into them in the middle of the transfer. The callback itself leaves
the timer alone, so an armed timer after it is an opcode that the transfer
wrote. The result states when the channel code and the command timer agree
all along a run.
-/

namespace Sys16.BusCommands

open EventRuns DcuMachine MonadRelations BusMap BusRefinement

variable {D P : Type} {s t u : Logged D P} {fuel : ℕ} {pre es : List (BusMap.Event P)}
  {e : BusMap.Event P} {addr k : ℕ} {data : UInt8}

/-! ## The registers as addresses -/

/-- The address of a register of the controller. -/
def register (k : ℕ) : ℕ := 0xd00000 + 2 * k

/-- What answers as a register of the controller is at its address. -/
theorem bus_of_dcu {view : Bool} (h : decode view addr = .port .dcu k) : bus addr = register k := by
  obtain ⟨r, hr, hfirst, hlast, hhandler, hlow⟩ := decode_port h
  have hentry : ∀ r ∈ cpu_map, r.handler = .dcu → r.first = 0xd00000 ∧ r.low = true := by decide
  obtain ⟨hstart, hodd⟩ := hentry r hr hhandler
  obtain ⟨hparity, hk⟩ := hlow hodd
  unfold register
  omega

/-- The address of a register is answered by it, under either boot view. -/
theorem decode_register (view : Bool) (hk : k < 16) (h : bus addr = register k) :
    decode view addr = .port .dcu k := by
  unfold decode
  rw [h]
  interval_cases k <;> rfl

/-- Two states of the controller with the same channel code, timer and line. -/
structure SameCommand (s t : Dcu D) : Prop where
  code : t.code = s.code
  timer : t.timer = s.timer
  line3 : t.line3 = s.line3

/-- The registers other than the opcode and the acknowledge register have no
part in a command. -/
theorem dcu_w_other (d : Dcu D) (h3 : k ≠ 3) (h4 : k ≠ 4) : SameCommand d (dcu_w d k data) := by
  unfold dcu_w
  split
  case h_4 => exact absurd rfl h3
  case h_5 => exact absurd rfl h4
  all_goals exact ⟨rfl, rfl, rfl⟩

variable [Peripherals P]

/-- A write to a register of the controller, through the map. -/
theorem write_register (m : Machine D P) (hk : k < 16) (h : bus addr = register k) :
    (m.write addr data).dcu = dcu_w m.dcu k data := by
  unfold Machine.write
  rw [decode_register m.view hk h]
  rfl

/-- A write anywhere else has no part in a command. -/
theorem write_other (m : Machine D P) (h3 : bus addr ≠ register 3) (h4 : bus addr ≠ register 4) :
    SameCommand m.dcu (m.write addr data).dcu := by
  unfold Machine.write
  cases hd : decode m.view addr with
  | ram a => exact ⟨rfl, rfl, rfl⟩
  | rom o => exact ⟨rfl, rfl, rfl⟩
  | unmapped => exact ⟨rfl, rfl, rfl⟩
  | port h o =>
    cases h with
    | dcu =>
      have hreg := bus_of_dcu hd
      exact dcu_w_other m.dcu (fun h => h3 (h ▸ hreg)) fun h => h4 (h ▸ hreg)
    | view | ram | rom | dcr | nmi | opt | chip => exact ⟨rfl, rfl, rfl⟩

/-! ## What a command writes into the opcode register -/

/-- An access that writes the opcode register. -/
def writesOpcode : Access → Bool
  | .write a _ => bus a == register 3
  | _ => false

/-- The accesses that leave the opcode register alone. -/
def sparing : Set Access := {x | writesOpcode x = false}

/-- A command writes no byte of its transfer into the opcode register. -/
def SparesOpcode [HardDisk D] (fuel : ℕ) (s : Logged D P) (e : BusMap.Event P) : Prop :=
  ∀ t, e = .expire → BusMap.step fuel s e = some t → Grew sparing s t

/-- The timer is armed if it was at the start, or by an opcode written since. -/
def ArmedSince (s t : Logged D P) : Prop :=
  ∃ new, t.log = s.log ++ new ∧
    (t.machine.dcu.timer = true ↔
      s.machine.dcu.timer = true ∨ ∃ x ∈ new, writesOpcode x = true)

omit [Peripherals P] in
/-- One more access, and what it does to the timer. -/
theorem armedSince_concat {x : Access} (h : ArmedSince s t) (hlog : u.log = t.log ++ [x])
    (htimer : u.machine.dcu.timer = true ↔ t.machine.dcu.timer = true ∨ writesOpcode x = true) :
    ArmedSince s u := by
  obtain ⟨new, hnew, hiff⟩ := h
  refine ⟨new ++ [x], by rw [hlog, hnew, List.append_assoc], htimer.trans ?_⟩
  rw [hiff]
  simp only [List.mem_append, List.mem_singleton]
  grind

/-- A write arms the timer when it writes the opcode register, and never disarms it. -/
theorem write_timer (m : Machine D P) (addr : ℕ) (data : UInt8) :
    (m.write addr data).dcu.timer = true ↔
      m.dcu.timer = true ∨ writesOpcode (.write (u32 addr) data) = true := by
  unfold writesOpcode
  dsimp only
  rw [bus_u32, beq_iff_eq]
  by_cases h3 : bus addr = register 3
  · rw [write_register m (by omega) h3]
    exact iff_of_true rfl (Or.inr h3)
  · by_cases h4 : bus addr = register 4
    · rw [write_register m (by omega) h4]
      exact (or_iff_left h3).symm
    · rw [(write_other m h3 h4).timer]
      exact (or_iff_left h3).symm

/-- The accesses of a command, and its work on the controller's own state. -/
theorem accessing_armedSince (s : Logged D P) :
    Accessing (keeping (ArmedSince s) (StateM (Dcu D))) where
  read addr t h := by
    refine armedSince_concat h rfl ?_
    have hread : (t.read addr).2.machine.dcu = t.machine.dcu := read_dcu t.machine addr
    rw [show (Space.read_byte addr : StateM (Logged D P) UInt8) t = t.read addr from rfl, hread]
    exact (or_iff_left Bool.false_ne_true).symm
  write addr data t h := armedSince_concat h rfl (write_timer t.machine addr data)
  dcu {_ f} hf t h := by
    obtain ⟨new, hnew, hiff⟩ := h
    exact ⟨new, hnew, by rw [← hiff]; exact iff_of_eq (congrArg (· = true) (hf.timer _))⟩

variable [HardDisk D]

/-- A command that ends has posted its outcome last. -/
theorem complete_posts (h : ((BusMap.dcu_complete fuel : StateM (Logged D P) (Option Unit)) s).1 =
    some ()) :
    let t := ((BusMap.dcu_complete fuel : StateM (Logged D P) (Option Unit)) s).2
    (t.machine.dcu.code = .done ∨ t.machine.dcu.code = .error) ∧ t.machine.dcu.line3 = false := by
  unfold BusMap.dcu_complete at h ⊢
  rw [bind_run] at h ⊢
  cases hexec : ((BusMap.dcu_execute fuel : StateM (Logged D P) (Option Bool)) s).1 with
  | none =>
    rw [hexec] at h
    cases h
  | some ok =>
    refine ⟨?_, rfl⟩
    cases ok
    · exact Or.inr rfl
    · exact Or.inl rfl

/-- What an expiry does: the timer was armed, the outcome is posted, line 3 is
low, and the timer is armed again just when the transfer wrote the opcode register. -/
theorem step_expire (h : BusMap.step fuel s .expire = some t) :
    s.machine.dcu.timer = true ∧ (t.machine.dcu.timer = false ↔ Grew sparing s t) ∧
      (t.machine.dcu.code = .done ∨ t.machine.dcu.code = .error) ∧
      t.machine.dcu.line3 = false := by
  unfold BusMap.step at h
  split_ifs at h with harmed
  obtain ⟨_, hdone, rfl⟩ := Option.map_eq_some_iff.mp h
  have hposts := complete_posts (s := { s with machine := { s.machine with
    dcu := { s.machine.dcu with timer := false } } }) hdone
  refine ⟨harmed, ?_, hposts.1, hposts.2⟩
  obtain ⟨new, hnew, hiff⟩ := rel_complete (accessing_armedSince { s with machine :=
    { s.machine with dcu := { s.machine.dcu with timer := false } } }) fuel _
    ⟨[], (List.append_nil _).symm, by simp⟩
  have htimer : (expire fuel s).2.machine.dcu.timer = true ↔ ∃ x ∈ new, writesOpcode x = true :=
    hiff.trans (or_iff_right Bool.false_ne_true)
  rw [← Bool.not_eq_true, htimer]
  constructor
  · intro hno
    exact ⟨new, hnew, fun x hx => Bool.eq_false_iff.mpr fun hw => hno ⟨x, hx, hw⟩⟩
  · rintro ⟨new', hnew', hspares⟩ ⟨x, hx, hw⟩
    obtain rfl := List.append_cancel_left (hnew'.symm.trans hnew)
    exact Bool.false_ne_true ((hspares x hx).symm.trans hw)

/-- A command that stays in main memory spares the opcode register. -/
theorem sparesOpcode_of_inMemory (h : InMemory fuel s e) : SparesOpcode fuel s e := by
  intro t he ht
  obtain ⟨new, hnew, hall⟩ := h t he ht
  refine ⟨new, hnew, fun x hx => ?_⟩
  cases x with
  | read | reset => rfl
  | write a data =>
    refine Bool.eq_false_iff.mpr fun hw => ?_
    have hmem := (hall _ hx a rfl).2
    rw [decode_register s.machine.view (by omega) (eq_of_beq hw)] at hmem
    cases hmem

/-- A command other than a transfer asks nothing of the program space. -/
theorem sparesOpcode_of_op (h : s.machine.dcu.op ≠ DCU_C_START) : SparesOpcode fuel s e := by
  intro t he ht
  subst he
  unfold BusMap.step at ht
  split_ifs at ht
  obtain ⟨_, _, rfl⟩ := Option.map_eq_some_iff.mp ht
  have hlog : (expire fuel s).2.log = s.log := by
    unfold expire BusMap.dcu_complete BusMap.dcu_execute
    rw [bind_run, bind_run, bind_run]
    have hne : ¬((Space.dcu (fun d : Dcu D => ((d.op, dcu_arg d), d)) :
        StateM (Logged D P) _) ((Space.dcu fun d : Dcu D => ((), { d with timer := false }) :
          StateM (Logged D P) Unit) s).2).1.1 = DCU_C_START := h
    rw [if_neg hne]
    cases ((Space.dcu dcu_immediate : StateM (Logged D P) (Option Bool)) _).1 <;> rfl
  exact ⟨[], by rw [List.append_nil]; exact hlog, fun _ hx => absurd hx List.not_mem_nil⟩

/-! ## What one event can do -/

/-- The CPU writes the opcode register. -/
def isOpcode : BusMap.Event P → Bool
  | .write addr _ => bus addr == register 3
  | _ => false

/-- Events that set the channel code to idle, whatever the timer does: a write
to the acknowledge register, and a soft reset. -/
def Idles (e : BusMap.Event P) : Prop :=
  e = .reset ∨ ∃ addr data, e = .write addr data ∧ bus addr = register 4

/-- An event as the command logic sees it: an expiry completes, an opcode
write starts, an acknowledge or reset idles, anything else leaves the code,
the timer and the line alone. -/
inductive Effect (t : Logged D P) (e : BusMap.Event P) (u : Logged D P) : Prop where
  /-- The timer was armed; the outcome is posted and line 3 falls. -/
  | complete (he : e = .expire) (armed : t.machine.dcu.timer = true)
      (timer : u.machine.dcu.timer = false ↔ Grew sparing t u)
      (code : u.machine.dcu.code = .done ∨ u.machine.dcu.code = .error)
      (line3 : u.machine.dcu.line3 = false)
  /-- The opcode is latched and the timer armed. -/
  | start (ho : isOpcode e = true) (timer : u.machine.dcu.timer = true)
      (code : u.machine.dcu.code = .busy) (line3 : u.machine.dcu.line3 = t.machine.dcu.line3)
  /-- The code goes idle and line 3 high; the timer is not touched. -/
  | idle (he : Idles e) (timer : u.machine.dcu.timer = t.machine.dcu.timer)
      (code : u.machine.dcu.code = .idle) (line3 : u.machine.dcu.line3 = true)
  /-- Nothing of the command state changes. -/
  | quiet (ho : isOpcode e = false) (hx : e ≠ .expire) (hi : ¬Idles e)
      (same : SameCommand t.machine.dcu u.machine.dcu)

/-- Every step has one of the four effects. -/
theorem step_effect (h : BusMap.step fuel t e = some u) : Effect t e u := by
  cases e with
  | read addr =>
    cases h
    have hread : (t.read addr).2.machine.dcu = t.machine.dcu := read_dcu t.machine addr
    refine .quiet rfl (by simp) (by simp [Idles]) ?_
    rw [hread]
    exact ⟨rfl, rfl, rfl⟩
  | expire =>
    obtain ⟨harmed, htimer, hcode, hline⟩ := step_expire h
    exact .complete rfl harmed htimer hcode hline
  | reset =>
    cases h
    exact .idle (Or.inl rfl) rfl rfl rfl
  | devices chips =>
    cases h
    exact .quiet rfl (by simp) (by simp [Idles]) ⟨rfl, rfl, rfl⟩
  | write addr data =>
    cases h
    by_cases h3 : bus addr = register 3
    · have hw : (t.write addr data).2.machine.dcu = dcu_w t.machine.dcu 3 data :=
        write_register t.machine (by omega) h3
      refine .start (beq_iff_eq.mpr h3) ?_ ?_ ?_ <;> rw [hw] <;> rfl
    · by_cases h4 : bus addr = register 4
      · have hw : (t.write addr data).2.machine.dcu = dcu_w t.machine.dcu 4 data :=
          write_register t.machine (by omega) h4
        refine .idle (Or.inr ⟨addr, data, rfl, h4⟩) ?_ ?_ ?_ <;> rw [hw] <;> rfl
      · refine .quiet (beq_eq_false_iff_ne.mpr h3) (by simp) ?_ (write_other t.machine h3 h4)
        rintro (he | ⟨a, d, he, ha⟩)
        · cases he
        · cases he
          exact h4 ha

/-! ## The channel code and the timer -/

/-- The CPU has written an opcode since the last reset. -/
def opcodeSinceReset (es : List (BusMap.Event P)) : Bool :=
  es.foldl (fun b e => match e with
    | .reset => false
    | e => b || isOpcode e) false

/-- A step that completes a command: an expiry, a change of the code to done
or error, or a falling edge on line 3. -/
def Completes (t : Logged D P) (e : BusMap.Event P) (u : Logged D P) : Prop :=
  e = .expire ∨
    u.machine.dcu.code ≠ t.machine.dcu.code ∧
      (u.machine.dcu.code = .done ∨ u.machine.dcu.code = .error) ∨
    t.machine.dcu.line3 = true ∧ u.machine.dcu.line3 = false

/-- The code is busy exactly while the timer is armed, in every state of a
run, and every completion of the run has an opcode written since the last reset. -/
def StatusAgrees (fuel : ℕ) (s : Logged D P) (es : List (BusMap.Event P)) : Prop :=
  Along (BusMap.step fuel) s es
      (fun _ t => t.machine.dcu.code = .busy ↔ t.machine.dcu.timer = true) ∧
    Steps (BusMap.step fuel) s es fun pre t e =>
      ∀ u, BusMap.step fuel t e = some u → Completes t e u → opcodeSinceReset pre = true

/-- Nothing comes between a command and its timer: neither an acknowledge write
nor a reset while it is pending, nor an opcode that its own transfer writes. -/
def Undisturbed (fuel : ℕ) (t : Logged D P) (e : BusMap.Event P) : Prop :=
  (Idles e → t.machine.dcu.timer = false) ∧ SparesOpcode fuel t e

omit [Peripherals P] in
/-- One more event other than a reset counts when it is an opcode. -/
theorem opcodeSinceReset_concat (pre : List (BusMap.Event P)) (he : e ≠ .reset) :
    opcodeSinceReset (pre ++ [e]) = (opcodeSinceReset pre || isOpcode e) := by
  unfold opcodeSinceReset
  rw [List.foldl_append]
  cases e with
  | reset => exact absurd rfl he
  | read | write | expire | devices => rfl

/-- Only an expiry completes a command. -/
theorem completes_expire (h : BusMap.step fuel t e = some u) (hc : Completes t e u) :
    e = .expire := by
  rcases hc with rfl | ⟨hne, hcode⟩ | ⟨hhigh, hlow⟩
  · rfl
  · cases step_effect h with
    | complete he => exact he
    | start _ _ hb => rcases hcode with hc | hc <;> cases hb.symm.trans hc
    | idle _ _ hi => rcases hcode with hc | hc <;> cases hi.symm.trans hc
    | quiet _ _ _ same => exact absurd same.code hne
  · cases step_effect h with
    | complete he => exact he
    | start _ _ _ hl => cases hlow.symm.trans (hl.trans hhigh)
    | idle _ _ _ hl => cases hlow.symm.trans hl
    | quiet _ _ _ same => cases hlow.symm.trans (same.line3.trans hhigh)

/-- An undisturbed event keeps the code, the timer and the opcode history in agreement. -/
theorem agreement_step (hi : t.machine.dcu.code = .busy ↔ t.machine.dcu.timer = true)
    (ho : t.machine.dcu.timer = true → opcodeSinceReset pre = true) (hq : Undisturbed fuel t e)
    (h : BusMap.step fuel t e = some u) :
    (u.machine.dcu.code = .busy ↔ u.machine.dcu.timer = true) ∧
      (u.machine.dcu.timer = true → opcodeSinceReset (pre ++ [e]) = true) := by
  cases step_effect h with
  | complete he _ htimer hcode =>
    have hoff := htimer.mpr (hq.2 u he h)
    rcases hcode with hcode | hcode <;> simp [hcode, hoff]
  | start hstart htimer hcode =>
    have hne : e ≠ .reset := fun he => by
      rw [he] at hstart
      cases hstart
    rw [opcodeSinceReset_concat pre hne, hstart, hcode, htimer]
    simp
  | idle he htimer hcode =>
    have hoff := htimer.trans (hq.1 he)
    simp [hcode, hoff]
  | quiet _ _ hni same =>
    rw [opcodeSinceReset_concat pre fun hr => hni (Or.inl hr), same.code, same.timer]
    exact ⟨hi, fun ht => by rw [ho ht, Bool.true_or]⟩

/-- From power-on, the channel code agrees with the timer all along a run, and
no completion is spurious, if and only if no acknowledge write and no soft
reset of the run comes while a command is pending, and no transfer of the run
writes the opcode register. -/
theorem status_agrees_iff (fuel : ℕ) (hd : ℕ → D) (mem : Memory) (opt : UInt16)
    (eprom : ℕ → UInt8) (chips : P) (es : List (BusMap.Event P)) :
    StatusAgrees fuel (power hd mem opt eprom chips) es ↔
      Steps (BusMap.step fuel) (power hd mem opt eprom chips) es fun _ => Undisturbed fuel := by
  constructor
  · intro ⟨hcode, _⟩ pre e t hp ht
    have hi := hcode pre t ((List.prefix_append pre [e]).trans hp) ht
    have hnext : ∀ u, BusMap.step fuel t e = some u →
        (u.machine.dcu.code = .busy ↔ u.machine.dcu.timer = true) :=
      fun u hu => hcode _ u hp (run_concat_eq_some.mpr ⟨t, ht, hu⟩)
    refine ⟨fun he => ?_, fun u he hu => ?_⟩
    · obtain ⟨u, hu⟩ : ∃ u, BusMap.step fuel t e = some u := by
        rcases he with rfl | ⟨addr, data, rfl, _⟩ <;> exact ⟨_, rfl⟩
      cases step_effect hu with
      | idle _ htimer hidle =>
        have hn := hnext u hu
        rw [hidle, htimer] at hn
        exact Bool.eq_false_iff.mpr fun ht => absurd (hn.mpr ht) (by decide)
      | complete hx =>
        rcases he with rfl | ⟨addr, data, rfl, _⟩ <;> cases hx
      | start ho =>
        rcases he with rfl | ⟨addr, data, rfl, ha⟩
        · cases ho
        · exact absurd (ha.symm.trans (eq_of_beq ho)) (by decide)
      | quiet _ _ hni => exact absurd he hni
    · subst he
      obtain ⟨_, hspares, hposted, _⟩ := step_expire hu
      refine hspares.mp (Bool.eq_false_iff.mpr fun htimer => ?_)
      have hbusy := (hnext u hu).mpr htimer
      rcases hposted with hc | hc <;> cases hbusy.symm.trans hc
  · intro hq
    have hinv : Along (BusMap.step fuel) (power hd mem opt eprom chips) es fun pre t =>
        (t.machine.dcu.code = .busy ↔ t.machine.dcu.timer = true) ∧
          (t.machine.dcu.timer = true → opcodeSinceReset pre = true) :=
      Along.of_steps (by simp [power, BusMap.start, powerOn, machine_reset])
        (fun pre e t u hi he hs => agreement_step hi.1 hi.2 he hs) hq
    refine ⟨fun pre t hp ht => (hinv pre t hp ht).1, ?_⟩
    intro pre e t hp ht u hu hc
    obtain rfl := completes_expire hu hc
    exact (hinv pre t ((List.prefix_append pre _).trans hp) ht).2 (step_expire hu).1

/-- A chain of one IOCB that reads a sector into the page at the controller's registers. -/
def registerPage : Memory := fun x =>
  if x = 0x100 then DCU_C_READ else if x = 0x103 then 1 else if x = 0x10b then 2
  else if x = 0x202 then 0xd0 else 0

/-- A machine with that chain in memory and two images. -/
def registerMachine : Logged Image Unit :=
  power (fun _ => twoSectors) registerPage 0x100 (fun _ => 0) ()

/-- A guest that switches the EPROM off and starts the chain. -/
def registerRead : List (BusMap.Event Unit) :=
  [.write 0xffee00 1, .write 0xd00002 1, .write 0xd00006 DCU_C_START, .expire]

/-- Where the code and the timer are after a run of that machine. -/
def codeAndTimer (es : List (BusMap.Event Unit)) : Option (Code × Bool) :=
  (run (BusMap.step 1) registerMachine es).map fun t => (t.machine.dcu.code, t.machine.dcu.timer)

/-- Three runs in which the code and the timer part: an acknowledge write while
a command is pending; a soft reset while one is pending, after which the stale
timer completes a command that was never written; and a transfer that writes
the opcode register and leaves its command done with the timer armed. -/
theorem status_disagrees :
    ¬StatusAgrees 1 registerMachine [.write 0xd00006 DCU_C_SENSE, .write 0xd00008 0] ∧
      ¬StatusAgrees 1 registerMachine [.write 0xd00006 DCU_C_SENSE, .reset, .expire] ∧
      ¬StatusAgrees 1 registerMachine registerRead := by
  have hparts : ∀ es c, codeAndTimer es = some (c, true) → c ≠ .busy →
      ¬StatusAgrees 1 registerMachine es := by
    intro es c hrun hc ⟨h, _⟩
    obtain ⟨t, ht, hval⟩ := Option.map_eq_some_iff.mp hrun
    have hcode : t.machine.dcu.code = c := congrArg Prod.fst hval
    exact hc (hcode.symm.trans ((h es t List.prefix_rfl ht).mpr (congrArg Prod.snd hval)))
  refine ⟨hparts _ .idle (by decide +kernel) (by decide), ?_,
    hparts _ .done (by decide +kernel) (by decide)⟩
  intro ⟨_, h⟩
  have hsome : (run (BusMap.step 1) registerMachine
      ([.write 0xd00006 DCU_C_SENSE, .reset] ++ [.expire])).isSome = true := by decide +kernel
  obtain ⟨u, hu⟩ := Option.isSome_iff_exists.mp hsome
  obtain ⟨t, ht, hu⟩ := run_concat_eq_some.mp hu
  exact absurd (h _ _ t List.prefix_rfl ht u hu (Or.inl rfl)) (by decide)

end Sys16.BusCommands
