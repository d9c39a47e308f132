import Sys16.BusCommands

/-!
# The disk interrupt line

ICU line 3 is edge triggered: a completion that finds the line low is lost.
The line is driven by the reset, the acknowledge write and the completion.
For a guest that starts a command only when the previous completion has been
acknowledged, the line is high whenever a command is pending, and every
completion is one falling edge with no other, just as long as no transfer
writes the opcode register: a command that is started so is pending behind a
line that its own transfer leaves low.
-/

namespace Sys16.BusInterrupt

open EventRuns DcuMachine MonadRelations BusMap BusRefinement BusCommands

variable {D P : Type} {s t u : Logged D P} {fuel : ℕ} {pre es : List (BusMap.Event P)}
  {e : BusMap.Event P}

/-- Line 3 goes from high to low between two states. -/
def Falls (t u : Logged D P) : Prop :=
  t.machine.dcu.line3 = true ∧ u.machine.dcu.line3 = false

/-- The latest completion, if there has been one, has been followed by an
acknowledge write or a reset. -/
def Acknowledged (pre : List (BusMap.Event P)) : Prop :=
  ∀ before after, pre = before ++ .expire :: after → .expire ∉ after → ∃ e ∈ after, Idles e

/-- The guest writes an opcode only when the latest completion has been acknowledged. -/
def AcknowledgesFirst (es : List (BusMap.Event P)) : Prop :=
  ∀ pre e post, es = pre ++ e :: post → isOpcode e = true → Acknowledged pre

/-- How the line, the pending command and the acknowledgements belong together. -/
structure LineAgrees (pre : List (BusMap.Event P)) (t : Logged D P) : Prop where
  /-- A pending command has the line high. -/
  pending : t.machine.dcu.timer = true → t.machine.dcu.line3 = true
  /-- The line is low only after a completion that has not been acknowledged. -/
  acknowledged : Acknowledged pre → t.machine.dcu.line3 = true

/-- A completion has not been acknowledged at once. -/
theorem not_acknowledged_completion (pre : List (BusMap.Event P)) :
    ¬Acknowledged (pre ++ [.expire]) := by
  intro h
  obtain ⟨e, he, _⟩ := h pre [] rfl List.not_mem_nil
  cases he

/-- An event that neither completes nor acknowledges does not count as an acknowledgement. -/
theorem acknowledged_of_concat (hx : e ≠ .expire) (hi : ¬Idles e)
    (h : Acknowledged (pre ++ [e])) : Acknowledged pre := by
  intro before after hpre hlast
  have hsplit : pre ++ [e] = before ++ .expire :: (after ++ [e]) := by simp [hpre]
  have hnone : .expire ∉ after ++ [e] := by simp [hlast, Ne.symm hx]
  obtain ⟨e', he', hidle⟩ := h before (after ++ [e]) hsplit hnone
  rcases List.mem_append.mp he' with he' | he'
  · exact ⟨e', he', hidle⟩
  · obtain rfl := List.mem_singleton.mp he'
    exact absurd hidle hi

/-- An event that acknowledges leaves the latest completion acknowledged. -/
theorem acknowledged_concat_idles (pre : List (BusMap.Event P)) (hi : Idles e) :
    Acknowledged (pre ++ [e]) := by
  intro before after hpre _
  have hx : e ≠ .expire := by
    rintro rfl
    rcases hi with hi | ⟨_, _, hi, _⟩ <;> cases hi
  refine ⟨e, ?_, hi⟩
  rcases List.eq_nil_or_concat after with rfl | ⟨front, last, rfl⟩
  · exact absurd (List.append_inj_right' hpre rfl) (by simpa using hx)
  · rw [List.concat_eq_append] at hpre ⊢
    rw [← List.cons_append, ← List.append_assoc] at hpre
    have hlast := List.append_inj_right' hpre rfl
    rw [List.singleton_inj.mp hlast]
    exact List.mem_append_right front (List.mem_singleton_self last)

/-- Before the first completion there is nothing to acknowledge. -/
theorem acknowledged_of_notMem (h : .expire ∉ pre) : Acknowledged pre := by
  intro before after hpre _
  exact absurd (hpre ▸ List.mem_append_right before List.mem_cons_self) h

/-- The opcodes of a run, looked for by their places. -/
theorem acknowledgesFirst_of_places (h : ∀ n < es.length,
    (es.drop n).head?.any isOpcode = true → Acknowledged (es.take n)) : AcknowledgesFirst es := by
  intro pre e post hes ho
  have hlen : pre.length < es.length := by
    rw [hes, List.length_append, List.length_cons]
    omega
  have hpre := h pre.length hlen (by rw [hes, List.drop_left]; exact ho)
  rwa [hes, List.take_left] at hpre

variable [Peripherals P] [HardDisk D]

/-- The line is high in every state with a command pending, a completion makes
it fall, and nothing else does. -/
def OneEdge (fuel : ℕ) (s : Logged D P) (es : List (BusMap.Event P)) : Prop :=
  (Along (BusMap.step fuel) s es fun _ t =>
      t.machine.dcu.timer = true → t.machine.dcu.line3 = true) ∧
    Steps (BusMap.step fuel) s es fun _ t e =>
      ∀ u, BusMap.step fuel t e = some u → (Falls t u ↔ e = .expire)

/-- An event keeps the line in agreement, when an opcode comes after an
acknowledgement and from the CPU. -/
theorem step_lineAgrees (h : LineAgrees pre t) (ho : isOpcode e = true → Acknowledged pre)
    (hspares : SparesOpcode fuel t e) (hs : BusMap.step fuel t e = some u) :
    LineAgrees (pre ++ [e]) u := by
  cases step_effect hs with
  | complete he _ htimer _ _ =>
    have hoff := htimer.mpr (hspares u he hs)
    subst he
    exact ⟨fun hu => absurd (hoff.symm.trans hu) (by decide),
      fun hack => absurd hack (not_acknowledged_completion pre)⟩
  | start hstart _ _ hline =>
    have hhigh : u.machine.dcu.line3 = true := hline.trans (h.acknowledged (ho hstart))
    exact ⟨fun _ => hhigh, fun _ => hhigh⟩
  | idle _ _ _ hline => exact ⟨fun _ => hline, fun _ => hline⟩
  | quiet _ hx hi same =>
    exact ⟨fun hu => same.line3.trans (h.pending (same.timer.symm.trans hu)),
      fun hack => same.line3.trans (h.acknowledged (acknowledged_of_concat hx hi hack))⟩

/-- A completion that finds the line high is a falling edge, and no other event is one. -/
theorem falls_iff (hp : t.machine.dcu.timer = true → t.machine.dcu.line3 = true)
    (hs : BusMap.step fuel t e = some u) : Falls t u ↔ e = .expire := by
  constructor
  · intro hf
    exact completes_expire hs (Or.inr (Or.inr hf))
  · intro he
    subst he
    obtain ⟨harmed, _, _, hlow⟩ := step_expire hs
    exact ⟨hp harmed, hlow⟩

/-- From power-on, when the guest writes every opcode after the latest
completion has been acknowledged, the line is high in every state with a
command pending, a completion makes it fall and nothing else does, if and only
if no transfer of the run writes the opcode register. -/
theorem completion_is_falling_edge {hd : ℕ → D} {mem : Memory} {opt : UInt16} {eprom : ℕ → UInt8}
    {chips : P} (hq : AcknowledgesFirst es) :
    OneEdge fuel (power hd mem opt eprom chips) es ↔
      Steps (BusMap.step fuel) (power hd mem opt eprom chips) es fun _ => SparesOpcode fuel := by
  constructor
  · intro ⟨hline, _⟩ pre e t hp ht u he hu
    subst he
    obtain ⟨_, hspares, _, hlow⟩ := step_expire hu
    refine hspares.mp (Bool.eq_false_iff.mpr fun htimer => ?_)
    have hhigh := hline _ u hp (run_concat_eq_some.mpr ⟨t, ht, hu⟩) htimer
    exact Bool.false_ne_true (hlow.symm.trans hhigh)
  · intro hspares
    have hinv : Along (BusMap.step fuel) (power hd mem opt eprom chips) es fun pre t =>
        LineAgrees pre t := by
      refine Along.of_steps ⟨fun _ => rfl, fun _ => rfl⟩
        (fun pre e t u hi he hs => step_lineAgrees hi he.1 he.2 hs)
        (Q := fun pre t e => (isOpcode e = true → Acknowledged pre) ∧ SparesOpcode fuel t e) ?_
      intro pre e t hp ht
      obtain ⟨post, hpost⟩ := id hp
      refine ⟨fun ho => hq pre e post ?_ ho, hspares pre e t hp ht⟩
      rw [← hpost, List.append_assoc, List.singleton_append]
    refine ⟨fun pre t hp ht => (hinv pre t hp ht).pending, ?_⟩
    intro pre e t hp ht u hu
    exact falls_iff (hinv pre t ((List.prefix_append pre [e]).trans hp) ht).pending hu

/-- The guest that reads a sector into memory, acknowledges it, and sends a
sense command with an early acknowledge of its own. -/
def guestTwice : List (BusMap.Event Unit) :=
  guestRead ++ [.write 0xd00008 0, .write 0xd00006 DCU_C_SENSE, .write 0xd00008 0, .expire]

theorem guestTwice_acknowledges : AcknowledgesFirst guestTwice := by
  have hopcodes : ∀ n < guestTwice.length,
      (guestTwice.drop n).head?.any isOpcode = true → n = 2 ∨ n = 5 := by decide
  refine acknowledgesFirst_of_places fun n hn ho => ?_
  rcases hopcodes n hn ho with rfl | rfl
  · exact acknowledged_of_notMem (by simp [guestTwice, guestRead])
  · exact acknowledged_concat_idles (guestTwice.take 4) (Or.inr ⟨_, 0, rfl, rfl⟩)

/-- The guest's two completions are two falling edges: no transfer of its run
comes near the registers. -/
theorem completion_is_falling_edge_guest : OneEdge 1 guestMachine guestTwice := by
  have hstays : staysInMemory 1 guestWaiting = true := by decide +kernel
  refine (completion_is_falling_edge guestTwice_acknowledges).mpr ?_
  refine steps_cons (fun _ he => nomatch he) fun t1 h1 => ?_
  refine steps_cons (fun _ he => nomatch he) fun t2 h2 => ?_
  refine steps_cons (fun _ he => nomatch he) fun t3 h3 => ?_
  cases h1
  cases h2
  cases h3
  refine steps_cons (sparesOpcode_of_inMemory (staysInMemory_sound hstays _)) fun t4 h4 => ?_
  refine steps_cons (fun _ he => nomatch he) fun t5 h5 => ?_
  refine steps_cons (fun _ he => nomatch he) fun t6 h6 => ?_
  refine steps_cons (fun _ he => nomatch he) fun t7 h7 => ?_
  cases h6
  cases h7
  refine steps_cons (sparesOpcode_of_op ?_) fun _ _ => steps_nil _
  have hsense : (t5.machine.write 0xd00006 DCU_C_SENSE).dcu =
      dcu_w t5.machine.dcu 3 DCU_C_SENSE := write_register t5.machine (by omega) rfl
  have hack : ((t5.machine.write 0xd00006 DCU_C_SENSE).write 0xd00008 0).dcu =
      dcu_w (dcu_w t5.machine.dcu 3 DCU_C_SENSE) 4 0 := by
    rw [write_register (k := 4) _ (by omega) rfl, hsense]
  show ((t5.machine.write 0xd00006 DCU_C_SENSE).write 0xd00008 0).dcu.op ≠ DCU_C_START
  rw [hack]
  exact (by decide : DCU_C_SENSE ≠ DCU_C_START)

/-- A guest that has acknowledged everything, and whose transfer leaves a
command pending behind a low line. -/
theorem register_read_lost :
    ¬∀ es, AcknowledgesFirst es → OneEdge 1 registerMachine es := by
  intro h
  have hfirst : AcknowledgesFirst registerRead := by
    have hopcodes : ∀ n < registerRead.length,
        (registerRead.drop n).head?.any isOpcode = true → n = 2 := by decide
    refine acknowledgesFirst_of_places fun n hn ho => acknowledged_of_notMem ?_
    rw [hopcodes n hn ho]
    simp [registerRead]
  have hrun : (run (BusMap.step 1) registerMachine registerRead).map
      (fun t => (t.machine.dcu.timer, t.machine.dcu.line3)) = some (true, false) := by
    decide +kernel
  obtain ⟨t, ht, hval⟩ := Option.map_eq_some_iff.mp hrun
  have htimer : t.machine.dcu.timer = true := congrArg Prod.fst hval
  have hline := (h registerRead hfirst).1 registerRead t List.prefix_rfl ht htimer
  exact Bool.false_ne_true ((congrArg Prod.snd hval).symm.trans hline)

end Sys16.BusInterrupt
