import Sys16.BusRefinement

/-!
# What the program space reads as

The log of a run determines the boot view, the memory behind the map and the
value of every read from memory or the EPROM, whoever asks: the CPU, or the
controller in the middle of a transfer, which may well go through the
registers themselves. Writes that find the EPROM or nothing are lost.
-/

namespace Sys16.BusMemory

open EventRuns StoreHistory DcuMachine MonadRelations BusMap BusRefinement

/-! ## What a log says -/

/-- A write that reaches the diagnostic control register with the ram switch. -/
def Switches (view : Bool) (addr : ℕ) (data : UInt8) : Bool :=
  match decode view addr with
  | .port .dcr _ => data >>> DCR_RAM &&& 1 == 1
  | _ => false

/-- The boot view after an access. -/
def viewAfter (view : Bool) : Access → Bool
  | .read _ _ => view
  | .write a data => view || Switches view a data
  | .reset => false

/-- The boot view after a log. -/
def viewOf (log : List Access) : Bool := log.foldl viewAfter false

/-- The byte of memory that an access stores under a boot view. -/
def landed (view : Bool) : Access → List (ℕ × UInt8)
  | .write a data =>
    match decode view a with
    | .ram x => [(x, data)]
    | _ => []
  | _ => []

/-- The bytes a log stores, from a boot view on. -/
def stored : Bool → List Access → List (ℕ × UInt8)
  | _, [] => []
  | view, e :: es => landed view e ++ stored (viewAfter view e) es

/-- What a byte of memory, of the EPROM or of nothing reads as after a log. -/
def readsAs (mem : Memory) (eprom : ℕ → UInt8) (log : List Access) (addr : ℕ) : Option UInt8 :=
  match decode (viewOf log) addr with
  | .ram x => some ((latest (stored false log) x).getD (mem x))
  | .rom o => some (eprom o)
  | .port _ _ => none
  | .unmapped => some 0

theorem viewOf_concat (log : List Access) (e : Access) :
    viewOf (log ++ [e]) = viewAfter (viewOf log) e := by
  unfold viewOf
  rw [List.foldl_append]
  rfl

theorem stored_append (view : Bool) (l : List Access) (e : Access) :
    stored view (l ++ [e]) = stored view l ++ landed (l.foldl viewAfter view) e := by
  induction l generalizing view with
  | nil => exact List.append_nil _
  | cons d l ih =>
    show landed view d ++ stored (viewAfter view d) (l ++ [e]) = _
    rw [ih]
    exact (List.append_assoc _ _ _).symm

/-- What one more access adds to the writes that land in memory. -/
theorem stored_concat (log : List Access) (e : Access) :
    stored false (log ++ [e]) = stored false log ++ landed (viewOf log) e :=
  stored_append false log e

/-! ## What the machine keeps to -/

variable {D P : Type} [Peripherals P] {s t : Logged D P} {mem : Memory} {eprom : ℕ → UInt8}
  {fuel : ℕ}

/-- The log accounts for the view, the memory and everything read. -/
structure Accounted (mem : Memory) (eprom : ℕ → UInt8) (s : Logged D P) : Prop where
  /-- The boot view. -/
  view : s.machine.view = viewOf s.log
  /-- Memory, byte by byte. -/
  mem_eq : s.machine.dcu.mem = replay mem (stored false s.log)
  /-- The EPROM. -/
  eprom_eq : s.machine.eprom = eprom
  /-- What was read. -/
  reads : ∀ pre a data post, s.log = pre ++ .read a data :: post →
    ∀ v, readsAs mem eprom pre a = some v → data = v

/-- The registers leave memory, the EPROM and the view to others. -/
theorem readPort_frame (m : Machine D P) (o : ℕ) (h : Handler) :
    (readPort m o h).2.dcu.mem = m.dcu.mem ∧ (readPort m o h).2.view = m.view ∧
      (readPort m o h).2.eprom = m.eprom := by
  cases h <;> exact ⟨rfl, rfl, rfl⟩

/-- A read changes neither memory nor the view nor the EPROM. -/
theorem read_frame (m : Machine D P) (addr : ℕ) :
    (m.read addr).2.dcu.mem = m.dcu.mem ∧ (m.read addr).2.view = m.view ∧
      (m.read addr).2.eprom = m.eprom := by
  unfold Machine.read
  split
  · exact ⟨rfl, rfl, rfl⟩
  · exact ⟨rfl, rfl, rfl⟩
  · exact readPort_frame m _ _
  · exact ⟨rfl, rfl, rfl⟩

theorem dcu_w_mem (d : Dcu D) (offset : ℕ) (data : UInt8) : (dcu_w d offset data).mem = d.mem := by
  unfold dcu_w
  split <;> rfl

/-- A write to a port reaches neither memory nor EPROM, and the view only through the
`ram` switch. -/
theorem writePort_frame (m : Machine D P) (o : ℕ) (data : UInt8) (h : Handler) :
    (writePort m o data h).dcu.mem = m.dcu.mem ∧
      (writePort m o data h).view =
        (m.view || match Target.port h o with
          | .port .dcr _ => data >>> DCR_RAM &&& 1 == 1
          | _ => false) ∧
      (writePort m o data h).eprom = m.eprom := by
  cases h with
  | dcu => exact ⟨dcu_w_mem m.dcu o data, (Bool.or_false _).symm, rfl⟩
  | dcr => exact ⟨rfl, rfl, rfl⟩
  | view | ram | rom | nmi | opt | chip => exact ⟨rfl, (Bool.or_false _).symm, rfl⟩

/-- A read adds an entry that tells the truth. -/
theorem accounted_read (h : Accounted mem eprom s) (addr : ℕ) :
    Accounted mem eprom (s.read addr).2 := by
  obtain ⟨hmem, hview, heprom⟩ := read_frame s.machine addr
  have hadded : viewAfter (viewOf s.log) (.read (u32 addr) (s.machine.read addr).1) =
    viewOf s.log := rfl
  refine ⟨?_, ?_, heprom.trans h.eprom_eq, fun pre a data post hlog v hv => ?_⟩
  · show (s.machine.read addr).2.view = viewOf (s.log ++ [_])
    rw [viewOf_concat, hview, h.view]
    rfl
  · show (s.machine.read addr).2.dcu.mem = replay mem (stored false (s.log ++ [_]))
    rw [stored_concat, hmem, h.mem_eq]
    exact congrArg (replay mem) (List.append_nil _).symm
  · rcases concat_split hlog with ⟨rfl, he, _⟩ | ⟨post', _, hold⟩
    · cases he
      unfold readsAs at hv
      rw [decode_u32, ← h.view] at hv
      unfold Machine.read
      cases hd : decode s.machine.view addr with
      | ram x =>
        rw [hd] at hv
        cases hv
        rw [← replay_apply, ← h.mem_eq]
      | rom o =>
        rw [hd] at hv
        cases hv
        exact congrFun h.eprom_eq o
      | port p o =>
        rw [hd] at hv
        cases hv
      | unmapped =>
        rw [hd] at hv
        cases hv
        rfl
    · exact h.reads pre a data post' hold v hv

/-- A write adds an entry, and does what the entry says. -/
theorem accounted_write (h : Accounted mem eprom s) (addr : ℕ) (data : UInt8) :
    Accounted mem eprom (s.write addr data).2 := by
  have hlanded : (s.machine.write addr data).dcu.mem =
        replay s.machine.dcu.mem (landed s.machine.view (.write (u32 addr) data)) ∧
      (s.machine.write addr data).view = viewAfter s.machine.view (.write (u32 addr) data) ∧
      (s.machine.write addr data).eprom = s.machine.eprom := by
    unfold Machine.write landed viewAfter Switches
    dsimp only
    rw [decode_u32]
    cases hd : decode s.machine.view addr with
    | ram x => exact ⟨rfl, (Bool.or_false _).symm, rfl⟩
    | rom o => exact ⟨rfl, (Bool.or_false _).symm, rfl⟩
    | port p o => exact writePort_frame s.machine o data p
    | unmapped => exact ⟨rfl, (Bool.or_false _).symm, rfl⟩
  obtain ⟨hmem, hview, heprom⟩ := hlanded
  refine ⟨?_, ?_, heprom.trans h.eprom_eq, fun pre a d post hlog v hv => ?_⟩
  · show (s.machine.write addr data).view = viewOf (s.log ++ [_])
    rw [viewOf_concat, hview, h.view]
  · show (s.machine.write addr data).dcu.mem = replay mem (stored false (s.log ++ [_]))
    rw [stored_concat, hmem, h.mem_eq, replay_append, h.view]
  · rcases concat_split hlog with ⟨_, he, _⟩ | ⟨post', _, hold⟩
    · cases he
    · exact h.reads pre a d post' hold v hv

omit [Peripherals P] in
/-- Whatever keeps memory, the view, the EPROM and the log. -/
theorem accounted_of_eq (h : Accounted mem eprom s) (hlog : t.log = s.log)
    (hmem : t.machine.dcu.mem = s.machine.dcu.mem) (hview : t.machine.view = s.machine.view)
    (heprom : t.machine.eprom = s.machine.eprom) : Accounted mem eprom t := by
  obtain ⟨h1, h2, h3, h4⟩ := h
  rw [← hlog] at h1 h2 h4
  exact ⟨hview.trans h1, hmem.trans h2, heprom.trans h3, h4⟩

omit [Peripherals P] in
/-- A reset selects the EPROM and leaves memory as it was. -/
theorem accounted_reset (h : Accounted mem eprom s) :
    Accounted mem eprom ⟨BusMap.reset s.machine, s.log ++ [.reset]⟩ := by
  refine ⟨?_, ?_, h.eprom_eq, fun pre a d post hlog v hv => ?_⟩
  · show false = viewOf (s.log ++ [_])
    rw [viewOf_concat]
    rfl
  · show s.machine.dcu.mem = replay mem (stored false (s.log ++ [_]))
    rw [stored_concat, h.mem_eq]
    exact congrArg (replay mem) (List.append_nil _).symm
  · rcases concat_split hlog with ⟨_, he, _⟩ | ⟨post', _, hold⟩
    · cases he
    · exact h.reads pre a d post' hold v hv

/-- The accesses of a command are accounted for like those of the CPU. -/
theorem accessing_accounted :
    Accessing (keeping (Accounted (D := D) (P := P) mem eprom) (StateM (Dcu D))) where
  read addr _ hs := accounted_read hs addr
  write addr data _ hs := accounted_write hs addr data
  dcu hf s hs := accounted_of_eq hs rfl (hf.mem s.machine.dcu) rfl rfl

variable [HardDisk D]

/-- One event keeps the account. -/
theorem accounted_step {e : BusMap.Event P} (h : Accounted mem eprom s)
    (hstep : BusMap.step fuel s e = some t) : Accounted mem eprom t := by
  cases e with
  | read addr =>
    cases hstep
    exact accounted_read h addr
  | write addr data =>
    cases hstep
    exact accounted_write h addr data
  | expire =>
    unfold BusMap.step at hstep
    split_ifs at hstep with htimer
    obtain ⟨_, _, rfl⟩ := Option.map_eq_some_iff.mp hstep
    exact rel_complete accessing_accounted fuel _ (accounted_of_eq h rfl rfl rfl rfl)
  | reset =>
    cases hstep
    exact accounted_reset h
  | devices chips =>
    cases hstep
    exact accounted_of_eq h rfl rfl rfl rfl

/-! ## The boot view -/

/-- The diagnostic control register answers at one address. -/
theorem decode_dcr (view : Bool) (a : ℕ) :
    (∃ o, decode view a = .port .dcr o) ↔ bus a = 0xffee00 := by
  refine ⟨fun ⟨o, ho⟩ => ?_, fun ha => ⟨0, ?_⟩⟩
  · obtain ⟨r, hr, hfirst, hlast, hhandler, hlow⟩ := decode_port ho
    have hentry : ∀ r ∈ cpu_map, r.handler = .dcr →
        r.first = 0xffee00 ∧ r.last = 0xffee01 ∧ r.low = true := by decide
    obtain ⟨hstart, hend, hodd⟩ := hentry r hr hhandler
    obtain ⟨hparity, _⟩ := hlow hodd
    omega
  · unfold decode
    rw [ha]
    rfl

/-- The RAM view is switched on at the diagnostic control register only. -/
theorem switches_iff (view : Bool) (a : ℕ) (data : UInt8) :
    Switches view a data = true ↔ bus a = 0xffee00 ∧ data &&& 1 = 1 := by
  have hbit : (data >>> DCR_RAM &&& 1 == 1) = true ↔ data &&& 1 = 1 := by
    rw [beq_iff_eq, show data >>> DCR_RAM = data from UInt8.shiftRight_zero]
  rw [← decode_dcr view, ← hbit]
  unfold Switches
  split
  · next o ho => exact ⟨fun h => ⟨⟨o, ho⟩, h⟩, And.right⟩
  · next hno => exact ⟨fun h => absurd h Bool.false_ne_true, fun ⟨⟨o, ho⟩, _⟩ => absurd ho (hno o)⟩

/-- View 1 is selected exactly when the ram switch has been written since the
last reset. -/
theorem viewOf_iff (log : List Access) : viewOf log = true ↔
    ∃ pre a data post, log = pre ++ .write a data :: post ∧ .reset ∉ post ∧
      bus a = 0xffee00 ∧ data &&& 1 = 1 := by
  induction log using List.reverseRecOn with
  | nil =>
    refine ⟨fun h => absurd h Bool.false_ne_true, fun ⟨pre, a, data, post, h, _⟩ => ?_⟩
    exact absurd h.symm (List.append_ne_nil_of_right_ne_nil pre (List.cons_ne_nil _ post))
  | append_singleton log e ih =>
    rw [viewOf_concat]
    -- a switch further back counts as long as the new entry is no reset
    have hback (he : e ≠ .reset) (h : viewOf log = true) : ∃ pre a data post,
        log ++ [e] = pre ++ .write a data :: post ∧ .reset ∉ post ∧ bus a = 0xffee00 ∧
          data &&& 1 = 1 := by
      obtain ⟨pre, a, data, post, hlog, hpost, hswitch⟩ := ih.mp h
      refine ⟨pre, a, data, post ++ [e], by rw [hlog, List.append_assoc]; rfl, fun hm => ?_,
        hswitch⟩
      exact (List.mem_append.mp hm).elim hpost fun h => he (List.mem_singleton.mp h).symm
    have hsplit {pre a data post} (h : log ++ [e] = pre ++ .write a data :: post)
        (hpost : Access.reset ∉ post) (hswitch : bus a = 0xffee00 ∧ data &&& 1 = 1) :
        (e = .write a data ∧ Switches (viewOf log) a data = true) ∨
          (viewOf log = true ∧ e ≠ .reset) := by
      rcases concat_split h with ⟨_, he, _⟩ | ⟨post', hpost', hlog⟩
      · exact Or.inl ⟨he.symm, (switches_iff _ a data).mpr hswitch⟩
      · refine Or.inr ⟨ih.mpr ⟨pre, a, data, post', hlog, fun hm => hpost ?_, hswitch⟩, ?_⟩
        · exact hpost' ▸ List.mem_append_left [e] hm
        · rintro rfl
          exact hpost (hpost' ▸ List.mem_append_right post' (List.mem_singleton_self _))
    refine ⟨fun h => ?_, fun ⟨pre, a, data, post, h, hpost, hswitch⟩ => ?_⟩
    · cases e with
      | read a data => exact hback (fun he => nomatch he) h
      | write a data =>
        rcases (Bool.or_eq_true _ _).mp h with hold | hnew
        · exact hback (fun he => nomatch he) hold
        · exact ⟨log, a, data, [], rfl, List.not_mem_nil, (switches_iff _ a data).mp hnew⟩
      | reset => cases h
    · rcases hsplit h hpost hswitch with ⟨rfl, hnew⟩ | ⟨hold, he⟩
      · exact (Bool.or_eq_true _ _).mpr (Or.inr hnew)
      · cases e with
        | read => exact hold
        | write => exact (Bool.or_eq_true _ _).mpr (Or.inl hold)
        | reset => exact absurd rfl he

/-! ## Runs -/

variable {hd : ℕ → D} {opt : UInt16} {chips : P} {es : List (BusMap.Event P)}

/-- In every run from power-on, memory holds what the log stored in it, the
EPROM never changes, the view is the one the log selects, and every read of
memory, of the EPROM or of nothing returned what the log before it says,
whoever made the accesses. -/
theorem program_space_accounted
    (h : run (BusMap.step fuel) (power hd mem opt eprom chips) es = some t) :
    t.machine.dcu.mem = replay mem (stored false t.log) ∧
      t.machine.eprom = patchRom eprom ∧
      (t.machine.view = true ↔ ∃ pre a data post, t.log = pre ++ .write a data :: post ∧
        .reset ∉ post ∧ bus a = 0xffee00 ∧ data &&& 1 = 1) ∧
      ∀ pre a data post, t.log = pre ++ .read a data :: post →
        ∀ v, readsAs mem (patchRom eprom) pre a = some v → data = v := by
  have hstart : Accounted mem (patchRom eprom) (power hd mem opt eprom chips) := by
    refine ⟨rfl, rfl, rfl, fun pre a data post hlog => ?_⟩
    exact absurd hlog.symm (List.append_ne_nil_of_right_ne_nil pre (List.cons_ne_nil _ post))
  have hend := run_invariant hstart (fun _ _ _ _ hI hs => accounted_step hI hs) h
  refine ⟨hend.mem_eq, hend.eprom_eq, ?_, hend.reads⟩
  rw [hend.view]
  exact viewOf_iff t.log

/-- The guest's sector, as its log tells of it. -/
theorem program_space_accounted_guest :
    ∃ t, run (BusMap.step 1) guestMachine guestRead = some t ∧ t.machine.view = true ∧
      t.machine.dcu.mem =
        replay (DcuSectorStore.oneSector DCU_C_READ 1 0) (stored false t.log) := by
  have hrun : (run (BusMap.step 1) guestMachine guestRead).any
      (fun t => t.machine.view) = true := by decide +kernel
  obtain ⟨t, ht, hview⟩ := (Option.any_eq_true _ _).mp hrun
  exact ⟨t, ht, hview, (program_space_accounted ht).1⟩

end Sys16.BusMemory
