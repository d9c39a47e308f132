import Mathlib.Data.Set.Basic
import Sys16.BusMap
import Sys16.DcuCommands
import Sys16.DcuSectorStore

/-!
# The controller on the bus and the controller over flat memory

Every relation between programs that respects `pure` and `bind`, and holds of
the byte accesses and of work on the controller's own state, holds of a whole
command. One such relation takes the controller on the program space to the
controller over flat memory: as long as a command touches no address but main
memory that can be seen under the boot view, both do the same, so the events
of the machine are events of the controller model.
-/

namespace Sys16.BusRefinement

open Function EventRuns DcuMachine DcuCommands MonadRelations BusMap

variable {D P : Type} {s t u : Logged D P} {fuel : ℕ}

/-! ## Commands under a relation -/

/-- Work on the controller that leaves memory and the command timer alone. -/
structure Inner {α : Type} (f : Dcu D → α × Dcu D) : Prop where
  mem : ∀ s, (f s).2.mem = s.mem
  timer : ∀ s, (f s).2.timer = s.timer

/-- A relation that holds of the accesses to memory and of the controller's
work on its own state. -/
structure Accessing {m n : Type → Type} [Monad m] [Monad n] [Space m D] [Space n D]
    (R : Logical m n) : Prop where
  read : ∀ addr, R.rel (Space.read_byte addr) (Space.read_byte addr)
  write : ∀ addr data, R.rel (Space.write_byte addr data) (Space.write_byte addr data)
  dcu : ∀ {α : Type} {f : Dcu D → α × Dcu D}, Inner f → R.rel (Space.dcu f) (Space.dcu f)

section Inner

variable [HardDisk D]

/-- A drive is written to inside the controller. -/
theorem inner_driveWrite (unit lba : ℕ) (buffer : Sector) :
    Inner (driveWrite (D := D) unit lba buffer) :=
  ⟨fun _ => rfl, fun _ => rfl⟩

/-- So is it read. -/
theorem inner_driveRead (unit lba : ℕ) : Inner (driveRead (D := D) unit lba) :=
  ⟨fun _ => rfl, fun _ => rfl⟩

/-- Looking for the header of a pack does not touch main memory. -/
theorem geometry_keeps_mem (s : Dcu D) (unit : ℕ) : (dcu_geometry s unit).mem = s.mem := by
  unfold dcu_geometry
  split
  · rfl
  · dsimp only
    split <;> rfl

/-- Where a transfer starts is found inside the controller. -/
theorem inner_locate (c : Iocb) : Inner (locate (D := D) c) := by
  refine ⟨fun s => ?_, fun s => ?_⟩ <;> unfold locate <;> split
  · exact geometry_keeps_mem s c.unit
  · rfl
  · exact (dcu_geometry_registers s c.unit).timer
  · rfl

/-- A command that is no transfer leaves main memory alone. -/
theorem execute_keeps_mem {s t : Dcu D} {ok : Bool}
    (h : DcuMachine.dcu_execute 0 s = some (t, ok)) : t.mem = s.mem := by
  unfold DcuMachine.dcu_execute at h
  split_ifs at h with h1 h2 h3 h4 h5
  · cases h
    rfl
  · cases h
    rfl
  · dsimp only at h
    split_ifs at h with hu
    · cases h
      exact geometry_keeps_mem { s with unit := dcu_arg s >>> 13 } (dcu_arg s >>> 13)
    · cases h
      rfl
  · cases h
    rfl
  · cases h
  · cases h
    rfl

/-- So it is run inside the controller as well. -/
theorem inner_immediate : Inner (dcu_immediate (D := D)) := by
  refine ⟨fun s => ?_, fun s => ?_⟩ <;> unfold dcu_immediate <;> split
  · next h => exact execute_keeps_mem h
  · rfl
  · next h => exact (dcu_execute_registers h).timer
  · rfl

/-- Posting the end of a command is a matter of the controller, too. -/
theorem inner_post {D : Type} (ok : Bool) : Inner (dcu_post (D := D) ok) :=
  ⟨fun _ => rfl, fun _ => rfl⟩

end Inner

section Related

variable {m n : Type → Type} [Monad m] [Monad n] [Space m D] [Space n D] [HardDisk D]
  {R : Logical m n}

omit [HardDisk D] in
/-- Related spaces give related words of two bytes. -/
theorem rel_read_u16 (h : Accessing R) (addr : ℕ) : R.rel (read_u16 addr) (read_u16 addr) := by
  refine R.rel_bind (h.read addr) fun b0 => ?_
  refine R.rel_bind (h.read (addr + 1)) fun b1 => ?_
  exact R.rel_pure _

omit [HardDisk D] in
/-- And of four. -/
theorem rel_read_u32 (h : Accessing R) (addr : ℕ) : R.rel (read_u32 addr) (read_u32 addr) := by
  refine R.rel_bind (h.read addr) fun b0 => ?_
  refine R.rel_bind (h.read (addr + 1)) fun b1 => ?_
  refine R.rel_bind (h.read (addr + 2)) fun b2 => ?_
  refine R.rel_bind (h.read (addr + 3)) fun b3 => ?_
  exact R.rel_pure _

omit [HardDisk D] in
/-- An IOCB is read through byte accesses alone. -/
theorem rel_readIocb (h : Accessing R) (iocb : ℕ) :
    R.rel (BusMap.readIocb iocb) (BusMap.readIocb iocb) := by
  refine R.rel_bind (h.read _) fun opcode => ?_
  refine R.rel_bind (h.read _) fun count => ?_
  refine R.rel_bind (rel_read_u16 h _) fun cylinder => ?_
  refine R.rel_bind (rel_read_u16 h _) fun drhdsec => ?_
  refine R.rel_bind (rel_read_u32 h _) fun table => ?_
  refine R.rel_bind (rel_read_u32 h _) fun chain => ?_
  exact R.rel_pure _

omit [HardDisk D] in
/-- So is a page. -/
theorem rel_readPage (h : Accessing R) (addr : ℕ) : R.rel (readPage addr) (readPage addr) :=
  R.rel_foldlM (fun _ _ => R.rel_bind (h.read _) fun _ => R.rel_pure _) _ _

omit [HardDisk D] in
/-- A page is written through byte accesses alone. -/
theorem rel_writePage (h : Accessing R) (addr : ℕ) (buffer : Sector) :
    R.rel (writePage addr buffer) (writePage addr buffer) :=
  R.rel_foldlM (fun _ _ => h.write _ _) _ _

/-- One sector moves alike over related spaces, whichever way it goes. -/
theorem rel_sector (h : Accessing R) (unit : ℕ) (opcode : UInt8) (addr lba : ℕ) :
    R.rel (BusMap.dcu_sector unit opcode addr lba) (BusMap.dcu_sector unit opcode addr lba) := by
  refine R.rel_ite (fun _ => ?_) fun _ => ?_
  · have hbuffer : R.rel (dcu_buffer opcode addr) (dcu_buffer opcode addr) :=
      R.rel_ite (fun _ => R.rel_pure _) fun _ => rel_readPage h addr
    exact R.rel_bind hbuffer fun buffer => h.dcu (inner_driveWrite unit lba buffer)
  · refine R.rel_bind (h.dcu (inner_driveRead unit lba)) fun r => ?_
    cases r with
    | none => exact R.rel_pure false
    | some buffer => exact R.rel_bind (rel_writePage h addr buffer) fun _ => R.rel_pure true

/-- So does a run of sectors, up to the same refusal. -/
theorem rel_sectors (h : Accessing R) (unit : ℕ) (opcode : UInt8) (table count i lba : ℕ)
    (resid : UInt8) : R.rel (BusMap.dcu_sectors unit opcode table count i lba resid)
      (BusMap.dcu_sectors unit opcode table count i lba resid) := by
  induction count generalizing i lba resid with
  | zero => exact R.rel_pure _
  | succ count ih =>
    refine R.rel_bind (rel_read_u32 h _) fun addr => ?_
    refine R.rel_bind (rel_sector h unit opcode addr lba) fun ok => ?_
    exact R.rel_ite (fun _ => ih _ _ _) fun _ => R.rel_pure _

/-- A round of the chain loop ends alike over related spaces. -/
theorem rel_iocb (h : Accessing R) (iocb : ℕ) :
    R.rel (BusMap.dcu_iocb iocb) (BusMap.dcu_iocb iocb) := by
  refine R.rel_bind (rel_readIocb h iocb) fun c => ?_
  have haccess : R.rel (BusMap.dcu_access c) (BusMap.dcu_access c) := by
    refine R.rel_bind (h.dcu (inner_locate c)) fun lba => ?_
    cases lba with
    | none => exact R.rel_pure _
    | some lba => exact rel_sectors h _ _ _ _ _ _ _
  refine R.rel_bind haccess fun r => ?_
  refine R.rel_bind (h.write _ _) fun _ => ?_
  refine R.rel_ite (fun _ => ?_) fun _ => R.rel_bind (h.write _ _) fun _ => R.rel_pure _
  cases c.next with
  | none => exact R.rel_bind (h.write _ _) fun _ => R.rel_pure _
  | some iocb' => exact R.rel_bind (h.write _ _) fun _ => R.rel_pure _

/-- So does the whole loop, by induction on the rounds. -/
theorem rel_transfer (h : Accessing R) (fuel iocb : ℕ) :
    R.rel (BusMap.dcu_transfer fuel iocb) (BusMap.dcu_transfer fuel iocb) := by
  induction fuel generalizing iocb with
  | zero => exact R.rel_pure none
  | succ fuel ih =>
    refine R.rel_bind (rel_iocb h iocb) fun l => ?_
    cases l with
    | next iocb' => exact ih iocb'
    | stop ok => exact R.rel_pure (some ok)

/-- A whole command is related to itself. -/
theorem rel_complete (h : Accessing R) (fuel : ℕ) :
    R.rel (BusMap.dcu_complete fuel) (BusMap.dcu_complete fuel) := by
  have hlatch : Inner fun s : Dcu D => ((s.op, dcu_arg s), s) := ⟨fun _ => rfl, fun _ => rfl⟩
  have hexec : R.rel (BusMap.dcu_execute fuel) (BusMap.dcu_execute fuel) := by
    refine R.rel_bind (h.dcu hlatch) fun latched => ?_
    exact R.rel_ite (fun _ => rel_transfer h fuel latched.2) fun _ => h.dcu inner_immediate
  refine R.rel_bind hexec fun ok => ?_
  cases ok with
  | none => exact R.rel_pure none
  | some ok => exact h.dcu (inner_post ok)

end Related

/-! ## The controller over flat memory -/

section Flat

variable (s : Dcu D)

/-- Over a flat array, a word is the one of memory. -/
theorem flat_read_u32 (addr : ℕ) :
    (read_u32 addr : StateM (Dcu D) ℕ) s = (s.mem.read_u32 addr, s) := rfl

/-- So is an IOCB. -/
theorem flat_readIocb (iocb : ℕ) :
    (BusMap.readIocb iocb : StateM (Dcu D) Iocb) s = (DcuMachine.readIocb s.mem iocb, s) := rfl

/-- Filling a buffer, for the places a loop has been through. -/
theorem flat_readPage_fold (addr : ℕ) (l : List (Fin 512)) (buffer : Sector) :
    ∃ filled, (l.foldlM (fun buffer (b : Fin 512) => do
      let v ← Space.read_byte (addr + b)
      return update buffer b v) buffer : StateM (Dcu D) Sector) s = (filled, s) ∧
      ∀ b, (b ∈ l → filled b = s.mem.read_byte (addr + b)) ∧ (b ∉ l → filled b = buffer b) := by
  induction l generalizing buffer with
  | nil => exact ⟨buffer, rfl, fun b => ⟨fun h => absurd h List.not_mem_nil, fun _ => rfl⟩⟩
  | cons c l ih =>
    obtain ⟨filled, hrun, hfilled⟩ := ih (update buffer c (s.mem.read_byte (addr + c)))
    refine ⟨filled, hrun, fun b => ⟨fun hb => ?_, fun hb => ?_⟩⟩
    · by_cases hl : b ∈ l
      · exact (hfilled b).1 hl
      · obtain rfl := (List.mem_cons.mp hb).resolve_right hl
        exact ((hfilled b).2 hl).trans (update_self b _ buffer)
    · have hne : b ≠ c := fun he => hb (he ▸ List.mem_cons_self)
      have hl : b ∉ l := fun h => hb (List.mem_cons_of_mem c h)
      exact ((hfilled b).2 hl).trans (update_of_ne hne _ buffer)

/-- Reading a page byte by byte gives the page, whatever the list of its indices. -/
theorem flat_readPage_all (addr : ℕ) {l : List (Fin 512)} (hl : ∀ b, b ∈ l) :
    (l.foldlM (fun buffer (b : Fin 512) => do
      let v ← Space.read_byte (addr + b)
      return update buffer b v) (fun _ => 0) : StateM (Dcu D) Sector) s =
      (s.mem.readPage addr, s) := by
  obtain ⟨filled, hrun, hfilled⟩ := flat_readPage_fold s addr l fun _ => 0
  rw [hrun, funext fun b => (hfilled b).1 (hl b)]
  rfl

/-- A page is that of memory. -/
theorem flat_readPage (addr : ℕ) :
    (readPage addr : StateM (Dcu D) Sector) s = (s.mem.readPage addr, s) :=
  flat_readPage_all s addr List.mem_finRange

/-- Memory after the places a loop has stored. -/
theorem flat_writePage_fold (addr : ℕ) (buffer : Sector) (l : List (Fin 512)) (mem : Memory) :
    (l.foldlM (fun _ (b : Fin 512) => Space.write_byte (addr + b) (buffer b)) () :
      StateM (Dcu D) Unit) { s with mem := mem } =
      ((), { s with
        mem := (l.foldl (fun m (b : Fin 512) => m.write_byte (addr + b) (buffer b)) mem) }) := by
  induction l generalizing mem with
  | nil => rfl
  | cons c l ih =>
    rw [List.foldlM_cons, bind_run, List.foldl_cons]
    exact ih _

/-- A page written byte by byte is written as a whole. -/
theorem flat_writePage (addr : ℕ) (buffer : Sector) :
    (writePage addr buffer : StateM (Dcu D) Unit) s =
      ((), { s with mem := s.mem.writePage addr buffer }) :=
  flat_writePage_fold s addr buffer (List.finRange 512) s.mem

/-- Storing a sector that was read puts it into its page. -/
theorem flat_store (addr : ℕ) (buffer : Sector) :
    (dcu_store addr (some buffer) : StateM (Dcu D) Bool) s =
      (true, { s with mem := s.mem.writePage addr buffer }) := by
  show (writePage addr buffer >>= fun _ => return true : StateM (Dcu D) Bool) s = _
  rw [bind_run, flat_writePage]
  rfl

variable [HardDisk D]

/-- One sector over a flat array is the sector access of the flat model. -/
theorem flat_sector (unit : ℕ) (opcode : UInt8) (addr lba : ℕ) :
    (BusMap.dcu_sector unit opcode addr lba : StateM (Dcu D) Bool) s =
      ((DcuMachine.dcu_sector s unit opcode addr lba).2,
        (DcuMachine.dcu_sector s unit opcode addr lba).1) := by
  unfold BusMap.dcu_sector DcuMachine.dcu_sector
  split_ifs with hwrite hformat
  · rw [bind_run]
    unfold dcu_buffer
    rw [if_pos hformat]
    rfl
  · rw [bind_run]
    unfold dcu_buffer
    rw [if_neg hformat, flat_readPage]
    rfl
  · rw [bind_run]
    show (dcu_store addr (HardDisk.read (s.hd unit) lba).1 : StateM (Dcu D) Bool) _ = _
    dsimp only
    cases (HardDisk.read (s.hd unit) lba).1 with
    | none => rfl
    | some buffer =>
      exact flat_store _ addr buffer

/-- The loop over sectors is its loop, by induction on the count. -/
theorem flat_sectors (unit : ℕ) (opcode : UInt8) (table count i lba : ℕ) (resid : UInt8) :
    (BusMap.dcu_sectors unit opcode table count i lba resid : StateM (Dcu D) (UInt8 × Bool)) s =
      ((DcuMachine.dcu_sectors s unit opcode table count i lba resid).2,
        (DcuMachine.dcu_sectors s unit opcode table count i lba resid).1) := by
  induction count generalizing s i lba resid with
  | zero => rfl
  | succ count ih =>
    unfold BusMap.dcu_sectors DcuMachine.dcu_sectors
    rw [bind_run, flat_read_u32, bind_run, flat_sector]
    dsimp only [pageAddr]
    split_ifs with hok
    · exact ih _ _ _ _
    · rfl

/-- An access is an access of the flat model, absent units included. -/
theorem flat_access (c : Iocb) :
    (BusMap.dcu_access c : StateM (Dcu D) (UInt8 × Bool)) s =
      ((DcuMachine.dcu_access s c).2, (DcuMachine.dcu_access s c).1) := by
  unfold BusMap.dcu_access DcuMachine.dcu_access
  rw [bind_run, show (Space.dcu (locate c) : StateM (Dcu D) (Option ℕ)) s = locate c s from rfl]
  unfold locate
  split_ifs with hok
  · exact flat_sectors _ _ _ _ _ _ _ _
  · rfl

/-- A round of the chain loop is a round of it. -/
theorem flat_iocb (iocb : ℕ) :
    (BusMap.dcu_iocb iocb : StateM (Dcu D) Link) s =
      ((DcuMachine.dcu_iocb s iocb).2, (DcuMachine.dcu_iocb s iocb).1) := by
  unfold BusMap.dcu_iocb DcuMachine.dcu_iocb
  rw [bind_run, flat_readIocb, bind_run, flat_access, bind_run]
  dsimp only
  split_ifs with hok
  · cases (DcuMachine.readIocb s.mem iocb).next with
    | none => rfl
    | some iocb' => rfl
  · rfl

/-- The chain over flat memory is the chain of the controller model. -/
theorem flat_transfer (fuel iocb : ℕ) :
    DcuMachine.dcu_transfer fuel s iocb =
      ((BusMap.dcu_transfer fuel iocb : StateM (Dcu D) (Option Bool)) s).1.map fun ok =>
        (((BusMap.dcu_transfer fuel iocb : StateM (Dcu D) (Option Bool)) s).2, ok) := by
  induction fuel generalizing s iocb with
  | zero => rfl
  | succ fuel ih =>
    cases hl : (DcuMachine.dcu_iocb s iocb).2 with
    | next iocb' =>
      have hrun : (BusMap.dcu_transfer (fuel + 1) iocb : StateM (Dcu D) (Option Bool)) s =
          (BusMap.dcu_transfer fuel iocb' : StateM (Dcu D) (Option Bool))
            (DcuMachine.dcu_iocb s iocb).1 := by
        conv_lhs => unfold BusMap.dcu_transfer
        rw [bind_run, flat_iocb, hl]
      rw [hrun]
      exact (dcu_transfer_next hl).trans (ih _ _)
    | stop ok =>
      have hrun : (BusMap.dcu_transfer (fuel + 1) iocb : StateM (Dcu D) (Option Bool)) s =
          (some ok, (DcuMachine.dcu_iocb s iocb).1) := by
        conv_lhs => unfold BusMap.dcu_transfer
        rw [bind_run, flat_iocb, hl]
        rfl
      rw [hrun]
      exact dcu_transfer_stop hl

/-- A command over a flat array is a command of the flat model. -/
theorem flat_execute (fuel : ℕ) :
    DcuMachine.dcu_execute fuel s =
      ((BusMap.dcu_execute fuel : StateM (Dcu D) (Option Bool)) s).1.map fun ok =>
        (((BusMap.dcu_execute fuel : StateM (Dcu D) (Option Bool)) s).2, ok) := by
  have hstep : (BusMap.dcu_execute fuel : StateM (Dcu D) (Option Bool)) s =
      if s.op = DCU_C_START then
        (BusMap.dcu_transfer fuel (dcu_arg s) : StateM (Dcu D) (Option Bool)) s
      else dcu_immediate s := by
    unfold BusMap.dcu_execute
    rw [bind_run]
    show (if s.op = DCU_C_START then BusMap.dcu_transfer fuel (dcu_arg s) else
      Space.dcu dcu_immediate : StateM (Dcu D) (Option Bool)) s = _
    split_ifs <;> rfl
  rw [hstep]
  by_cases hop : s.op = DCU_C_START
  · rw [if_pos hop, ← flat_transfer]
    unfold DcuMachine.dcu_execute
    rw [hop]
    rfl
  · rw [if_neg hop]
    unfold dcu_immediate
    have hfuel : DcuMachine.dcu_execute fuel s = DcuMachine.dcu_execute 0 s := by
      unfold DcuMachine.dcu_execute
      rw [if_neg hop, if_neg hop]
    rw [hfuel]
    cases DcuMachine.dcu_execute 0 s with
    | none => rfl
    | some r => rfl

/-- A command over flat memory is a command of the controller model. -/
theorem flat_complete (fuel : ℕ) :
    DcuMachine.dcu_complete fuel s =
      ((BusMap.dcu_complete fuel : StateM (Dcu D) (Option Unit)) s).1.map fun _ =>
        ((BusMap.dcu_complete fuel : StateM (Dcu D) (Option Unit)) s).2 := by
  unfold DcuMachine.dcu_complete BusMap.dcu_complete
  rw [flat_execute, bind_run]
  cases ((BusMap.dcu_execute fuel : StateM (Dcu D) (Option Bool)) s).1 with
  | none => rfl
  | some ok => rfl

end Flat

/-! ## Commands that stay in memory -/

variable [Peripherals P]

/-- The address of an access. -/
def Access.addr : Access → Option ℕ
  | .read a _ | .write a _ => some a
  | .reset => none

/-- Accesses to the memory that can be seen under a boot view. -/
def onMemory (view : Bool) : Set Access := {e | ∀ a, Access.addr e = some a → a ∈ memory view}

/-- The CPU drops what the controller's addresses have above its lines. -/
theorem bus_u32 (addr : ℕ) : bus (u32 addr) = bus addr := by
  unfold bus u32
  omega

/-- An address decodes as the CPU forms it, whoever does. -/
theorem decode_u32 (view : Bool) (addr : ℕ) : decode view (u32 addr) = decode view addr := by
  unfold decode
  rw [bus_u32]

/-- A port is reached through the range of its handler, on even bytes where the range is
half as wide. -/
theorem target_port {r : Range} {view : Bool} {x o : ℕ} {h : Handler}
    (ht : r.target view x = .port h o) : r.handler = h ∧
      (r.low = true → (x - r.first) % 2 = 0 ∧ o = (x - r.first) / 2) := by
  unfold Range.target at ht
  split at ht
  · split_ifs at ht
  · cases ht
  · cases ht
  · split_ifs at ht with hlow heven
    · injection ht with hhandler ho
      exact ⟨hhandler, fun _ => ⟨heven, ho.symm⟩⟩
    · injection ht with hhandler
      exact ⟨hhandler, fun hl => absurd hl hlow⟩

/-- A register answers inside the entry that it is installed in. -/
theorem decode_port {view : Bool} {addr o : ℕ} {h : Handler} (hd : decode view addr = .port h o) :
    ∃ r ∈ cpu_map, r.first ≤ bus addr ∧ bus addr ≤ r.last ∧ r.handler = h ∧
      (r.low = true → (bus addr - r.first) % 2 = 0 ∧ o = (bus addr - r.first) / 2) := by
  unfold decode at hd
  cases hfind : cpu_map.find? fun r => decide (r.first ≤ bus addr ∧ bus addr ≤ r.last) with
  | none =>
    rw [hfind] at hd
    cases hd
  | some r =>
    rw [hfind] at hd
    have hfound := List.find?_some hfind
    have hin : r.first ≤ bus addr ∧ bus addr ≤ r.last := of_decide_eq_true hfound
    exact ⟨r, List.mem_of_find?_eq_some hfind, hin.1, hin.2, target_port hd⟩

/-- An address of main memory, as the controller forms it, is a byte of it. -/
theorem decode_of_mem {view : Bool} {addr : ℕ} (h : u32 addr ∈ memory view) :
    decode view addr = .ram (u32 addr) := by
  rw [← decode_u32]
  exact h.2

/-- The machine is the given one, with the controller at some state. -/
def Around (m : Machine D P) (s : Logged D P) (d : Dcu D) : Prop := s.machine = { m with dcu := d }

omit [Peripherals P] in
/-- Accesses of a transfer leave the boot view as it is. -/
theorem Around.view_eq {m : Machine D P} {d : Dcu D} (h : Around m s d) :
    s.machine.view = m.view := by
  rw [show s.machine = { m with dcu := d } from h]

omit [Peripherals P] in
/-- And the controller where the flat model has it. -/
theorem Around.dcu_eq {m : Machine D P} {d : Dcu D} (h : Around m s d) : s.machine.dcu = d := by
  rw [show s.machine = { m with dcu := d } from h]

omit [Peripherals P] in
/-- An access is in the part of the log it made. -/
theorem mem_of_grew {A : Set Access} {e : Access} {m : Machine D P} {l : List Access}
    (h : Grew A (⟨m, l⟩ : Logged D P) ⟨m', l ++ [e]⟩) : e ∈ A := by
  obtain ⟨new, hnew, hall⟩ := h
  refine hall e ?_
  rw [← List.append_cancel_left hnew]
  exact List.mem_singleton_self e

/-- The bus agrees with flat memory on work that is the controller's own. -/
theorem agreeing_dcu (m : Machine D P) {α : Type} (f : Dcu D → α × Dcu D) :
    (agreeing (onMemory m.view) (Around m)).rel (Space.dcu f : StateM (Logged D P) α)
      (Space.dcu f : StateM (Dcu D) α) := by
  refine ⟨fun s => Grew.refl _ s, fun s d hs _ => ?_⟩
  have hd := hs.dcu_eq
  refine ⟨congrArg (fun d => (f d).1) hd, ?_⟩
  have hm : s.machine = { m with dcu := d } := hs
  show { s.machine with dcu := (f s.machine.dcu).2 } = { m with dcu := (f d).2 }
  rw [hm]

/-- The bus agrees with flat memory, on main memory. -/
theorem accessing_agreeing (m : Machine D P) :
    Accessing (agreeing (onMemory m.view) (Around m)) where
  read addr := by
    refine ⟨fun s => ⟨_, rfl, fun _ _ => Set.mem_univ _⟩, fun s d hs hA => ?_⟩
    have hmem := decode_of_mem (mem_of_grew hA (u32 addr) rfl)
    have hread : s.machine.read addr = (d.mem.read_byte addr, s.machine) := by
      unfold Machine.read
      rw [hs.view_eq, hmem, hs.dcu_eq]
      rfl
    refine ⟨congrArg Prod.fst hread, ?_⟩
    exact (congrArg Prod.snd hread).trans hs
  write addr data := by
    refine ⟨fun s => ⟨_, rfl, fun _ _ => Set.mem_univ _⟩, fun s d hs hA => ?_⟩
    have hmem := decode_of_mem (mem_of_grew hA (u32 addr) rfl)
    have hwrite : s.machine.write addr data = { m with dcu := d.putByte addr data } := by
      unfold Machine.write
      rw [hs.view_eq, hmem, hs.dcu_eq, show s.machine = { m with dcu := d } from hs]
      rfl
    exact ⟨rfl, hwrite⟩
  dcu {_ f} _ := agreeing_dcu m f

variable [HardDisk D]

/-- An expiry whose command stays in main memory is an expiry of the
controller model, and changes nothing else of the machine. -/
theorem expire_agrees (hmem : Grew (onMemory s.machine.view) s (expire fuel s).2) :
    (expire fuel s).2.machine = { s.machine with dcu := (expire fuel s).2.machine.dcu } ∧
      DcuMachine.dcu_complete fuel { s.machine.dcu with timer := false } =
        (expire fuel s).1.map fun _ => (expire fuel s).2.machine.dcu := by
  have hrel := (agreeing (onMemory s.machine.view) (Around s.machine)).rel_bind
    (agreeing_dcu s.machine fun s : Dcu D => ((), { s with timer := false }))
    fun _ => rel_complete (accessing_agreeing s.machine) fuel
  obtain ⟨hval, hstate⟩ := hrel.2 s s.machine.dcu rfl hmem
  have hdcu := hstate.dcu_eq
  refine ⟨?_, ?_⟩
  · have hm : (expire fuel s).2.machine = _ := hstate
    rw [hm]
  · rw [flat_complete]
    have hval' : (expire fuel s).1 = _ := hval
    rw [hval', show (expire fuel s).2.machine.dcu = _ from hdcu]
    rfl

/-! ## Runs -/

/-- What an event of the machine is to the controller model. -/
def dcuEvents (m : Machine D P) : BusMap.Event P → List DcuMachine.Event
  | .read addr =>
    match decode m.view addr with
    | .port .dcu k => [.read k]
    | _ => []
  | .write addr data =>
    match decode m.view addr with
    | .port .dcu k => [.write k data]
    | .ram a => [.store a data]
    | _ => []
  | .expire => [.expire]
  | .reset => [.reset]
  | .devices _ => []

/-- The events of the controller model in a run of the machine. -/
def project (fuel : ℕ) : Logged D P → List (BusMap.Event P) → List DcuMachine.Event :=
  projected (BusMap.step fuel) fun s => dcuEvents s.machine

/-- A command touches nothing but main memory as it is seen when it starts. -/
def InMemory (fuel : ℕ) (s : Logged D P) (e : BusMap.Event P) : Prop :=
  ∀ t, e = .expire → BusMap.step fuel s e = some t → Grew (onMemory s.machine.view) s t

omit [HardDisk D] in
/-- No read changes the controller. -/
theorem readPort_dcu (m : Machine D P) (o : ℕ) (h : Handler) : (readPort m o h).2.dcu = m.dcu := by
  cases h <;> rfl

/-- Memory is not moved by the map: an address in it is its own place. -/
theorem target_ram {r : Range} {view : Bool} {x a : ℕ} (h : r.target view x = .ram a) : a = x := by
  unfold Range.target at h
  split at h
  · split_ifs at h
    cases h
    rfl
  · cases h
    rfl
  · cases h
  · split_ifs at h

/-- Memory is where the bus has it. -/
theorem decode_ram {view : Bool} {addr a : ℕ} (h : decode view addr = .ram a) : a = bus addr := by
  unfold decode at h
  split at h
  · exact target_ram h
  · cases h

omit [HardDisk D] in
/-- Reading from the program space does not change the controller. -/
theorem read_dcu (m : Machine D P) (addr : ℕ) : (m.read addr).2.dcu = m.dcu := by
  unfold Machine.read
  split
  · rfl
  · rfl
  · exact readPort_dcu m _ _
  · rfl

/-- What a write is to the controller model. -/
theorem write_refines (m : Machine D P) (addr : ℕ) (data : UInt8) :
    run (DcuMachine.step fuel) m.dcu (dcuEvents m (.write addr data)) =
      some (m.write addr data).dcu := by
  unfold dcuEvents Machine.write
  dsimp only
  cases hd : decode m.view addr with
  | ram a =>
    have ha : u32 a = a := by
      rw [decode_ram hd]
      unfold u32 bus
      omega
    show some (m.dcu.putByte a data) = _
    unfold Dcu.putByte Memory.write_byte
    rw [ha]
  | rom o => rfl
  | port h o => cases h <;> rfl
  | unmapped => rfl

/-- One event of the machine, to the controller model. -/
theorem step_refines {e : BusMap.Event P} (hin : InMemory fuel s e)
    (h : BusMap.step fuel s e = some t) :
    run (DcuMachine.step fuel) s.machine.dcu (dcuEvents s.machine e) = some t.machine.dcu := by
  cases e with
  | read addr =>
    cases h
    have hread : (s.read addr).2.machine.dcu = s.machine.dcu := read_dcu s.machine addr
    rw [hread]
    unfold dcuEvents
    dsimp only
    split <;> rfl
  | write addr data =>
    cases h
    exact write_refines s.machine addr data
  | expire =>
    have hgrew := hin t rfl h
    unfold BusMap.step at h
    split_ifs at h with htimer
    obtain ⟨_, hdone, rfl⟩ := Option.map_eq_some_iff.mp h
    obtain ⟨_, hcomplete⟩ := expire_agrees hgrew
    rw [hdone] at hcomplete
    show (DcuMachine.step fuel s.machine.dcu .expire).bind _ = _
    unfold DcuMachine.step
    rw [if_pos htimer, hcomplete]
    rfl
  | reset =>
    cases h
    rfl
  | devices chips =>
    cases h
    rfl

/-- The machine on its bus refines the controller model: a run from power-on
whose commands touch nothing but the main memory they can see takes the
controller, its drives and memory where the controller model takes them under
the events the map lets through to it. -/
theorem machine_refines_dcu {hd : ℕ → D} {mem : Memory} {opt : UInt16} {eprom : ℕ → UInt8}
    {chips : P} {es : List (BusMap.Event P)}
    (hin : Steps (BusMap.step fuel) (power hd mem opt eprom chips) es fun _ => InMemory fuel)
    (h : run (BusMap.step fuel) (power hd mem opt eprom chips) es = some t) :
    run (DcuMachine.step fuel) (powerOn hd mem) (project fuel (power hd mem opt eprom chips) es) =
      some t.machine.dcu :=
  run_refines (fun s : Logged D P => s.machine.dcu) (fun _ _ _ => step_refines) hin h

/-- Whether everything a command added to the log is in memory. -/
def staysInMemory (fuel : ℕ) (s : Logged D P) : Bool :=
  ((expire fuel s).2.log.drop s.log.length).all fun e =>
    match e with
    | .read a _ | .write a _ => decide (a < 2 ^ 24 ∧ decode s.machine.view a = .ram a)
    | .reset => true

/-- The test that a transfer stays in memory is enough for it to do so. -/
theorem staysInMemory_sound (h : staysInMemory fuel s = true) (e : BusMap.Event P) :
    InMemory fuel s e := by
  intro t he ht
  subst he
  unfold BusMap.step at ht
  split_ifs at ht with htimer
  obtain ⟨_, _, rfl⟩ := Option.map_eq_some_iff.mp ht
  have hrel := (agreeing (onMemory s.machine.view) (Around s.machine)).rel_bind
    (agreeing_dcu s.machine fun s : Dcu D => ((), { s with timer := false }))
    fun _ => rel_complete (accessing_agreeing s.machine) fuel
  obtain ⟨new, hnew, _⟩ := hrel.1 s
  refine ⟨new, hnew, fun e he a ha => ?_⟩
  unfold staysInMemory at h
  rw [show (expire fuel s).2.log = s.log ++ new from hnew, List.drop_left, List.all_eq_true] at h
  have hok := h e he
  cases e with
  | read b data =>
    cases ha
    have hmem : a < 2 ^ 24 ∧ decode s.machine.view a = .ram a := of_decide_eq_true hok
    exact hmem
  | write b data =>
    cases ha
    have hmem : a < 2 ^ 24 ∧ decode s.machine.view a = .ram a := of_decide_eq_true hok
    exact hmem
  | reset => cases ha

/-- A guest that switches the EPROM off and reads a sector into memory. -/
def guestRead : List (BusMap.Event Unit) :=
  [.write 0xffee00 1, .write 0xd00002 1, .write 0xd00006 DCU_C_START, .expire]

/-- A pack of two sectors, the second of which is not empty. -/
def twoSectors : Image := ⟨[fun _ => 0, fun _ => 7]⟩

/-- The guest's machine. -/
def guestMachine : Logged Image Unit :=
  power (fun _ => twoSectors) (DcuSectorStore.oneSector DCU_C_READ 1 0) 0x100 (fun _ => 0) ()

/-- The machine when the guest's command is due. -/
def guestWaiting : Logged Image Unit :=
  (((guestMachine.write 0xffee00 1).2.write 0xd00002 1).2.write 0xd00006 DCU_C_START).2

/-- The guest's sector, on the bus and in the controller model. -/
theorem machine_refines_dcu_guest :
    ∃ t, run (BusMap.step 1) guestMachine guestRead = some t ∧ t.machine.dcu.mem 0x5ff = 7 ∧
      run (DcuMachine.step 1) guestMachine.machine.dcu (project 1 guestMachine guestRead) =
        some t.machine.dcu := by
  have hrun : (run (BusMap.step 1) guestMachine guestRead).any
      (fun t => t.machine.dcu.mem 0x5ff == 7) = true := by decide +kernel
  obtain ⟨t, ht, hbyte⟩ := (Option.any_eq_true _ _).mp hrun
  have hstays : staysInMemory 1 guestWaiting = true := by decide +kernel
  refine ⟨t, ht, eq_of_beq hbyte, machine_refines_dcu ?_ ht⟩
  refine steps_cons (fun _ he => nomatch he) fun t1 h1 => ?_
  refine steps_cons (fun _ he => nomatch he) fun t2 h2 => ?_
  refine steps_cons (fun _ he => nomatch he) fun t3 h3 => ?_
  cases h1
  cases h2
  cases h3
  exact steps_cons (staysInMemory_sound hstays _) fun _ _ => steps_nil _

end Sys16.BusRefinement
