import Sys16.DcuMachine
import Sys16.MonadRelations

/-!
# The program space of the SYS16

The map of `cpu_map<0>` in `patch/sys16.cpp`: the boot view over low memory,
the memory boards, the registers of the disk controller and the board's own
registers. The controller reaches main memory through the same map, byte
after byte, so its transfer is written here once more, over any address
space. The peripherals of MAME itself are a parameter. Every access is logged
as the program space is asked for it.
-/

namespace Sys16.BusMap

open Function DcuMachine MonadRelations

/-! ## The map -/

/-- The peripherals that MAME supplies. -/
inductive Chip where
  /-- `m_gtl`. -/
  | gtl
  /-- `m_pit`. -/
  | pit
  /-- `m_ppi`. -/
  | ppi
  /-- `m_pci`. -/
  | pci
  /-- `m_icu`. -/
  | icu
  deriving DecidableEq, Repr

/-- What an entry of the map is installed for. -/
inductive Handler where
  /-- `view(m_boot)`: the EPROM in view 0, memory in view 1. -/
  | view
  /-- `ram()`. -/
  | ram
  /-- `rom().region("eprom", 0)`. -/
  | rom
  /-- `rw(dcu_r, dcu_w)`. -/
  | dcu
  /-- `w(dcr_w)`. -/
  | dcr
  /-- `r(nmi_r)`. -/
  | nmi
  /-- `r(opt_r)`. -/
  | opt
  /-- A device of MAME. -/
  | chip (c : Chip)
  deriving DecidableEq, Repr

/-- An entry of the map. -/
structure Range where
  /-- First address. -/
  first : ℕ
  /-- Last address. -/
  last : ℕ
  /-- `umask16(0x00ff)`: the handler sits on the low byte of each word. -/
  low : Bool
  /-- What is installed there. -/
  handler : Handler

/-- `cpu_map<0>`. -/
def cpu_map : List Range :=
  [⟨0x000000, 0x03ffff, false, .view⟩,
    ⟨0x040000, 0x3fffff, false, .ram⟩,
    ⟨0xa00c00, 0xa01bff, false, .ram⟩,
    ⟨0xd00000, 0xd0001f, true, .dcu⟩,
    ⟨0xe00000, 0xe09fff, false, .rom⟩,
    ⟨0xffec00, 0xffec0f, true, .chip .gtl⟩,
    ⟨0xffee00, 0xffee01, true, .dcr⟩,
    ⟨0xfff200, 0xfff200, true, .nmi⟩,
    ⟨0xfff400, 0xfff401, false, .opt⟩,
    ⟨0xfff600, 0xfff607, true, .chip .pit⟩,
    ⟨0xfff800, 0xfff807, true, .chip .ppi⟩,
    ⟨0xfffa00, 0xfffa07, true, .chip .pci⟩,
    ⟨0xfffe00, 0xfffeff, true, .chip .icu⟩]

/-- Last address of the EPROM in view 0. -/
def ROM_LAST : ℕ := 0x009fff

/-- The CPU has 24 address lines. -/
def bus (addr : ℕ) : ℕ := addr % 2 ^ 24

/-- What answers at an address. -/
inductive Target where
  /-- A byte of memory. -/
  | ram (addr : ℕ)
  /-- A byte of the EPROM. -/
  | rom (offset : ℕ)
  /-- A register. -/
  | port (handler : Handler) (offset : ℕ)
  /-- Nothing. -/
  | unmapped
  deriving DecidableEq, Repr

/-- What an entry makes of an address inside it, under the boot view. -/
def Range.target (r : Range) (view : Bool) (a : ℕ) : Target :=
  match r.handler with
  | .view => if view then .ram a else if a ≤ ROM_LAST then .rom a else .unmapped
  | .ram => .ram a
  | .rom => .rom (a - r.first)
  | h =>
    if r.low then if (a - r.first) % 2 = 0 then .port h ((a - r.first) / 2) else .unmapped
    else .port h (a - r.first)

/-- The byte-wide decoding of an address: `view` is the selected boot view. -/
def decode (view : Bool) (addr : ℕ) : Target :=
  match cpu_map.find? fun r => decide (r.first ≤ bus addr ∧ bus addr ≤ r.last) with
  | some r => r.target view (bus addr)
  | none => .unmapped

/-- Main memory, as far as it can be seen under a boot view. -/
def memory (view : Bool) : Set ℕ := {x | x < 2 ^ 24 ∧ decode view x = .ram x}

/-! ## The machine -/

/-- The calls the map makes on the devices of MAME. -/
class Peripherals (P : Type) where
  /-- Read of a device register. -/
  read : P → Chip → ℕ → UInt8 × P
  /-- Write of a device register. -/
  write : P → Chip → ℕ → UInt8 → P

/-- Devices that answer nothing. -/
instance noDevices : Peripherals Unit where
  read _ _ _ := (0, ())
  write _ _ _ _ := ()

/-- The state behind the program space. -/
structure Machine (D P : Type) where
  /-- The disk controller, with the memory behind the map. -/
  dcu : Dcu D
  /-- View 1 of `m_boot` is selected. -/
  view : Bool
  /-- `m_dcr`. -/
  dcr : UInt8
  /-- `m_nmi`. -/
  nmi : UInt8
  /-- The `OPT` port: the settings of the machine configuration. -/
  opt : UInt16
  /-- `m_eprom`, byte by byte. -/
  eprom : ℕ → UInt8
  /-- The devices of MAME. -/
  chips : P

def OPT_EMB : UInt16 := 0x0001
def OPT_ECHO : UInt16 := 0x0002
def OPT_MOVSU : UInt16 := 0x0200
def OPT_WORK : UInt16 := 0x0400

/-- The option register: four fixed bits, and the settings. -/
def opt_r {D P : Type} (m : Machine D P) : UInt16 :=
  OPT_EMB ||| OPT_WORK ||| OPT_MOVSU ||| OPT_ECHO ||| m.opt

/-- The two words of the EPROM that `init` patches. -/
def patchRom (eprom : ℕ → UInt8) : ℕ → UInt8 :=
  update (update (update (update eprom 0x7dc4 0xa0) 0x7dc5 0x00) 0x930a 0x00) 0x930b 0x5e

/-- Ram switch. -/
def DCR_RAM : UInt8 := 0

variable {D P : Type}

/-- The diagnostic control register: bit 0 selects view 1, and nothing but a
reset selects view 0 again. -/
def dcr_w (m : Machine D P) (data : UInt8) : Machine D P :=
  { m with view := m.view || (data >>> DCR_RAM &&& 1 == 1), dcr := data }

/-- `machine_reset`. -/
def reset (m : Machine D P) : Machine D P :=
  { m with dcu := machine_reset m.dcu, view := false, dcr := 0, nmi := 6 }

/-- Power-on, with the EPROM as `init` leaves it. -/
def start (hd : ℕ → D) (mem : Memory) (opt : UInt16) (eprom : ℕ → UInt8) (chips : P) :
    Machine D P :=
  { dcu := powerOn hd mem, view := false, dcr := 0, nmi := 6, opt := opt,
    eprom := patchRom eprom, chips := chips }

/-- The byte a port answers with. -/
def readPort [Peripherals P] (m : Machine D P) (offset : ℕ) : Handler → UInt8 × Machine D P
  | .dcu => (dcu_r m.dcu offset, m)
  | .nmi => (m.nmi, m)
  | .opt => (if offset = 0 then (opt_r m).toUInt8 else (opt_r m >>> 8).toUInt8, m)
  | .chip c =>
    let r := Peripherals.read m.chips c offset
    (r.1, { m with chips := r.2 })
  | _ => (0, m)

/-- What a port makes of a byte. -/
def writePort [Peripherals P] (m : Machine D P) (offset : ℕ) (data : UInt8) :
    Handler → Machine D P
  | .dcu => { m with dcu := dcu_w m.dcu offset data }
  | .dcr => dcr_w m data
  | .chip c => { m with chips := Peripherals.write m.chips c offset data }
  | _ => m

/-- A byte read through the map. What nothing answers reads as zero. -/
def Machine.read [Peripherals P] (m : Machine D P) (addr : ℕ) : UInt8 × Machine D P :=
  match decode m.view addr with
  | .ram a => (m.dcu.mem a, m)
  | .rom o => (m.eprom o, m)
  | .port h o => readPort m o h
  | .unmapped => (0, m)

/-- A byte written through the map. -/
def Machine.write [Peripherals P] (m : Machine D P) (addr : ℕ) (data : UInt8) : Machine D P :=
  match decode m.view addr with
  | .ram a => { m with dcu := { m.dcu with mem := update m.dcu.mem a data } }
  | .port h o => writePort m o data h
  | _ => m

/-! ## The controller on an address space -/

/-- What the controller's functions are written over: the address space they
are given, and their own state. -/
class Space (m : Type → Type) (D : outParam Type) where
  /-- `address_space::read_byte`. -/
  read_byte : ℕ → m UInt8
  /-- `address_space::write_byte`. -/
  write_byte : ℕ → UInt8 → m Unit
  /-- Work on the controller's own state. -/
  dcu : ∀ {α : Type}, (Dcu D → α × Dcu D) → m α

open Space

section Transfer

variable {m : Type → Type} [Monad m] [Space m D] [HardDisk D]

/-- Two bytes, low byte first. -/
def read_u16 (addr : ℕ) : m ℕ := do
  let b0 ← read_byte addr
  let b1 ← read_byte (addr + 1)
  return b0.toNat ||| b1.toNat <<< 8

/-- The loop that assembles a `u32` of four bytes. -/
def read_u32 (addr : ℕ) : m ℕ := do
  let b0 ← read_byte addr
  let b1 ← read_byte (addr + 1)
  let b2 ← read_byte (addr + 2)
  let b3 ← read_byte (addr + 3)
  return b0.toNat ||| b1.toNat <<< 8 ||| b2.toNat <<< 16 ||| b3.toNat <<< 24

/-- The reads at the top of the chain loop. -/
def readIocb (iocb : ℕ) : m Iocb := do
  let opcode ← read_byte (iocb + IOCB_OPCODE)
  let count ← read_byte (iocb + IOCB_COUNT)
  let cylinder ← read_u16 (iocb + IOCB_CYLINDER)
  let drhdsec ← read_u16 (iocb + IOCB_DRHDSEC)
  let table ← read_u32 (iocb + IOCB_BUFFER)
  let chain ← read_u32 (iocb + IOCB_CHAIN)
  return ⟨opcode, count, cylinder, drhdsec, table, chain⟩

/-- The loop that fills a sector buffer from a page. -/
def readPage (addr : ℕ) : m Sector :=
  (List.finRange 512).foldlM (fun buffer (b : Fin 512) => do
    let v ← read_byte (addr + b)
    return update buffer b v) fun _ => 0

/-- The loop that stores a sector buffer into a page. -/
def writePage (addr : ℕ) (buffer : Sector) : m Unit :=
  (List.finRange 512).foldlM (fun _ (b : Fin 512) => write_byte (addr + b) (buffer b)) ()

/-- The drive's part of a sector that is written. -/
def driveWrite (unit lba : ℕ) (buffer : Sector) (s : Dcu D) : Bool × Dcu D :=
  let r := HardDisk.write (s.hd unit) lba buffer
  (r.1, { s with hd := update s.hd unit r.2 })

/-- The drive's part of a sector that is read. -/
def driveRead (unit lba : ℕ) (s : Dcu D) : Option Sector × Dcu D :=
  let r := HardDisk.read (s.hd unit) lba
  (r.1, { s with hd := update s.hd unit r.2 })

/-- The buffer that goes to a drive. -/
def dcu_buffer (opcode : UInt8) (addr : ℕ) : m Sector :=
  if opcode = DCU_C_FORMAT then return fun _ => 0 else readPage addr

/-- What arrived from a drive goes into its page. -/
def dcu_store (addr : ℕ) : Option Sector → m Bool
  | none => return false
  | some buffer => do
    writePage addr buffer
    return true

/-- One sector of a transfer; false when the drive refuses the access. -/
def dcu_sector (unit : ℕ) (opcode : UInt8) (addr lba : ℕ) : m Bool :=
  if opcode = DCU_C_WRITE ∨ opcode = DCU_C_FORMAT then do
    let buffer ← dcu_buffer opcode addr
    dcu (driveWrite unit lba buffer)
  else do
    let r ← dcu (driveRead unit lba)
    dcu_store addr r

/-- The sector loop of one IOCB, as in the controller over flat memory. -/
def dcu_sectors (unit : ℕ) (opcode : UInt8) (table : ℕ) : ℕ → ℕ → ℕ → UInt8 → m (UInt8 × Bool)
  | 0, _, _, resid => return (resid, true)
  | n + 1, i, lba, resid => do
    let addr ← read_u32 (table + i * 4)
    let ok ← dcu_sector unit opcode addr lba
    if ok then dcu_sectors unit opcode table n (i + 1) (u32 (lba + 1)) (resid - 1)
    else return (resid, false)

/-- The unit of an IOCB, its geometry, and the first block of its transfer. -/
def locate (c : Iocb) (s : Dcu D) : Option ℕ × Dcu D :=
  if dcu_unit_ok s c.unit then
    let s := dcu_geometry s c.unit
    (some (c.lba (s.sectors c.unit) (s.heads c.unit)), s)
  else (none, s)

/-- The transfer an IOCB names. -/
def dcu_access (c : Iocb) : m (UInt8 × Bool) := do
  match ← dcu (locate c) with
  | none => return (c.count, false)
  | some lba => dcu_sectors c.unit c.opcode c.table c.count.toNat 0 lba c.count

/-- The ending of an IOCB that went well: its status, and the link. -/
def dcu_ending (iocb : ℕ) : Option ℕ → m Link
  | some iocb' => do
    write_byte (iocb + IOCB_STATUS) IOCB_ES_CHAIN
    return .next iocb'
  | none => do
    write_byte (iocb + IOCB_STATUS) IOCB_ES_DONE
    return .stop true

/-- One round of the chain loop. -/
def dcu_iocb (iocb : ℕ) : m Link := do
  let c ← readIocb iocb
  let r ← dcu_access c
  write_byte (iocb + IOCB_RESID) r.1
  if r.2 then dcu_ending iocb c.next
  else do
    write_byte (iocb + IOCB_STATUS) IOCB_ES_DRIVE
    return .stop false

/-- Follow the IOCB chain; nothing is returned when the fuel runs out. -/
def dcu_transfer : ℕ → ℕ → m (Option Bool)
  | 0, _ => return none
  | fuel + 1, iocb => do
    match ← dcu_iocb iocb with
    | .next iocb' => dcu_transfer fuel iocb'
    | .stop ok => return some ok

/-- The commands that have no business with memory. -/
def dcu_immediate (s : Dcu D) : Option Bool × Dcu D :=
  match DcuMachine.dcu_execute 0 s with
  | some (t, ok) => (some ok, t)
  | none => (none, s)

/-- The outcome of a command, posted. -/
def dcu_post (ok : Bool) (s : Dcu D) : Option Unit × Dcu D :=
  (some (), { s with code := if ok then .done else .error, line3 := false })

/-- Execute the latched opcode on the argument registers. -/
def dcu_execute (fuel : ℕ) : m (Option Bool) := do
  let latched ← dcu fun s => ((s.op, dcu_arg s), s)
  if latched.1 = DCU_C_START then dcu_transfer fuel latched.2 else dcu dcu_immediate

/-- The timer callback. -/
def dcu_complete (fuel : ℕ) : m (Option Unit) := do
  match ← dcu_execute fuel with
  | none => return none
  | some ok => dcu (dcu_post ok)

end Transfer

/-! ## Accesses -/

/-- What the program space is asked for. -/
inductive Access where
  /-- A byte was read, with the address as it was given. -/
  | read (addr : ℕ) (data : UInt8)
  /-- A byte was written. -/
  | write (addr : ℕ) (data : UInt8)
  /-- The machine was reset. -/
  | reset
  deriving DecidableEq, Repr

/-- The machine and the accesses so far, the oldest first. -/
structure Logged (D P : Type) where
  machine : Machine D P
  log : List Access

instance watchedLogged : Watched (Logged D P) Access where
  log := Logged.log

variable [Peripherals P]

/-- A read through the program space. -/
def Logged.read (addr : ℕ) (s : Logged D P) : UInt8 × Logged D P :=
  let r := s.machine.read addr
  (r.1, ⟨r.2, s.log ++ [.read (u32 addr) r.1]⟩)

/-- A write through the program space. -/
def Logged.write (addr : ℕ) (data : UInt8) (s : Logged D P) : Unit × Logged D P :=
  ((), ⟨s.machine.write addr data, s.log ++ [.write (u32 addr) data]⟩)

/-- Work on the controller's own state. -/
def Logged.dcu {α : Type} (f : Dcu D → α × Dcu D) (s : Logged D P) : α × Logged D P :=
  let r := f s.machine.dcu
  (r.1, { s with machine := { s.machine with dcu := r.2 } })

/-- The controller on the program space of the machine. -/
instance busSpace : Space (StateM (Logged D P)) D where
  read_byte := Logged.read
  write_byte := Logged.write
  dcu := Logged.dcu

/-- The controller on a memory of its own. -/
instance flatSpace : Space (StateM (Dcu D)) D where
  read_byte addr s := (s.mem.read_byte addr, s)
  write_byte addr data s := ((), s.putByte addr data)
  dcu f := f

/-! ## Events -/

/-- What can happen to the machine between two states. -/
inductive Event (P : Type) where
  /-- The CPU reads a byte. -/
  | read (addr : ℕ)
  /-- The CPU writes a byte. -/
  | write (addr : ℕ) (data : UInt8)
  /-- The command timer expires. -/
  | expire
  /-- A soft reset of the machine. -/
  | reset
  /-- The devices of MAME move on by themselves. -/
  | devices (chips : P)

/-- Disarm the timer and run the callback. -/
def expire [HardDisk D] (fuel : ℕ) : StateM (Logged D P) (Option Unit) := do
  Space.dcu fun s => ((), { s with timer := false })
  dcu_complete fuel

/-- One event. -/
def step [HardDisk D] (fuel : ℕ) (s : Logged D P) : Event P → Option (Logged D P)
  | .read addr => some (s.read addr).2
  | .write addr data => some (s.write addr data).2
  | .expire =>
    if s.machine.dcu.timer then
      let r := expire fuel s
      r.1.map fun _ => r.2
    else none
  | .reset => some ⟨BusMap.reset s.machine, s.log ++ [.reset]⟩
  | .devices chips => some { s with machine := { s.machine with chips := chips } }

/-- A machine that has just been powered on. -/
def power (hd : ℕ → D) (mem : Memory) (opt : UInt16) (eprom : ℕ → UInt8) (chips : P) :
    Logged D P :=
  ⟨start hd mem opt eprom chips, []⟩

end Sys16.BusMap
