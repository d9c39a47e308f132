import Mathlib.Algebra.Group.Nat.Defs
import Mathlib.Logic.Function.Basic
import Mathlib.Tactic.Common
import Sys16.EventRuns

/-!
# The disk control unit of the SYS16 driver

Command-level model of the DCU in `patch/sys16.cpp`: the registers, the
one-shot command timer, interrupt line 3, the cached pack geometry and the
IOCB transfer, each function under its source name. Machine words are
naturals with their wrap written out. Main memory is a flat byte array here,
where the source goes through the program space of `BusMap`; the drives are a
parameter, since `harddisk_image_device` belongs to MAME. The traversal of an
IOCB chain carries fuel, because the source loop has no bound.
-/

namespace Sys16.DcuMachine

open Function

/-- Contents of one 512-byte sector buffer. -/
abbrev Sector := Fin 512 → UInt8

/-- The calls the controller makes on a drive image. A drive may change state
on any access, so that an arbitrary pattern of failures can be expressed. -/
class HardDisk (D : Type*) where
  /-- `exists`: an image is mounted. -/
  isMounted : D → Bool
  /-- `read`: the sector's bytes, or nothing when the access fails. -/
  read : D → ℕ → Option Sector × D
  /-- `write`: whether the access succeeded. -/
  write : D → ℕ → Sector → Bool × D

/-- A drive image file that is always mounted and behaves as an array of sectors. -/
structure Image where
  /-- The sectors of the file, in order. -/
  blocks : List Sector

instance : HardDisk Image where
  isMounted _ := true
  read d lba := (d.blocks[lba]?, d)
  write d lba buffer :=
    if lba < d.blocks.length then (true, ⟨d.blocks.set lba buffer⟩) else (false, d)

/-- Reduction of an unsigned expression to `u32`. -/
def u32 (n : ℕ) : ℕ := n % 2 ^ 32

/-- Main memory as the DCU addresses it. -/
abbrev Memory := ℕ → UInt8

/-- `address_space::read_byte`. -/
def Memory.read_byte (m : Memory) (addr : ℕ) : UInt8 := m (u32 addr)

/-- `address_space::write_byte`. -/
def Memory.write_byte (m : Memory) (addr : ℕ) (v : UInt8) : Memory := update m (u32 addr) v

/-- Two little-endian bytes, as the source assembles a `u16`. -/
def Memory.read_u16 (m : Memory) (addr : ℕ) : ℕ :=
  (m.read_byte addr).toNat ||| (m.read_byte (addr + 1)).toNat <<< 8

/-- Four little-endian bytes, as the source's shift loops assemble a `u32`. -/
def Memory.read_u32 (m : Memory) (addr : ℕ) : ℕ :=
  (m.read_byte addr).toNat ||| (m.read_byte (addr + 1)).toNat <<< 8 |||
    (m.read_byte (addr + 2)).toNat <<< 16 ||| (m.read_byte (addr + 3)).toNat <<< 24

/-- The loop that fills a sector buffer from a page. -/
def Memory.readPage (m : Memory) (addr : ℕ) : Sector := fun b => m.read_byte (addr + b)

/-- The loop that stores a sector buffer into a page, byte after byte. -/
def Memory.writePage (m : Memory) (addr : ℕ) (buffer : Sector) : Memory :=
  (List.finRange 512).foldl (fun m (b : Fin 512) => m.write_byte (addr + b) (buffer b)) m

/-! ## Constants of the command interface -/

/-- Command port is ready. -/
def DCU_READY : UInt8 := 0x80
/-- Executing self test. -/
def DCU_SELFTEST : UInt8 := 0x20
/-- Illegal command. -/
def DCU_AUXERR : UInt8 := 0x10

/-- Per-channel status code. -/
inductive Code where
  /-- `DCU_BUSY`. -/
  | busy
  /-- `DCU_ERROR`. -/
  | error
  /-- `DCU_DONE`. -/
  | done
  /-- `DCU_IDLE`. -/
  | idle
  deriving DecidableEq, Repr

/-- The numeric value of a channel code in `enum dcu_code`. -/
def Code.toByte : Code → UInt8
  | .busy => 0
  | .error => 1
  | .done => 2
  | .idle => 3

def DCU_C_SELFTEST : UInt8 := 0x16
def DCU_C_START : UInt8 := 0x18
def DCU_C_ASSDRIVE : UInt8 := 0x20
def DCU_C_ASSCYLINDER : UInt8 := 0x2e
def DCU_C_ASSBUFFER : UInt8 := 0x42
def DCU_C_SETBURST : UInt8 := 0x74
def DCU_C_SENSE : UInt8 := 0x84
def DCU_C_FORMAT : UInt8 := 0xbc
def DCU_C_READ : UInt8 := 0xde
def DCU_C_WRITE : UInt8 := 0xe6
def DCU_C_SPECIFIC : UInt8 := 0xe8

def IOCB_OPCODE : ℕ := 0
def IOCB_COUNT : ℕ := 3
def IOCB_CYLINDER : ℕ := 6
def IOCB_DRHDSEC : ℕ := 8
def IOCB_BUFFER : ℕ := 10
def IOCB_CHAIN : ℕ := 22
def IOCB_STATUS : ℕ := 26
def IOCB_RESID : ℕ := 27

/-- Sectors per track of the BASF pack, used when a pack carries no header. -/
def DCU_SECTORS : ℕ := 24
/-- Heads per cylinder of the BASF pack. -/
def DCU_HEADS : ℕ := 3
/-- The disktab magic of sector 0. -/
def DCU_DMAGIC : ℕ := 0x6d737000

def IOCB_CHAINBIT : ℕ := 0x80000000
/-- Done with all IOCBs. -/
def IOCB_ES_DONE : UInt8 := 0x80
/-- Chain acknowledge. -/
def IOCB_ES_CHAIN : UInt8 := 0x40
/-- Drive check. -/
def IOCB_ES_DRIVE : UInt8 := 0x08

/-! ## State -/

/-- The driver state that the DCU functions read and write. -/
structure Dcu (D : Type*) where
  /-- `m_dcu_chan`: the three argument bytes. -/
  chan : Fin 3 → UInt8
  /-- `m_dcu_op`: opcode being executed. -/
  op : UInt8
  /-- `m_dcu_code`: channel 0 status code. -/
  code : Code
  /-- `m_dcu_selftest`. -/
  selftest : Bool
  /-- `m_dcu_auxerr`. -/
  auxerr : Bool
  /-- `m_dcu_unit`. -/
  unit : ℕ
  /-- `m_dcu_sectors`, zero while a unit's geometry has not been fetched. -/
  sectors : ℕ → ℕ
  /-- `m_dcu_heads`. -/
  heads : ℕ → ℕ
  /-- `m_dcu_timer` is armed. -/
  timer : Bool
  /-- Level last driven on ICU line 3. -/
  line3 : Bool
  /-- `m_hd`. -/
  hd : ℕ → D
  /-- The CPU's program space. -/
  mem : Memory

variable {D : Type*} [HardDisk D]

/-- A drive is addressable and has an image mounted. -/
def dcu_unit_ok (s : Dcu D) (unit : ℕ) : Bool :=
  decide (unit < 2) && HardDisk.isMounted (s.hd unit)

/-- Sectors per track and heads that a disktab header names, when its magic
and both fields are acceptable. -/
def headerGeometry (header : Sector) : Option (ℕ × ℕ) :=
  let magic := (header 0).toNat ||| (header 1).toNat <<< 8 |||
    (header 2).toNat <<< 16 ||| (header 3).toNat <<< 24
  let nsec := (header 8).toNat ||| (header 9).toNat <<< 8
  let ntr := (header 10).toNat ||| (header 11).toNat <<< 8
  if magic ≠ DCU_DMAGIC then none
  else if nsec ≠ 0 ∧ ntr ≠ 0 ∧ nsec < 256 ∧ ntr < 32 then some (nsec, ntr) else none

/-- Store one unit's cached shape. -/
def Dcu.setGeometry (s : Dcu D) (unit : ℕ) (g : ℕ × ℕ) : Dcu D :=
  { s with sectors := update s.sectors unit g.1, heads := update s.heads unit g.2 }

/-- Fill a unit's geometry cache on first use: the default shape first, then
the header of sector 0 when it can be read and is acceptable. -/
def dcu_geometry (s : Dcu D) (unit : ℕ) : Dcu D :=
  if s.sectors unit ≠ 0 then s
  else
    let s := s.setGeometry unit (DCU_SECTORS, DCU_HEADS)
    let r := HardDisk.read (s.hd unit) 0
    let s := { s with hd := update s.hd unit r.2 }
    match r.1.bind headerGeometry with
    | none => s
    | some g => s.setGeometry unit g

/-! ## IOCB transfer -/

/-- The fields `dcu_transfer` reads from one IOCB before it acts on it. -/
structure Iocb where
  opcode : UInt8
  count : UInt8
  cylinder : ℕ
  drhdsec : ℕ
  table : ℕ
  chain : ℕ

/-- The reads at the top of the chain loop. -/
def readIocb (m : Memory) (iocb : ℕ) : Iocb where
  opcode := m.read_byte (iocb + IOCB_OPCODE)
  count := m.read_byte (iocb + IOCB_COUNT)
  cylinder := m.read_u16 (iocb + IOCB_CYLINDER)
  drhdsec := m.read_u16 (iocb + IOCB_DRHDSEC)
  table := m.read_u32 (iocb + IOCB_BUFFER)
  chain := m.read_u32 (iocb + IOCB_CHAIN)

/-- The drive number, the top three bits of the drive/head/sector word. -/
def Iocb.unit (c : Iocb) : ℕ := c.drhdsec >>> 13
/-- The head number, the five bits below the drive number. -/
def Iocb.head (c : Iocb) : ℕ := (c.drhdsec >>> 8) &&& 0x1f
/-- The starting sector on the track, the low byte. -/
def Iocb.sector (c : Iocb) : ℕ := c.drhdsec &&& 0xff

/-- The first block of a transfer under a pack shape. -/
def Iocb.lba (c : Iocb) (sectors heads : ℕ) : ℕ :=
  u32 ((c.cylinder * heads + c.head) * sectors + c.sector)

/-- The link of an IOCB, when its valid bit is set. -/
def Iocb.next (c : Iocb) : Option ℕ :=
  if c.chain &&& IOCB_CHAINBIT ≠ 0 then some (c.chain &&& 0x7fffffff) else none

/-- Physical page of the sector with a given index in a page table. -/
def pageAddr (m : Memory) (table i : ℕ) : ℕ := m.read_u32 (table + i * 4)

/-- One sector of a transfer; false when the drive refuses the access. -/
def dcu_sector (s : Dcu D) (unit : ℕ) (opcode : UInt8) (addr lba : ℕ) : Dcu D × Bool :=
  if opcode = DCU_C_WRITE ∨ opcode = DCU_C_FORMAT then
    let buffer : Sector := if opcode = DCU_C_FORMAT then fun _ => 0 else s.mem.readPage addr
    let r := HardDisk.write (s.hd unit) lba buffer
    ({ s with hd := update s.hd unit r.2 }, r.1)
  else
    let r := HardDisk.read (s.hd unit) lba
    let s := { s with hd := update s.hd unit r.2 }
    match r.1 with
    | none => (s, false)
    | some buffer => ({ s with mem := s.mem.writePage addr buffer }, true)

/-- The sector loop of one IOCB over its remaining count, from sector index
`i` and block `lba`, with the residual it has reached. The last component is
false when a sector failed and the loop was left early. -/
def dcu_sectors (s : Dcu D) (unit : ℕ) (opcode : UInt8) (table : ℕ) :
    ℕ → ℕ → ℕ → UInt8 → Dcu D × UInt8 × Bool
  | 0, _, _, resid => (s, resid, true)
  | n + 1, i, lba, resid =>
    let r := dcu_sector s unit opcode (pageAddr s.mem table i) lba
    if r.2 then dcu_sectors r.1 unit opcode table n (i + 1) (u32 (lba + 1)) (resid - 1)
    else (r.1, resid, false)

/-- What the chain loop does after an IOCB: follow a link, or leave with `ok`. -/
inductive Link where
  /-- `continue` at the linked address. -/
  | next (iocb : ℕ)
  /-- `break` with the value of `ok`. -/
  | stop (ok : Bool)
  deriving DecidableEq, Repr

/-- The transfer an IOCB names, with its residual and whether all of it succeeded. -/
def dcu_access (s : Dcu D) (c : Iocb) : Dcu D × UInt8 × Bool :=
  if dcu_unit_ok s c.unit then
    let s := dcu_geometry s c.unit
    dcu_sectors s c.unit c.opcode c.table c.count.toNat 0
      (c.lba (s.sectors c.unit) (s.heads c.unit)) c.count
  else (s, c.count, false)

/-- Store one byte of an IOCB. -/
def Dcu.putByte (s : Dcu D) (addr : ℕ) (v : UInt8) : Dcu D :=
  { s with mem := s.mem.write_byte addr v }

/-- One round of the chain loop: transfer, residual, then the ending status. -/
def dcu_iocb (s : Dcu D) (iocb : ℕ) : Dcu D × Link :=
  let c := readIocb s.mem iocb
  let r := dcu_access s c
  let s := r.1.putByte (iocb + IOCB_RESID) r.2.1
  if r.2.2 then
    match c.next with
    | some iocb' => (s.putByte (iocb + IOCB_STATUS) IOCB_ES_CHAIN, .next iocb')
    | none => (s.putByte (iocb + IOCB_STATUS) IOCB_ES_DONE, .stop true)
  else (s.putByte (iocb + IOCB_STATUS) IOCB_ES_DRIVE, .stop false)

/-- Follow the IOCB chain. Fuel bounds the number of IOCBs visited; a chain
that is still going when it runs out has no result. -/
def dcu_transfer : ℕ → Dcu D → ℕ → Option (Dcu D × Bool)
  | 0, _, _ => none
  | fuel + 1, s, iocb =>
    match dcu_iocb s iocb with
    | (s, .next iocb') => dcu_transfer fuel s iocb'
    | (s, .stop ok) => some (s, ok)

theorem dcu_transfer_stop {s : Dcu D} {fuel a : ℕ} {ok : Bool} (h : (dcu_iocb s a).2 = .stop ok) :
    dcu_transfer (fuel + 1) s a = some ((dcu_iocb s a).1, ok) := by
  unfold dcu_transfer
  rw [← Prod.eta (dcu_iocb s a), h]

theorem dcu_transfer_next {s : Dcu D} {fuel a b : ℕ} (h : (dcu_iocb s a).2 = .next b) :
    dcu_transfer (fuel + 1) s a = dcu_transfer fuel (dcu_iocb s a).1 b := by
  conv_lhs => unfold dcu_transfer
  rw [← Prod.eta (dcu_iocb s a), h]

/-! ## Commands and registers -/

/-- The 24-bit argument in the three argument registers. -/
def dcu_arg (s : Dcu D) : ℕ :=
  (s.chan 0).toNat ||| (s.chan 1).toNat <<< 8 ||| (s.chan 2).toNat <<< 16

/-- Execute the latched opcode on the argument registers. -/
def dcu_execute (fuel : ℕ) (s : Dcu D) : Option (Dcu D × Bool) :=
  if s.op = DCU_C_SELFTEST then some ({ s with selftest := false }, true)
  else if s.op = DCU_C_SETBURST ∨ s.op = DCU_C_ASSCYLINDER ∨ s.op = DCU_C_ASSBUFFER ∨
      s.op = DCU_C_SENSE then some (s, true)
  else if s.op = DCU_C_ASSDRIVE then
    let s := { s with unit := dcu_arg s >>> 13 }
    let s := if dcu_unit_ok s s.unit then dcu_geometry s s.unit else s
    some (s, dcu_unit_ok s s.unit)
  else if s.op = DCU_C_SPECIFIC then some (s, dcu_unit_ok s s.unit)
  else if s.op = DCU_C_START then dcu_transfer fuel s (dcu_arg s)
  else some ({ s with auxerr := true }, false)

/-- The timer callback: execute, post the outcome and drop line 3. -/
def dcu_complete (fuel : ℕ) (s : Dcu D) : Option (Dcu D) :=
  (dcu_execute fuel s).map fun r =>
    { r.1 with code := if r.2 then .done else .error, line3 := false }

/-- Guest read of a DCU register. -/
def dcu_r (s : Dcu D) (offset : ℕ) : UInt8 :=
  if offset = 4 then
    DCU_READY ||| s.code.toByte <<< 2 ||| Code.idle.toByte |||
      (if s.selftest then DCU_SELFTEST else 0) ||| (if s.auxerr then DCU_AUXERR else 0)
  else 0

/-- Guest write of a DCU register. -/
def dcu_w (s : Dcu D) (offset : ℕ) (data : UInt8) : Dcu D :=
  match offset with
  | 0 => { s with chan := update s.chan 0 data }
  | 1 => { s with chan := update s.chan 1 data }
  | 2 => { s with chan := update s.chan 2 data }
  | 3 => { s with op := data, code := .busy, auxerr := false, timer := true }
  | 4 => { s with code := .idle, line3 := true }
  | 8 => { s with auxerr := false }
  | _ => s

/-- `machine_reset`, as far as the DCU state goes. The timer is not touched. -/
def machine_reset (s : Dcu D) : Dcu D :=
  { s with
    chan := fun _ => 0, op := 0, code := .idle, selftest := false, auxerr := false,
    unit := 0, sectors := fun _ => 0, heads := fun _ => 0, line3 := true }

/-- Power-on: `machine_start` allocates the timer disarmed, then the first reset. -/
def powerOn (hd : ℕ → D) (mem : Memory) : Dcu D :=
  machine_reset
    { chan := fun _ => 0, op := 0, code := .idle, selftest := false, auxerr := false,
      unit := 0, sectors := fun _ => 0, heads := fun _ => 0, timer := false, line3 := false,
      hd := hd, mem := mem }

/-- A freshly powered machine with two empty images and cleared memory, for
runs on fixed inputs. -/
def blank : Dcu Image := powerOn (fun _ => ⟨[]⟩) fun _ => 0

/-! ## Events -/

/-- What can happen to the controller between two states. -/
inductive Event where
  /-- The guest reads a DCU register. -/
  | read (offset : ℕ)
  /-- The guest writes a DCU register. -/
  | write (offset : ℕ) (data : UInt8)
  /-- The guest stores a byte in main memory. -/
  | store (addr : ℕ) (data : UInt8)
  /-- The command timer expires. -/
  | expire
  /-- A soft reset of the machine. -/
  | reset
  deriving DecidableEq, Repr

/-- One event. An expiry needs an armed timer, which it disarms before the
callback runs; it has no successor when the callback does not finish. -/
def step (fuel : ℕ) (s : Dcu D) : Event → Option (Dcu D)
  | .read _ => some s
  | .write offset data => some (dcu_w s offset data)
  | .store addr data => some (s.putByte addr data)
  | .expire => if s.timer then dcu_complete fuel { s with timer := false } else none
  | .reset => some (machine_reset s)

end Sys16.DcuMachine
