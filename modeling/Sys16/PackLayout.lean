import Sys16.DcuMachine
import Sys16.Mkdisk

/-!
# The layout of a pack, as its three readers see it

A pack header made by `tools/mkdisk.py` is the one `dcu_geometry` accepts, and
the cylinder, head and sector that a disk driver computes from the partition
table come back from an IOCB as the block of the pack they were computed from.
A filesystem block of partition 0 is therefore the two sectors at its own place
in the image, where `tools/rebuild-disk.sh` puts it.
-/

namespace Sys16.PackLayout

open ByteStore LittleEndian PyText PyStruct Mkdisk DcuMachine

variable {s : Shape} {name : Str} {header d fs : Bytes} {n : ℕ}

/-! ## The header, read by the controller -/

/-- A sector of an image file. -/
def sectorAt (image : Bytes) (lba : ℕ) : Sector := fun i => image.getD (lba * 512 + i) 0

theorem sectorAt_zero (i : Fin 512) : sectorAt d 0 i = d.getD i 0 := by
  unfold sectorAt
  rw [Nat.zero_mul, Nat.zero_add]

theorem decode_two (h : n + 2 ≤ d.length) :
    decode (slice d n 2) = (d.getD n 0).toNat + 256 * (d.getD (n + 1) 0).toNat := by
  rw [slice_eq_map h 0, show List.range 2 = [0, 1] from rfl, List.map_cons, List.map_cons,
    List.map_nil, decode_cons, decode_cons, decode_nil, Nat.add_zero, Nat.mul_zero, Nat.add_zero]

theorem decode_four (h : n + 4 ≤ d.length) :
    decode (slice d n 4) = (d.getD n 0).toNat + 256 * (d.getD (n + 1) 0).toNat +
      65536 * (d.getD (n + 2) 0).toNat + 16777216 * (d.getD (n + 3) 0).toNat := by
  rw [slice_eq_map h 0, show List.range 4 = [0, 1, 2, 3] from rfl]
  simp only [List.map_cons, List.map_nil, decode_cons, decode_nil, Nat.add_zero]
  omega

/-- The controller's reading of a header, by the numbers in it. -/
theorem headerGeometry_sectorAt (h : 12 ≤ d.length) :
    headerGeometry (sectorAt d 0) =
      if decode (slice d 0 4) ≠ DCU_DMAGIC then none
      else if decode (slice d 8 2) ≠ 0 ∧ decode (slice d 10 2) ≠ 0 ∧ decode (slice d 8 2) < 256 ∧
          decode (slice d 10 2) < 32 then
        some (decode (slice d 8 2), decode (slice d 10 2)) else none := by
  rw [decode_four (by omega), decode_two (by omega), decode_two (by omega)]
  unfold headerGeometry
  dsimp only
  rw [or_bytes₄, or_bytes₂, or_bytes₂]
  simp only [sectorAt_zero]
  rfl

/-- The header is the start of the pack. -/
theorem slice_pack {w : ℕ} (hl : header.length = 92) (h : n + w ≤ 92) :
    slice (pack s header) n w = slice header n w := by
  unfold pack setSlice
  rw [List.take_zero, List.nil_append, slice_append_left _ _ (by rw [length_pad (by omega)]; omega)]
  unfold pad
  rw [slice_append_left _ _ (by omega)]

/-- A pack holds at least the sector of its header. -/
theorem length_pack (hl : header.length = 92) :
    (pack s header).length = max ((layout s).spunit * 512) 512 := by
  have hpad : (pad 512 header).length = 512 := length_pad (by omega)
  unfold pack setSlice
  rw [List.length_append, List.length_append, hpad, List.take_zero, List.length_nil,
    List.length_drop, List.length_replicate]
  omega

/-- A sector 0 that starts with a header names the header's shape. -/
theorem headerGeometry_of_disktab (h : disktabOf s name = .ok header)
    (hsec : 0 < s.nsec ∧ s.nsec < 256) (htr : 0 < s.ntr ∧ s.ntr < 32) (hlen : 92 ≤ d.length)
    (hd : slice d 0 92 = header) : headerGeometry (sectorAt d 0) = some (s.nsec, s.ntr) := by
  obtain ⟨f, rfl⟩ := disktabOf_fields h
  have hmagic : decode (slice f.bytes 0 4) = DCU_DMAGIC := by
    rw [f.slice_magic]
    exact Format.decode_pack f.magic_eq
  have hnsec : decode (slice f.bytes 8 2) = s.nsec := f.decode_short (k := 2) rfl
  have hntr : decode (slice f.bytes 10 2) = s.ntr := f.decode_short (k := 3) rfl
  have hfield : ∀ n w, n + w ≤ 92 → slice d n w = slice f.bytes n w := by
    intro n w hw
    rw [← hd, slice_slice d 0 92 n w hw, Nat.zero_add]
  rw [headerGeometry_sectorAt (by omega), hfield 0 4 (by omega), hfield 8 2 (by omega),
    hfield 10 2 (by omega), hmagic, hnsec, hntr, if_neg (not_not.mpr rfl), if_pos (by omega)]

/-- Sector 0 of a pack names the shape it was made for. -/
theorem headerGeometry_pack (h : disktabOf s name = .ok header) (hsec : 0 < s.nsec ∧ s.nsec < 256)
    (htr : 0 < s.ntr ∧ s.ntr < 32) :
    headerGeometry (sectorAt (pack s header) 0) = some (s.nsec, s.ntr) := by
  have h92 := length_disktabOf h
  refine headerGeometry_of_disktab h hsec htr ?_ ((slice_pack h92 (by omega)).trans (slice_all h92))
  rw [length_pack h92]
  omega

/-! ## Positions on a pack -/

/-- A position on a pack. -/
structure Address where
  cylinder : ℕ
  head : ℕ
  sector : ℕ
  deriving DecidableEq, Repr

/-- The position is on a pack of the shape. -/
structure Address.InShape (s : Shape) (a : Address) : Prop where
  cylinder : a.cylinder < s.ncyl
  head : a.head < s.ntr
  sector : a.sector < s.nsec

/-- The block of the pack at a position. -/
def Address.block (s : Shape) (a : Address) : ℕ := (a.cylinder * s.ntr + a.head) * s.nsec + a.sector

/-- Where the disk driver finds a sector of a partition that starts at a cylinder. -/
def driverAddress (s : Shape) (cyloff b : ℕ) : Address where
  cylinder := cyloff + b / (layout s).spcyl
  head := b % (layout s).spcyl / s.nsec
  sector := b % s.nsec

/-- A sector of a partition is that many blocks after its first cylinder. -/
theorem block_driverAddress (s : Shape) (cyloff b : ℕ) :
    (driverAddress s cyloff b).block s = cyloff * (layout s).spcyl + b := by
  have hspcyl : (layout s).spcyl = s.nsec * s.ntr := rfl
  have hsec : b % (s.nsec * s.ntr) % s.nsec = b % s.nsec := Nat.mod_mul_right_mod b s.nsec s.ntr
  have htrack : s.nsec * (b % (s.nsec * s.ntr) / s.nsec) + b % s.nsec = b % (s.nsec * s.ntr) :=
    hsec ▸ Nat.div_add_mod _ s.nsec
  have hcyl : s.nsec * s.ntr * (b / (s.nsec * s.ntr)) + b % (s.nsec * s.ntr) = b :=
    Nat.div_add_mod b _
  unfold Address.block driverAddress
  dsimp only
  rw [hspcyl]
  calc ((cyloff + b / (s.nsec * s.ntr)) * s.ntr + b % (s.nsec * s.ntr) / s.nsec) * s.nsec +
        b % s.nsec
      = cyloff * (s.nsec * s.ntr) + (s.nsec * s.ntr * (b / (s.nsec * s.ntr)) +
          (s.nsec * (b % (s.nsec * s.ntr) / s.nsec) + b % s.nsec)) := by ring
    _ = cyloff * (s.nsec * s.ntr) + b := by rw [htrack, hcyl]

/-- Positions of one shape are told apart by their blocks. -/
theorem block_injective {a a' : Address} (ha : a.InShape s) (ha' : a'.InShape s)
    (h : a.block s = a'.block s) : a = a' := by
  have hsec : a.sector = a'.sector := by
    have hmod := congrArg (· % s.nsec) h
    simpa only [Address.block, Nat.mul_add_mod_self_right, Nat.mod_eq_of_lt ha.sector,
      Nat.mod_eq_of_lt ha'.sector] using hmod
  have htrack : a.cylinder * s.ntr + a.head = a'.cylinder * s.ntr + a'.head := by
    unfold Address.block at h
    rw [hsec] at h
    exact Nat.eq_of_mul_eq_mul_right (Nat.lt_of_le_of_lt (Nat.zero_le _) ha.sector)
      (Nat.add_right_cancel h)
  have hhead : a.head = a'.head := by
    have hmod := congrArg (· % s.ntr) htrack
    simpa only [Nat.mul_add_mod_self_right, Nat.mod_eq_of_lt ha.head,
      Nat.mod_eq_of_lt ha'.head] using hmod
  have hcyl : a.cylinder = a'.cylinder := by
    rw [hhead] at htrack
    exact Nat.eq_of_mul_eq_mul_right (Nat.lt_of_le_of_lt (Nat.zero_le _) ha.head)
      (Nat.add_right_cancel htrack)
  cases a
  cases a'
  simp_all only

/-! ## Through the words of an IOCB -/

/-- The cylinder word and the drive, head and sector word of an IOCB. -/
def addressWords (unit : ℕ) (a : Address) : Bytes :=
  encode 2 a.cylinder ++ encode 2 (unit <<< 13 ||| a.head <<< 8 ||| a.sector)

/-- An IOCB in memory names a unit and a position. -/
def Carries (m : Memory) (iocb unit : ℕ) (a : Address) : Prop :=
  ∀ i < 4, (addressWords unit a)[i]? = some (m.read_byte (iocb + IOCB_CYLINDER + i))

/-- A word in memory is read back. -/
theorem read_u16_of_encode {m : Memory} {addr x : ℕ} (hx : x < 65536)
    (h : ∀ i < 2, (encode 2 x)[i]? = some (m.read_byte (addr + i))) : m.read_u16 addr = x := by
  have h0 : UInt8.ofNat x = m.read_byte addr := Option.some.inj (h 0 (by decide))
  have h1 : UInt8.ofNat (x / 256) = m.read_byte (addr + 1) := Option.some.inj (h 1 (by decide))
  unfold Memory.read_u16
  rw [or_bytes₂, ← h0, ← h1, UInt8.toNat_ofNat', UInt8.toNat_ofNat']
  omega

/-- The drive, head and sector word as a sum. -/
theorem word_eq (unit : ℕ) {head sector : ℕ} (hh : head < 32) (hs : sector < 256) :
    unit <<< 13 ||| head <<< 8 ||| sector = sector + 256 * (head + 32 * unit) := by
  have hlow : sector ||| head <<< 8 = sector + 256 * head := by
    rw [or_shiftLeft (by omega)]
    omega
  rw [Nat.or_assoc, Nat.or_comm (head <<< 8), hlow, Nat.or_comm, or_shiftLeft (by omega)]
  omega

/-- The controller takes the words of an IOCB apart into what was put in. -/
theorem readIocb_of_carries {m : Memory} {iocb unit : ℕ} {a : Address} (hu : unit < 8)
    (hc : a.cylinder < 65536) (hh : a.head < 32) (hs : a.sector < 256)
    (h : Carries m iocb unit a) :
    (readIocb m iocb).unit = unit ∧ (readIocb m iocb).cylinder = a.cylinder ∧
      (readIocb m iocb).head = a.head ∧ (readIocb m iocb).sector = a.sector := by
  have hword := word_eq unit hh hs
  have hcyl : (readIocb m iocb).cylinder = a.cylinder := by
    refine read_u16_of_encode hc fun i hi => ?_
    rw [← h i (by omega)]
    unfold addressWords
    rw [List.getElem?_append_left (by rw [length_encode]; exact hi)]
  have hdrhd : (readIocb m iocb).drhdsec = a.sector + 256 * (a.head + 32 * unit) := by
    refine read_u16_of_encode (by omega) fun i hi => ?_
    have hat := h (2 + i) (by omega)
    unfold addressWords at hat
    rw [List.getElem?_append_right (by rw [length_encode]; omega), length_encode, hword,
      Nat.add_sub_cancel_left, ← Nat.add_assoc] at hat
    exact hat
  refine ⟨?_, hcyl, ?_, ?_⟩
  · unfold Iocb.unit
    rw [hdrhd, Nat.shiftRight_eq_div_pow]
    omega
  · unfold Iocb.head
    rw [hdrhd, Nat.shiftRight_eq_div_pow, Nat.and_two_pow_sub_one_eq_mod _ 5]
    omega
  · unfold Iocb.sector
    rw [hdrhd, Nat.and_two_pow_sub_one_eq_mod _ 8]
    omega

/-! ## The partitions -/

/-- `swap_cyls` of `layout`. -/
def swap_cyls (s : Shape) : ℕ :=
  max 46 ((5040 + (layout s).spcyl - 1) / (layout s).spcyl + 1)

/-- `root_cyls` of `layout`. -/
def root_cyls (s : Shape) : ℤ := s.ncyl - swap_cyls s

/-- The eight partitions of a layout. -/
theorem layout_part (s : Shape) :
    (layout s).part = [(root_cyls s * (layout s).spcyl, 0),
      (swap_cyls s * (layout s).spcyl, root_cyls s), (root_cyls s * (layout s).spcyl, 0),
      (swap_cyls s * (layout s).spcyl, root_cyls s), ((layout s).spunit, 0), (0, 0), (0, 0),
      (0, 0)] := rfl

theorem root_mem (s : Shape) : (root_cyls s * (layout s).spcyl, 0) ∈ (layout s).part := by
  rw [layout_part]
  exact List.mem_cons_self

/-- A partition is a run of whole cylinders of the pack. -/
theorem part_cylinders (hroot : 1 ≤ root_cyls s) {p : ℤ × ℤ} (hp : p ∈ (layout s).part) :
    0 ≤ p.2 ∧ ∃ cyls : ℕ, p.1 = (cyls * (layout s).spcyl : ℕ) ∧ p.2.toNat + cyls ≤ s.ncyl := by
  have hsum : root_cyls s + swap_cyls s = s.ncyl := by
    unfold root_cyls
    omega
  obtain ⟨r, hr⟩ := Int.eq_ofNat_of_zero_le (show 0 ≤ root_cyls s by omega)
  have hspunit : (layout s).spunit = s.ncyl * (layout s).spcyl := Nat.mul_comm _ _
  rw [layout_part, hr] at hp
  rw [hr] at hsum hroot
  simp only [List.mem_cons, List.not_mem_nil, or_false] at hp
  rcases hp with rfl | rfl | rfl | rfl | rfl | rfl | rfl | rfl
  · exact ⟨le_refl 0, r, by push_cast; rfl, by dsimp only; omega⟩
  · exact ⟨by dsimp only; omega, swap_cyls s, by push_cast; rfl, by dsimp only; omega⟩
  · exact ⟨le_refl 0, r, by push_cast; rfl, by dsimp only; omega⟩
  · exact ⟨by dsimp only; omega, swap_cyls s, by push_cast; rfl, by dsimp only; omega⟩
  · exact ⟨le_refl 0, s.ncyl, by rw [hspunit], by dsimp only; omega⟩
  all_goals exact ⟨le_refl 0, 0, by rw [Nat.zero_mul]; rfl, by dsimp only; omega⟩

/-- The driver's positions inside a partition are on the pack. -/
theorem driverAddress_inShape (hsec : 0 < s.nsec) (htr : 0 < s.ntr) {cyloff cyls b : ℕ}
    (hfit : cyloff + cyls ≤ s.ncyl) (hb : b < cyls * (layout s).spcyl) :
    (driverAddress s cyloff b).InShape s := by
  have hspcyl : (layout s).spcyl = s.nsec * s.ntr := rfl
  have hpos : 0 < (layout s).spcyl := Nat.mul_pos hsec htr
  have hcyl : b / (layout s).spcyl < cyls := (Nat.div_lt_iff_lt_mul hpos).mpr hb
  refine ⟨?_, ?_, Nat.mod_lt b hsec⟩
  · show cyloff + b / (layout s).spcyl < s.ncyl
    omega
  · show b % (layout s).spcyl / s.nsec < s.ntr
    refine (Nat.div_lt_iff_lt_mul hsec).mpr ?_
    rw [Nat.mul_comm, ← hspcyl]
    exact Nat.mod_lt b hpos

/-- The blocks of a pack whose header could be packed are 32-bit numbers. -/
theorem block_lt {a : Address} (ha : a.InShape s) (hcyl : s.ncyl < 2 ^ 15) (hsec : s.nsec < 256)
    (htr : s.ntr < 32) : a.block s < 2 ^ 32 := by
  have hc := ha.cylinder
  have hh := ha.head
  have hs := ha.sector
  have htrack : a.cylinder * s.ntr + a.head ≤ 32767 * 31 + 31 :=
    Nat.add_le_add (Nat.mul_le_mul (by omega) (by omega)) (by omega)
  have hblock : (a.cylinder * s.ntr + a.head) * s.nsec ≤ (32767 * 31 + 31) * 255 :=
    Nat.mul_le_mul htrack (by omega)
  unfold Address.block
  omega

/-! ## The agreement -/

variable {D : Type*} [HardDisk D]

/-- The block at which the controller starts the transfer of an IOCB. -/
def firstBlock (t : Dcu D) (c : Iocb) : ℕ :=
  c.lba ((dcu_geometry t c.unit).sectors c.unit) ((dcu_geometry t c.unit).heads c.unit)

/-- A unit is addressed with a shape. -/
structure Addressed (t : Dcu D) (unit : ℕ) (s : Shape) : Prop where
  sectors : (dcu_geometry t unit).sectors unit = s.nsec
  heads : (dcu_geometry t unit).heads unit = s.ntr

/-- An IOCB that names a position on the pack starts at its block. -/
theorem firstBlock_of_carries (hcyl : s.ncyl < 2 ^ 15) (hsec : s.nsec < 256) (htr : s.ntr < 32)
    {t : Dcu D} {unit iocb : ℕ} {a : Address} (hu : unit < 8) (ht : Addressed t unit s)
    (ha : a.InShape s) (h : Carries t.mem iocb unit a) :
    let c := readIocb t.mem iocb
    c.unit = unit ∧ (c.cylinder * s.ntr + c.head) * s.nsec + c.sector = a.block s ∧
      firstBlock t c = a.block s := by
  have hc := ha.cylinder
  have hh := ha.head
  have hs := ha.sector
  obtain ⟨hunit, hcylinder, hhead, hsector⟩ :=
    readIocb_of_carries hu (by omega) (by omega) (by omega) h
  dsimp only
  refine ⟨hunit, by rw [hcylinder, hhead, hsector]; rfl, ?_⟩
  unfold firstBlock Iocb.lba
  rw [hunit, ht.sectors, ht.heads, hcylinder, hhead, hsector]
  exact Nat.mod_eq_of_lt (block_lt ha hcyl hsec htr)

/-- The filesystem written over the start of a pack, as `rebuild-disk.sh` does. -/
def overlay (img fs : Bytes) : Bytes := setSlice img 0 fs

/-- Within the filesystem the overlay holds its bytes. -/
theorem overlay_getD {img : Bytes} {k : ℕ} (hk : k < fs.length) :
    (overlay img fs).getD k 0 = fs.getD k 0 := by
  unfold overlay setSlice
  rw [List.take_zero, List.nil_append, List.getD_eq_getElem?_getD, List.getD_eq_getElem?_getD,
    List.getElem?_append_left hk]

/-- The header of a pack, the controller and the layout of its partitions agree. -/
structure Agrees (D : Type*) [HardDisk D] (s : Shape) (header : Bytes) : Prop where
  /-- A first look at sector 0 finds the shape. -/
  geometry : ∀ (t : Dcu D) (unit : ℕ), t.sectors unit = 0 →
    (HardDisk.read (t.hd unit) 0).1 = some (sectorAt (pack s header) 0) → Addressed t unit s
  /-- The driver's position of every sector of every partition comes out of an
  IOCB as the sector's block, nothing having wrapped. -/
  placed : ∀ p ∈ (layout s).part, 0 ≤ p.2 ∧ ∀ b : ℕ, (b : ℤ) < p.1 →
    ∀ (t : Dcu D) (unit iocb : ℕ), unit < 8 → Addressed t unit s →
      Carries t.mem iocb unit (driverAddress s p.2.toNat b) →
      let c := readIocb t.mem iocb
      c.unit = unit ∧ firstBlock t c = (c.cylinder * s.ntr + c.head) * s.nsec + c.sector ∧
        firstBlock t c = p.2.toNat * (layout s).spcyl + b
  /-- Different positions on the pack are different blocks. -/
  injective : ∀ (t t' : Dcu D) (unit unit' iocb iocb' : ℕ) (a a' : Address),
    unit < 8 → unit' < 8 → Addressed t unit s → Addressed t' unit' s →
    a.InShape s → a'.InShape s → Carries t.mem iocb unit a → Carries t'.mem iocb' unit' a' →
    firstBlock t (readIocb t.mem iocb) = firstBlock t' (readIocb t'.mem iocb') → a = a'
  /-- The two sectors of a block of a filesystem in partition 0 are at its own
  place in the image, and hold what was written over the start of the pack. -/
  filesystem : ∀ n : ℕ, (n : ℤ) < root_blocks s → ∀ k < 2, ∀ (t : Dcu D) (unit iocb : ℕ),
    unit < 8 → Addressed t unit s → Carries t.mem iocb unit (driverAddress s 0 (2 * n + k)) →
    ∀ (img fs : Bytes) (i : Fin 512),
      sectorAt img (firstBlock t (readIocb t.mem iocb)) i = img.getD (1024 * n + (512 * k + i)) 0 ∧
        (1024 * (n + 1) ≤ fs.length →
          sectorAt (overlay img fs) (firstBlock t (readIocb t.mem iocb)) i =
            fs.getD (1024 * n + (512 * k + i)) 0)

/-- The controller's first look at a pack finds its shape. -/
theorem addressed_of_pack (h : disktabOf s name = .ok header)
    (hsec : 0 < s.nsec ∧ s.nsec < 256) (htr : 0 < s.ntr ∧ s.ntr < 32) {t : Dcu D} {unit : ℕ}
    (hfresh : t.sectors unit = 0)
    (hread : (HardDisk.read (t.hd unit) 0).1 = some (sectorAt (pack s header) 0)) :
    Addressed t unit s := by
  have hheader := headerGeometry_pack h hsec htr
  have hgeometry : (dcu_geometry t unit).sectors unit = s.nsec ∧
      (dcu_geometry t unit).heads unit = s.ntr := by
    unfold dcu_geometry
    rw [if_neg (not_not.mpr hfresh)]
    dsimp only [Dcu.setGeometry]
    rw [hread, Option.bind_some, hheader]
    exact ⟨Function.update_self .., Function.update_self ..⟩
  exact ⟨hgeometry.1, hgeometry.2⟩

/-- For every shape that leaves the root a cylinder and whose header can be
packed, header, controller and partitions agree. -/
theorem layout_agrees (hsec : 0 < s.nsec ∧ s.nsec < 256) (htr : 0 < s.ntr ∧ s.ntr < 32)
    (hroot : 1 ≤ root_cyls s) (h : disktabOf s name = .ok header) : Agrees D s header := by
  have hcyl : s.ncyl < 2 ^ 15 := by
    obtain ⟨f, rfl⟩ := disktabOf_fields h
    exact f.ncyl_lt
  refine ⟨fun t unit hfresh hread => addressed_of_pack h hsec htr hfresh hread, ?_, ?_, ?_⟩
  · intro p hp
    obtain ⟨hnonneg, cyls, hcyls, hfit⟩ := part_cylinders hroot hp
    refine ⟨hnonneg, fun b hb t unit iocb hu ht hc => ?_⟩
    rw [hcyls] at hb
    have ha := driverAddress_inShape hsec.1 htr.1 hfit (by exact_mod_cast hb)
    obtain ⟨hunit, hsum, hblock⟩ := firstBlock_of_carries hcyl hsec.2 htr.2 hu ht ha hc
    exact ⟨hunit, hblock.trans hsum.symm, hblock.trans (block_driverAddress s _ b)⟩
  · intro t t' unit unit' iocb iocb' a a' hu hu' ht ht' ha ha' hc hc' heq
    refine block_injective ha ha' ?_
    rw [← (firstBlock_of_carries hcyl hsec.2 htr.2 hu ht ha hc).2.2, heq,
      (firstBlock_of_carries hcyl hsec.2 htr.2 hu' ht' ha' hc').2.2]
  · intro n hn k hk t unit iocb hu ht hc img fs i
    obtain ⟨-, cyls, hcyls, hfit⟩ := part_cylinders hroot (root_mem s)
    have hb : 2 * n + k < cyls * (layout s).spcyl := by
      have hlen : root_blocks s = root_cyls s * (layout s).spcyl / 2 := rfl
      have hlen' : root_cyls s * (layout s).spcyl = (cyls * (layout s).spcyl : ℕ) := hcyls
      omega
    have ha : (driverAddress s 0 (2 * n + k)).InShape s :=
      driverAddress_inShape hsec.1 htr.1 hfit hb
    obtain ⟨-, -, hblock⟩ := firstBlock_of_carries hcyl hsec.2 htr.2 hu ht ha hc
    have hat : firstBlock t (readIocb t.mem iocb) * 512 + i = 1024 * n + (512 * k + i) := by
      have hoff : firstBlock t (readIocb t.mem iocb) = 0 * (layout s).spcyl + (2 * n + k) :=
        hblock.trans (block_driverAddress s 0 (2 * n + k))
      rw [Nat.zero_mul] at hoff
      omega
    unfold sectorAt
    rw [hat]
    exact ⟨rfl, fun hfs => overlay_getD (by have := i.isLt; omega)⟩

/-- The agreement for the packs of the default drive type. -/
theorem layout_agrees_priam70 :
    ∃ header, disktab .priam70 = .ok header ∧ Agrees Image (DRIVES .priam70) header := by
  obtain ⟨header, h⟩ := exists_of_isOk (x := disktab .priam70) (by decide +kernel)
  exact ⟨header, h, layout_agrees (by decide) (by decide) (by decide) h⟩

end Sys16.PackLayout
