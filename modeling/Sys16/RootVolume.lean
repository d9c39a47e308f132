import Sys16.DcuSectorStore
import Sys16.PackOverlay
import Sys16.TreeExtract

/-!
# The root volume, as a guest gets it through the controller

The disk of `tools/rebuild-disk.sh` on a drive, read block by block with
DC_START commands whose IOCBs name the cylinder, head and sector that the disk
driver computes for partition 0. What arrives in the pages is the image of
`tools/mkfs.py`, whatever else the guest does to the drives in between as long
as it writes no sector of it, so the tree that went into the disk comes out.
-/

namespace Sys16.RootVolume

open Function ByteStore PyText PyStruct EventRuns StoreHistory HostWalk MkfsBuild MkfsActs MkfsWalk
open MkfsRoundTrip MkfsNamespace MkfsKinds Mkdisk DcuMachine DcuMemory DcuGeometry DcuSectorStore
open PackLayout PackOverlay S5Walk TreeExtract

variable {D : Type*} [FlatDrive D] {t u : Dcu D} {hd : ℕ → D} {mem : Memory} {s : Shape}
  {name : Str} {header disk fs : Bytes} {unit n fuel : ℕ} {c : Command} {b : Build}

/-! ## Commands that read blocks -/

/-- A command that reads one block of the filesystem in partition 0 of a unit,
as the disk driver does: one IOCB with the position of the block's first
sector, for two sectors. -/
structure BlockRead (s : Shape) (unit n : ℕ) (c : Command) : Prop where
  chain : c.chain = [c.iocb]
  opcode : (readIocb c.mem c.iocb).opcode = DCU_C_READ
  count : (readIocb c.mem c.iocb).count = 2
  carries : Carries c.mem c.iocb unit (driverAddress s 0 (2 * n))

/-- The bytes that a command with two pages has left in them. -/
def delivered (c : Command) (u : Dcu D) : Bytes :=
  (List.range 2).flatMap fun k =>
    List.ofFn (u.mem.readPage (pageAddr c.mem (readIocb c.mem c.iocb).table k))

/-- Read blocks one after the other, with other commands before each of them. -/
def readVolume (fuel : ℕ) : Dcu D → List (List Command × Command) → Option (Bytes × Dcu D)
  | t, [] => some ([], t)
  | t, (cs, c) :: rest => do
    let t ← run (commandStep fuel) t cs
    let (u, ok) ← c.run fuel t
    if ok then
      let (v, w) ← readVolume fuel u rest
      return (delivered c u ++ v, w)
    else none

/-- A command writes no sector of a unit that begins before a number of bytes. -/
def Spares (t : Dcu D) (unit len : ℕ) (c : Command) : Prop :=
  ∀ o ∈ c.named t, o.Writes → o.unit = unit → len ≤ o.pos * 512

/-! ## Sectors and bytes -/

/-- A sector of an image file is its bytes at the sector's place. -/
theorem ofFn_sectorAt {l : ℕ} (h : l * 512 + 512 ≤ disk.length) :
    List.ofFn (sectorAt disk l) = slice disk (l * 512) 512 := by
  rw [slice_eq_map h 0]
  refine List.ext_getElem (by rw [List.length_ofFn, List.length_map, List.length_range])
    fun i h1 h2 => ?_
  rw [List.getElem_ofFn, List.getElem_map, List.getElem_range]
  unfold sectorAt
  dsimp only

/-- Two slices next to each other. -/
theorem slice_append_slice (d : Bytes) (off n m : ℕ) :
    slice d off n ++ slice d (off + n) m = slice d off (n + m) := by
  unfold slice
  rw [← List.drop_drop, List.take_add]

/-- A block inside some bytes has both its sectors there. -/
theorem block_bounds {m : ℕ} (h : n * 1024 + 1024 ≤ m) :
    2 * n * 512 + 512 ≤ m ∧ (2 * n + 1) * 512 + 512 ≤ m := by
  have hfirst : 2 * n * 512 = n * 1024 := by ring
  rw [hfirst]
  omega

/-- The two sectors of a block are the block's bytes. -/
theorem block_sectors (h : n * 1024 + 1024 ≤ disk.length) :
    List.ofFn (sectorAt disk (2 * n)) ++ List.ofFn (sectorAt disk (2 * n + 1)) =
      slice disk (n * 1024) 1024 := by
  obtain ⟨h0, h1⟩ := block_bounds h
  rw [ofFn_sectorAt h0, ofFn_sectorAt h1, show (2 * n + 1) * 512 = 2 * n * 512 + 512 by ring,
    slice_append_slice, show 2 * n * 512 = n * 1024 by ring]

/-- Where the run stands: the drives are those it began with, and the unit
still holds the filesystem. -/
structure Serves (t₀ : Dcu D) (unit : ℕ) (fs : Bytes) (t : Dcu D) : Prop where
  same : SameDrives t₀ t
  range : InRange t
  stored : ∀ l, l * 512 + 512 ≤ fs.length → contents t (unit, l) = some (sectorAt fs l)

/-- A unit on which the driver finds the blocks of a filesystem. -/
structure Volume (t₀ : Dcu D) (s : Shape) (unit : ℕ) (fs : Bytes) : Prop where
  unit_ok : dcu_unit_ok t₀ unit = true
  shape : geometry t₀ unit = (s.nsec, s.ntr)
  sectors : 0 < s.nsec ∧ s.nsec < 256
  heads : 0 < s.ntr ∧ s.ntr < 32
  cylinders : s.ncyl < 2 ^ 15
  /-- The filesystem is within the root partition, which leaves room for swap. -/
  short : (fs.length : ℤ) ≤ root_cyls s * (layout s).spcyl * 512
  serves : Serves t₀ unit fs t₀

/-- Commands that spare the filesystem leave it served. -/
theorem Serves.commands {t₀ : Dcu D} (h : Serves t₀ unit fs t) {cs : List Command}
    (hspare : ∀ c ∈ cs, Spares t₀ unit fs.length c) (hfuel : ∀ c ∈ cs, c.chain.length ≤ fuel) :
    ∃ u, run (commandStep fuel) t cs = some u ∧ Serves t₀ unit fs u := by
  obtain ⟨u, hu, hsame, hrange, hstore⟩ := run_store h.range hfuel
  refine ⟨u, hu, h.same.trans hsame, hrange, fun l hl => ?_⟩
  rw [← h.stored l hl, hstore]
  refine replay_of_not_mem fun w hw hat => ?_
  rw [history_sameDrives cs h.same] at hw
  obtain ⟨c, hc, hwc⟩ := List.mem_flatMap.mp hw
  obtain ⟨o, ho, hwrites, hpos⟩ := Command.writes_named hwc
  rw [hat] at hpos
  obtain ⟨hunit, hl'⟩ := Prod.mk.inj hpos
  have hpast := hspare c hc o ho hwrites hunit
  omega

/-- The position in a block-reading IOCB is that of the block's first sector. -/
theorem BlockRead.position {t₀ : Dcu D} (hv : Volume t₀ s unit fs) (hc : BlockRead s unit n c)
    (hn : n * 1024 + 1024 ≤ fs.length) :
    (readIocb c.mem c.iocb).unit = unit ∧
      Iocb.position (readIocb c.mem c.iocb) (s.nsec, s.ntr) = 2 * n := by
  have hu2 : unit < 8 := by
    have hok := hv.unit_ok
    unfold dcu_unit_ok at hok
    simp only [Bool.and_eq_true, decide_eq_true_eq] at hok
    omega
  have hroot : 1 ≤ root_cyls s := by
    by_contra hneg
    have hle : root_cyls s * (layout s).spcyl * 512 ≤ 0 := by
      have h0 : root_cyls s ≤ 0 := by omega
      have h1 : root_cyls s * (layout s).spcyl ≤ 0 :=
        Int.mul_nonpos_of_nonpos_of_nonneg h0 (Int.natCast_nonneg _)
      omega
    have hshort := hv.short
    omega
  obtain ⟨-, cyls, hcyls, hfit⟩ := part_cylinders hroot (root_mem s)
  have hb : 2 * n < cyls * (layout s).spcyl := by
    have hshort := hv.short
    have hcyls' : root_cyls s * (layout s).spcyl = (cyls * (layout s).spcyl : ℕ) := hcyls
    rw [hcyls'] at hshort
    omega
  have ha : (driverAddress s 0 (2 * n)).InShape s :=
    driverAddress_inShape hv.sectors.1 hv.heads.1 hfit hb
  have hcyl := ha.cylinder
  have hhead := ha.head
  have hsec := ha.sector
  have hcylinders := hv.cylinders
  have hheads := hv.heads.2
  have hsectors := hv.sectors.2
  obtain ⟨hunit, h1, h2, h3⟩ :=
    readIocb_of_carries hu2 (by omega) (by omega) (by omega) hc.carries
  refine ⟨hunit, ?_⟩
  unfold Iocb.position
  rw [h1, h2, h3]
  have hblock := block_driverAddress s 0 (2 * n)
  rw [Nat.zero_mul, Nat.zero_add] at hblock
  exact hblock

/-- The accesses of a block-reading command. -/
theorem BlockRead.ops {t₀ : Dcu D} (hv : Volume t₀ s unit fs) (hc : BlockRead s unit n c)
    (hn : n * 1024 + 1024 ≤ fs.length) :
    iocbOps t₀ c.mem c.iocb =
      [⟨DCU_C_READ, unit, 2 * n, pageAddr c.mem (readIocb c.mem c.iocb).table 0⟩,
        ⟨DCU_C_READ, unit, 2 * n + 1, pageAddr c.mem (readIocb c.mem c.iocb).table 1⟩] := by
  obtain ⟨hunit, hpos⟩ := hc.position hv hn
  have hcount : (readIocb c.mem c.iocb).count.toNat = 2 := by rw [hc.count]; rfl
  have hrange : List.range' 0 2 = [0, 1] := rfl
  unfold iocbOps sectorOps
  rw [hunit, hv.shape, hcount, hrange]
  simp only [List.map_cons, List.map_nil, sectorOp, hc.opcode, hunit, hpos, Nat.add_zero]

/-- A sector of a filesystem served is inside the drive's image. -/
theorem Serves.lt_size {t₀ : Dcu D} (h : Serves t₀ unit fs t) {l : ℕ}
    (hl : l * 512 + 512 ≤ fs.length) : l < FlatDrive.size (t.hd unit) := by
  have hsome := (contents_isSome t (unit, l)).mp (by rw [h.stored l hl]; rfl)
  exact hsome

/-- A block-reading command gets through both its accesses. -/
theorem BlockRead.performed {t₀ : Dcu D} (hv : Volume t₀ s unit fs) (hs : Serves t₀ unit fs t)
    (hc : BlockRead s unit n c) (hn : n * 1024 + 1024 ≤ fs.length) :
    performed t c.mem c.chain = (iocbOps t₀ c.mem c.iocb, true) := by
  have hops : iocbOps t c.mem c.iocb = iocbOps t₀ c.mem c.iocb := hs.same.iocbOps _ _
  have hunit := (hc.position hv hn).1
  have hok : dcu_unit_ok t (readIocb c.mem c.iocb).unit = true := by
    rw [hs.same.unit_ok, hunit]
    exact hv.unit_ok
  have hdone : iocbDone t c.mem c.iocb = iocbOps t₀ c.mem c.iocb := by
    unfold iocbDone
    rw [if_pos hok, hops, hunit, hc.ops hv hn]
    have h0 := hs.lt_size (block_bounds hn).1
    have h1 := hs.lt_size (block_bounds hn).2
    simp [h0, h1]
  have hall : IocbOk t c.mem c.iocb := ⟨hok, by rw [hdone, hops]⟩
  rw [hc.chain, performed_ok hall, hdone]
  simp [DcuSectorStore.performed]

/-- A block of the filesystem arrives in the pages of the command that reads it. -/
theorem BlockRead.delivers {t₀ : Dcu D} (hv : Volume t₀ s unit fs) (hs : Serves t₀ unit fs t)
    (hc : BlockRead s unit n c) (hn : n * 1024 + 1024 ≤ fs.length) (hfuel : 1 ≤ fuel) :
    ∃ u, c.run fuel t = some (u, true) ∧ Serves t₀ unit fs u ∧
      delivered c u = slice fs (n * 1024) 1024 := by
  have hlen : c.chain.length ≤ fuel := by rw [hc.chain]; exact hfuel
  obtain ⟨u, V, hu, hsame, hrange, hprog⟩ := c.run_progress hs.range hlen
  have hperf := hc.performed hv hs hn
  have hdone : c.done t = iocbOps t₀ c.mem c.iocb := by
    unfold Command.done
    rw [hperf]
  rw [hperf] at hu
  rw [hdone, hc.ops hv hn] at hprog
  have hread : ∀ pos page, ¬(⟨DCU_C_READ, unit, pos, page⟩ : SectorOp).Writes := fun _ _ h =>
    h.elim (show DCU_C_READ ≠ DCU_C_WRITE by decide) (show DCU_C_READ ≠ DCU_C_FORMAT by decide)
  have hstore : contents u = contents t := hprog.store
  have h0 := hprog.pages [] _ _ rfl (hread _ _)
  have h1 := hprog.pages [_] _ [] rfl (hread _ _)
  have h0' : some (u.mem.readPage (pageAddr c.mem (readIocb c.mem c.iocb).table 0)) =
      contents t (unit, 2 * n) := h0
  have h1' : some (u.mem.readPage (pageAddr c.mem (readIocb c.mem c.iocb).table 1)) =
      contents t (unit, 2 * n + 1) := h1
  rw [hs.stored (2 * n) (block_bounds hn).1] at h0'
  rw [hs.stored (2 * n + 1) (block_bounds hn).2] at h1'
  refine ⟨u, hu, ⟨hs.same.trans hsame, hrange, fun l hl => by rw [hstore]; exact hs.stored l hl⟩, ?_⟩
  have htwo : List.range 2 = [0, 1] := rfl
  unfold delivered
  rw [htwo, List.flatMap_cons, List.flatMap_cons, List.flatMap_nil, List.append_nil,
    Option.some.inj h0', Option.some.inj h1', block_sectors hn]

/-- Blocks that are read one after the other arrive one after the other. -/
theorem Volume.readVolume {t₀ : Dcu D} (hv : Volume t₀ s unit fs) (hs : Serves t₀ unit fs t)
    (hfuel : 1 ≤ fuel) {work : List (List Command × Command)} {k : ℕ}
    (hwork : ∀ i (h : i < work.length), BlockRead s unit (k + i) (work[i]).2 ∧
      (∀ c ∈ (work[i]).1, Spares t₀ unit fs.length c ∧ c.chain.length ≤ fuel))
    (hk : (k + work.length) * 1024 ≤ fs.length) :
    ∃ u, RootVolume.readVolume fuel t work = some (slice fs (k * 1024) (work.length * 1024), u) ∧
      Serves t₀ unit fs u := by
  induction work generalizing t k with
  | nil => exact ⟨t, by simp [RootVolume.readVolume, slice], hs⟩
  | cons w work ih =>
    obtain ⟨cs, c⟩ := w
    have hall : (k + (work.length + 1)) * 1024 = k * 1024 + 1024 + work.length * 1024 := by ring
    rw [List.length_cons, hall] at hk
    obtain ⟨hc, hcs⟩ : BlockRead s unit k c ∧
        ∀ d ∈ cs, Spares t₀ unit fs.length d ∧ d.chain.length ≤ fuel := hwork 0 (Nat.succ_pos _)
    have hfirst : k * 1024 + 1024 ≤ fs.length := Nat.le_of_add_right_le hk
    have hrest' : (k + 1 + work.length) * 1024 ≤ fs.length :=
      (show (k + 1 + work.length) * 1024 = k * 1024 + 1024 + work.length * 1024 by ring) ▸ hk
    obtain ⟨t', ht', hs'⟩ := hs.commands (fun d hd => (hcs d hd).1) fun d hd => (hcs d hd).2
    obtain ⟨u, hu, hsu, hbytes⟩ := BlockRead.delivers hv hs' hc hfirst hfuel
    have hrest : ∀ i (h : i < work.length), BlockRead s unit (k + 1 + i) (work[i]).2 ∧
        (∀ c ∈ (work[i]).1, Spares t₀ unit fs.length c ∧ c.chain.length ≤ fuel) := by
      intro i hi
      have h := hwork (i + 1) (Nat.succ_lt_succ hi)
      rwa [List.getElem_cons_succ, show k + (i + 1) = k + 1 + i by omega] at h
    obtain ⟨w, hw, hsw⟩ := ih hsu hrest hrest'
    refine ⟨w, ?_, hsw⟩
    unfold RootVolume.readVolume
    rw [List.length_cons, show (work.length + 1) * 1024 = 1024 + work.length * 1024 by ring,
      ← slice_append_slice, ← hbytes, show k * 1024 + 1024 = (k + 1) * 1024 by ring]
    simp only [ht', hu, hw, Option.bind_eq_bind, Option.bind_some, if_true]
    rfl

/-! ## The rebuilt disk -/

end Sys16.RootVolume
