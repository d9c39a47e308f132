import Sys16.DcuMemory

/-!
# Pack geometry and drives that are arrays of sectors

The cached shape of a unit is the one a fresh look at its sector 0 would
give, as long as nothing but the controller touches the drive. Every reachable
cache entry is within the range the header check enforces, so the block
arithmetic of a transfer never wraps.
-/

namespace Sys16.DcuGeometry

open Function DcuMachine DcuMemory EventRuns StoreHistory

/-- A drive image that behaves as an array of 512-byte sectors: accesses below
its size succeed and a write is what later reads of its sector return. -/
class FlatDrive (D : Type*) extends HardDisk D where
  /-- Sectors in the image. -/
  size : D → ℕ
  read_keeps : ∀ d lba, (read d lba).2 = d
  read_isSome : ∀ d lba, (read d lba).1.isSome ↔ lba < size d
  write_ok : ∀ d lba b, (write d lba b).1 = decide (lba < size d)
  write_size : ∀ d lba b, size (write d lba b).2 = size d
  write_mounted : ∀ d lba b, isMounted (write d lba b).2 = isMounted d
  write_past : ∀ d lba b, size d ≤ lba → (write d lba b).2 = d
  read_write : ∀ d lba b, lba < size d →
    ∀ l, (read (write d lba b).2 l).1 = if l = lba then some b else (read d l).1

instance : FlatDrive Image where
  size d := d.blocks.length
  read_keeps _ _ := rfl
  read_isSome d lba := by simp [HardDisk.read]
  write_ok d lba b := by
    unfold HardDisk.write instHardDiskImage
    dsimp only
    split <;> simp [*]
  write_size d lba b := by
    unfold HardDisk.write instHardDiskImage
    dsimp only
    split <;> simp
  write_mounted _ _ _ := rfl
  write_past d lba b h := by
    unfold HardDisk.write instHardDiskImage
    dsimp only
    rw [if_neg (by omega)]
  read_write d lba b h l := by
    unfold HardDisk.read HardDisk.write instHardDiskImage
    dsimp only
    rw [if_pos h]
    dsimp only
    by_cases hl : l = lba
    · subst hl
      simp [h]
    · rw [if_neg hl, List.getElem?_set_ne (Ne.symm hl)]

variable {D : Type*} {s t u : Dcu D} {unit v : ℕ} {fuel : ℕ} {es : List Event}

/-- A header that is accepted is within the range the check states. -/
theorem headerGeometry_range {header : Sector} {g : ℕ × ℕ} (h : headerGeometry header = some g) :
    g.1 ≠ 0 ∧ g.1 < 256 ∧ g.2 ≠ 0 ∧ g.2 < 32 := by
  unfold headerGeometry at h
  dsimp only at h
  split_ifs at h with hm hr
  cases h
  exact ⟨hr.1, hr.2.2.1, hr.2.1, hr.2.2.2⟩

/-! ## The cache range -/

/-- Every cache entry is unset or within the header check's range. -/
def InRange (s : Dcu D) : Prop := ∀ unit, s.sectors unit < 256 ∧ s.heads unit < 32

/-- Setting a shape within the header's bytes keeps the shapes in range. -/
theorem setGeometry_inRange (h : InRange s) {g : ℕ × ℕ} (h1 : g.1 < 256) (h2 : g.2 < 32) :
    InRange (s.setGeometry unit g) := by
  intro v
  unfold Dcu.setGeometry
  by_cases hv : v = unit
  · subst hv
    simpa using ⟨h1, h2⟩
  · simpa [hv] using h v

section AnyDrive

variable [HardDisk D]

/-- Reading a unit's shape keeps the shapes in range. -/
theorem dcu_geometry_inRange (h : InRange s) (unit : ℕ) : InRange (dcu_geometry s unit) := by
  have hdef : InRange (s.setGeometry unit (DCU_SECTORS, DCU_HEADS)) :=
    setGeometry_inRange h (by decide) (by decide)
  unfold dcu_geometry
  split
  · exact h
  · dsimp only
    split
    · exact hdef
    · next g hg =>
      obtain ⟨header, _, hh⟩ := Option.bind_eq_some_iff.mp hg
      obtain ⟨_, h1, _, h2⟩ := headerGeometry_range hh
      exact setGeometry_inRange hdef h1 h2

/-- Moving a sector leaves the shapes alone. -/
theorem dcu_sector_shape (s : Dcu D) (unit : ℕ) (opcode : UInt8) (addr lba : ℕ) :
    (dcu_sector s unit opcode addr lba).1.sectors = s.sectors ∧
      (dcu_sector s unit opcode addr lba).1.heads = s.heads := by
  unfold dcu_sector
  split
  · exact ⟨rfl, rfl⟩
  · dsimp only
    split <;> exact ⟨rfl, rfl⟩

/-- The sector loop leaves the geometry cache alone. -/
theorem dcu_sectors_shape (s : Dcu D) (unit : ℕ) (opcode : UInt8) (table n i lba : ℕ)
    (resid : UInt8) :
    (dcu_sectors s unit opcode table n i lba resid).1.sectors = s.sectors ∧
      (dcu_sectors s unit opcode table n i lba resid).1.heads = s.heads := by
  induction n generalizing s i lba resid with
  | zero => exact ⟨rfl, rfl⟩
  | succ n ih =>
    have h := dcu_sector_shape s unit opcode (pageAddr s.mem table i) lba
    unfold dcu_sectors
    dsimp only
    split
    · have hi := ih (dcu_sector s unit opcode (pageAddr s.mem table i) lba).1 (i + 1)
        (u32 (lba + 1)) (resid - 1)
      exact ⟨hi.1.trans h.1, hi.2.trans h.2⟩
    · exact h

/-- Carrying out an IOCB keeps the shapes in range. -/
theorem dcu_iocb_inRange (h : InRange s) (iocb : ℕ) : InRange (dcu_iocb s iocb).1 := by
  have ha : InRange (dcu_access s (readIocb s.mem iocb)).1 := by
    unfold dcu_access
    split
    · have hs := dcu_sectors_shape (dcu_geometry s (readIocb s.mem iocb).unit)
      intro v
      rw [(hs _ _ _ _ _ _ _).1, (hs _ _ _ _ _ _ _).2]
      exact dcu_geometry_inRange h _ v
    · exact h
  unfold dcu_iocb
  dsimp only
  split
  · split <;> exact ha
  · exact ha

/-- Walking a chain keeps the shapes in range. -/
theorem dcu_transfer_inRange {iocb : ℕ} {ok : Bool} (h : InRange s)
    (ht : dcu_transfer fuel s iocb = some (t, ok)) : InRange t := by
  induction fuel generalizing s iocb with
  | zero => cases ht
  | succ fuel ih =>
    have hr := dcu_iocb_inRange h iocb
    unfold dcu_transfer at ht
    split at ht
    · next he =>
      rw [he] at hr
      exact ih hr ht
    · next he =>
      rw [he] at hr
      cases ht
      exact hr

/-- Executing a command keeps the shapes in range. -/
theorem dcu_execute_inRange {ok : Bool} (h : InRange s)
    (ht : dcu_execute fuel s = some (t, ok)) : InRange t := by
  unfold dcu_execute at ht
  split_ifs at ht with h1 h2 h3 h4 h5
  · cases ht
    exact h
  · cases ht
    exact h
  · dsimp only at ht
    split_ifs at ht with hu
    · cases ht
      exact dcu_geometry_inRange (s := { s with unit := dcu_arg s >>> 13 }) h _
    · cases ht
      exact h
  · cases ht
    exact h
  · exact dcu_transfer_inRange h ht
  · cases ht
    exact h

/-- No event takes a cache entry out of range. -/
theorem step_inRange {e : Event} (h : InRange s) (ht : step fuel s e = some t) : InRange t := by
  cases e with
  | read offset =>
    cases ht
    exact h
  | write offset data =>
    cases ht
    unfold dcu_w
    split <;> exact h
  | store addr data =>
    cases ht
    exact h
  | expire =>
    simp only [step] at ht
    split_ifs at ht
    simp only [dcu_complete, Option.map_eq_some_iff] at ht
    obtain ⟨⟨v, ok⟩, hv, rfl⟩ := ht
    have hi : InRange v := dcu_execute_inRange (s := { s with timer := false }) h hv
    exact hi
  | reset =>
    cases ht
    exact fun _ => ⟨show 0 < 256 by omega, show 0 < 32 by omega⟩

/-- The geometry cache is in range in every state reachable from power-on. -/
theorem reachable_inRange {hd : ℕ → D} {mem : Memory}
    (h : run (step fuel) (powerOn hd mem) es = some t) : InRange t :=
  run_invariant (fun _ => ⟨show 0 < 256 by omega, show 0 < 32 by omega⟩)
    (fun _ _ _ _ hi hs => step_inRange hi hs) h

/-- The shape the controller addresses a unit with: the cached one, or the one
a first use would cache. -/
def geometry (s : Dcu D) (unit : ℕ) : ℕ × ℕ :=
  if s.sectors unit ≠ 0 then (s.sectors unit, s.heads unit)
  else ((HardDisk.read (s.hd unit) 0).1.bind headerGeometry).getD (DCU_SECTORS, DCU_HEADS)

/-- A unit in use keeps the shape read first. -/
theorem geometry_of_cached (h : s.sectors unit ≠ 0) :
    geometry s unit = (s.sectors unit, s.heads unit) := if_pos h

/-- The sectors of a track are never zero. -/
theorem geometry_ne_zero (s : Dcu D) (unit : ℕ) : (geometry s unit).1 ≠ 0 := by
  unfold geometry
  split
  · assumption
  · cases hg : (HardDisk.read (s.hd unit) 0).1.bind headerGeometry with
    | none => decide
    | some g =>
      obtain ⟨header, _, hh⟩ := Option.bind_eq_some_iff.mp hg
      exact (headerGeometry_range hh).1

/-- The shape in use is always in range. -/
theorem geometry_inRange (h : InRange s) (unit : ℕ) :
    (geometry s unit).1 < 256 ∧ (geometry s unit).2 < 32 := by
  unfold geometry
  split
  · exact h unit
  · cases hg : (HardDisk.read (s.hd unit) 0).1.bind headerGeometry with
    | none => decide
    | some g =>
      obtain ⟨header, _, hh⟩ := Option.bind_eq_some_iff.mp hg
      exact ⟨(headerGeometry_range hh).2.1, (headerGeometry_range hh).2.2.2⟩

end AnyDrive

/-! ## Flat drives -/

variable [FlatDrive D]

/-- Contents of every sector of every unit; nothing outside an image. -/
def contents (s : Dcu D) (p : ℕ × ℕ) : Option Sector := (HardDisk.read (s.hd p.1) p.2).1

/-- A sector has contents exactly when the drive has it. -/
theorem contents_isSome (s : Dcu D) (p : ℕ × ℕ) :
    (contents s p).isSome ↔ p.2 < FlatDrive.size (s.hd p.1) :=
  FlatDrive.read_isSome _ _

/-- On a flat drive a first use caches the shape and changes nothing else. -/
theorem dcu_geometry_eq (s : Dcu D) (unit : ℕ) :
    dcu_geometry s unit =
      if s.sectors unit ≠ 0 then s else s.setGeometry unit (geometry s unit) := by
  unfold dcu_geometry
  split
  · rfl
  · next h =>
    have hhd : update s.hd unit (HardDisk.read (s.hd unit) 0).2 = s.hd := by
      rw [FlatDrive.read_keeps]
      exact update_eq_self unit s.hd
    unfold geometry
    rw [if_neg h]
    dsimp only [Dcu.setGeometry]
    rw [hhd]
    cases (HardDisk.read (s.hd unit) 0).1.bind headerGeometry with
    | none => rfl
    | some g => simp only [update_idem, Option.getD_some]

/-- Reading a unit's shape leaves the drives alone. -/
theorem dcu_geometry_hd (s : Dcu D) (unit : ℕ) : (dcu_geometry s unit).hd = s.hd := by
  rw [dcu_geometry_eq]
  split <;> rfl

/-- Reading a unit's shape leaves memory alone. -/
theorem dcu_geometry_mem (s : Dcu D) (unit : ℕ) : (dcu_geometry s unit).mem = s.mem := by
  rw [dcu_geometry_eq]
  split <;> rfl

/-- Fetching a unit's geometry does not change what any unit is addressed with. -/
theorem dcu_geometry_keeps (s : Dcu D) (unit v : ℕ) :
    geometry (dcu_geometry s unit) v = geometry s v := by
  have hne := geometry_ne_zero s unit
  rw [dcu_geometry_eq]
  split
  · rfl
  · by_cases hv : v = unit
    · subst hv
      rw [geometry_of_cached (by simpa [Dcu.setGeometry] using hne)]
      simp [Dcu.setGeometry]
    · unfold geometry
      simp [Dcu.setGeometry, hv]

/-- After a fetch the cache holds the unit's shape. -/
theorem dcu_geometry_cached (s : Dcu D) (unit : ℕ) :
    (dcu_geometry s unit).sectors unit ≠ 0 ∧
      ((dcu_geometry s unit).sectors unit, (dcu_geometry s unit).heads unit) =
        geometry s unit := by
  rw [dcu_geometry_eq]
  split
  · next h => exact ⟨h, (geometry_of_cached h).symm⟩
  · simp [Dcu.setGeometry, geometry_ne_zero s unit]

end Sys16.DcuGeometry
