import Mathlib.Data.Set.Lattice
import Sys16.DcuGeometry

/-!
# The disk controller as a flat sector store

A DC_START command names sector accesses through its chain of IOCBs; the
store it refines performs them in order until one is refused. Positions are
computed with the shape each unit has at the start of a run, which the cache
keeps for the whole run, header writes included. The main result relates
every page read and every sector left behind to the history of writes.
-/

namespace Sys16.DcuSectorStore

open Function DcuMachine DcuMemory DcuGeometry EventRuns StoreHistory

/-! ## What a command names -/

/-- One sector access named by an IOCB. -/
structure SectorOp where
  /-- The IOCB's opcode. -/
  opcode : UInt8
  /-- Drive number. -/
  unit : ℕ
  /-- Sector number on the unit. -/
  pos : ℕ
  /-- Physical address of the sector's page. -/
  page : ℕ

/-- The sector an access is about. -/
def SectorOp.at (o : SectorOp) : ℕ × ℕ := (o.unit, o.pos)

/-- WRITE and FORMAT store a sector; every other opcode reads one. -/
def SectorOp.Writes (o : SectorOp) : Prop := o.opcode = DCU_C_WRITE ∨ o.opcode = DCU_C_FORMAT

instance (o : SectorOp) : Decidable o.Writes := inferInstanceAs (Decidable (_ ∨ _))

/-- The position an IOCB starts at on a pack with `g.1` sectors and `g.2` heads. -/
def Iocb.position (c : Iocb) (g : ℕ × ℕ) : ℕ := (c.cylinder * g.2 + c.head) * g.1 + c.sector

/-- The access of an IOCB's sector with a given index. -/
def sectorOp (m : Memory) (g : ℕ × ℕ) (c : Iocb) (i : ℕ) : SectorOp :=
  ⟨c.opcode, c.unit, Iocb.position c g + i, pageAddr m c.table i⟩

/-- All accesses an IOCB names, in order. -/
def sectorOps (m : Memory) (g : ℕ × ℕ) (c : Iocb) : List SectorOp :=
  (List.range' 0 c.count.toNat).map (sectorOp m g c)

/-- What a successful access writes, with memory as it was at the command's start. -/
def writeOf (m : Memory) (o : SectorOp) : Option ((ℕ × ℕ) × Option Sector) :=
  if o.opcode = DCU_C_FORMAT then some (o.at, some fun _ => 0)
  else if o.opcode = DCU_C_WRITE then some (o.at, some (m.readPage o.page)) else none

/-- The data page of an access; a FORMAT has none. -/
def pageSpan (opcode : UInt8) (page : ℕ) : Set ℕ :=
  if opcode = DCU_C_FORMAT then ∅ else span page 512

/-- The data pages of one IOCB. -/
def dataPages (m : Memory) (a : ℕ) : List (Set ℕ) :=
  (List.range' 0 (readIocb m a).count.toNat).map fun i =>
    pageSpan (readIocb m a).opcode (pageAddr m (readIocb m a).table i)

/-- The memory objects of one IOCB: itself, its page table and its data pages. -/
def regions (m : Memory) (a : ℕ) : List (Set ℕ) :=
  span a 28 :: span (readIocb m a).table (4 * (readIocb m a).count.toNat) :: dataPages m a

/-- A finite chain of IOCBs, ending at the first link without its valid bit. -/
inductive ChainOf (m : Memory) : ℕ → List ℕ → Prop where
  /-- The last IOCB. -/
  | last {a : ℕ} (h : (readIocb m a).next = none) : ChainOf m a [a]
  /-- An IOCB with a valid link. -/
  | link {a b : ℕ} {l : List ℕ} (h : (readIocb m a).next = some b) (hl : ChainOf m b l) :
      ChainOf m a (a :: l)

/-- A DC_START command: the memory it finds and the IOCB it is given, with
an acyclic chain whose objects do not overlap one another. -/
structure Command where
  /-- Main memory when the command runs. -/
  mem : Memory
  /-- The argument of the command. -/
  iocb : ℕ
  /-- The IOCBs of its chain. -/
  chain : List ℕ
  /-- The chain is the one memory describes. -/
  linked : ChainOf mem iocb chain
  /-- No two objects of the command overlap. -/
  separate : (chain.flatMap (regions mem)).Pairwise Disjoint

variable {D : Type*} [FlatDrive D]

/-- Every access an IOCB names. -/
def iocbOps (s : Dcu D) (m : Memory) (a : ℕ) : List SectorOp :=
  sectorOps m (geometry s (readIocb m a).unit) (readIocb m a)

/-- The accesses an IOCB performs: none on an absent unit, otherwise those
before the first sector outside the image. -/
def iocbDone (s : Dcu D) (m : Memory) (a : ℕ) : List SectorOp :=
  if dcu_unit_ok s (readIocb m a).unit then
    (iocbOps s m a).takeWhile fun o => o.pos < FlatDrive.size (s.hd (readIocb m a).unit)
  else []

/-- An IOCB gets through all its accesses. -/
def IocbOk (s : Dcu D) (m : Memory) (a : ℕ) : Prop :=
  dcu_unit_ok s (readIocb m a).unit = true ∧ (iocbDone s m a).length = (iocbOps s m a).length

instance (s : Dcu D) (m : Memory) (a : ℕ) : Decidable (IocbOk s m a) :=
  inferInstanceAs (Decidable (_ ∧ _))

/-- The accesses a chain performs and whether it gets through all of them: it
stops after the first IOCB that does not. -/
def performed (s : Dcu D) (m : Memory) : List ℕ → List SectorOp × Bool
  | [] => ([], true)
  | a :: l =>
    if IocbOk s m a then (iocbDone s m a ++ (performed s m l).1, (performed s m l).2)
    else (iocbDone s m a, false)

/-- Every access the IOCBs of a command name. -/
def Command.named (c : Command) (s : Dcu D) : List SectorOp := c.chain.flatMap (iocbOps s c.mem)

/-- The accesses of a command that succeed. -/
def Command.done (c : Command) (s : Dcu D) : List SectorOp := (performed s c.mem c.chain).1

/-- The writes of a command that succeed. -/
def Command.writes (c : Command) (s : Dcu D) : List ((ℕ × ℕ) × Option Sector) :=
  (c.done s).filterMap (writeOf c.mem)

/-- Run one command on the memory it finds. -/
def Command.run (fuel : ℕ) (s : Dcu D) (c : Command) : Option (Dcu D × Bool) :=
  dcu_transfer fuel { s with mem := c.mem } c.iocb

/-- The state after a command, for runs of commands. -/
def commandStep (fuel : ℕ) (s : Dcu D) (c : Command) : Option (Dcu D) :=
  (c.run fuel s).map Prod.fst

/-- The successful writes of a run of commands, oldest first. -/
def history (s : Dcu D) (cs : List Command) : List ((ℕ × ℕ) × Option Sector) :=
  cs.flatMap fun c => c.writes s

/-! ## Drives along a run -/

variable {s t u : Dcu D} {m : Memory} {C : ℕ × ℕ → Option Sector} {T U : Set ℕ}
  {done : List SectorOp} {o : SectorOp} {fuel : ℕ}

/-- The units, their sizes and their addressing shapes agree in two states. -/
structure SameDrives (s t : Dcu D) : Prop where
  /-- The same units are mounted. -/
  mounted : ∀ unit, HardDisk.isMounted (t.hd unit) = HardDisk.isMounted (s.hd unit)
  /-- Their images have the same sizes. -/
  size : ∀ unit, FlatDrive.size (t.hd unit) = FlatDrive.size (s.hd unit)
  /-- They are addressed with the same shapes. -/
  shape : ∀ unit, geometry t unit = geometry s unit

/-- A state has its own drives. -/
theorem SameDrives.refl (s : Dcu D) : SameDrives s s :=
  ⟨fun _ => rfl, fun _ => rfl, fun _ => rfl⟩

/-- Memory is no part of the drives. -/
theorem SameDrives.mem (s : Dcu D) (mem : Memory) : SameDrives s { s with mem := mem } :=
  ⟨fun _ => rfl, fun _ => rfl, fun _ => rfl⟩

/-- What the drives hold does not depend on main memory. -/
theorem contents_mem (s : Dcu D) (mem : Memory) :
    contents { s with mem := mem } = contents s := rfl

/-- Drives that stay the same twice have stayed the same. -/
theorem SameDrives.trans (h : SameDrives s t) (k : SameDrives t u) : SameDrives s u :=
  ⟨fun v => (k.mounted v).trans (h.mounted v), fun v => (k.size v).trans (h.size v),
    fun v => (k.shape v).trans (h.shape v)⟩

/-- The same units are there. -/
theorem SameDrives.unit_ok (h : SameDrives s t) (unit : ℕ) :
    dcu_unit_ok t unit = dcu_unit_ok s unit := by
  unfold dcu_unit_ok
  rw [h.mounted]

/-- So an IOCB names the same accesses. -/
theorem SameDrives.iocbOps (h : SameDrives s t) (m : Memory) (a : ℕ) :
    iocbOps t m a = iocbOps s m a := by
  unfold DcuSectorStore.iocbOps
  rw [h.shape]

/-- What an IOCB performs depends on the drives only. -/
theorem SameDrives.iocbDone (h : SameDrives s t) (m : Memory) (a : ℕ) :
    iocbDone t m a = iocbDone s m a := by
  unfold DcuSectorStore.iocbDone
  rw [h.unit_ok, h.iocbOps, h.size]

/-- And gets through under the same conditions. -/
theorem SameDrives.iocbOk (h : SameDrives s t) (m : Memory) (a : ℕ) :
    IocbOk t m a ↔ IocbOk s m a := by
  unfold IocbOk
  rw [h.unit_ok, h.iocbOps, h.iocbDone]

/-- What a chain performs depends on the drives only. -/
theorem SameDrives.performed (h : SameDrives s t) (m : Memory) (l : List ℕ) :
    performed t m l = performed s m l := by
  induction l with
  | nil => rfl
  | cons a l ih =>
    unfold DcuSectorStore.performed
    simp only [h.iocbOk, h.iocbDone, ih]

/-! ## Progress of one command -/

/-- The pages that successful reads fill. -/
def readSpan (o : SectorOp) : Set ℕ := if o.Writes then ∅ else span o.page 512

/-- Where a command stands after some accesses: the store has seen their
writes, every page read holds what the store held then, and memory has
changed inside the touched set only. -/
structure Progress (m : Memory) (C : ℕ × ℕ → Option Sector) (s : Dcu D) (T : Set ℕ)
    (done : List SectorOp) : Prop where
  /-- The store after the writes so far. -/
  store : contents s = replay C (done.filterMap (writeOf m))
  /-- Each page read holds the store's value at that point. -/
  pages : ∀ pre o post, done = pre ++ o :: post → ¬o.Writes →
    some (s.mem.readPage o.page) = replay C (pre.filterMap (writeOf m)) o.at
  /-- Pages read have been touched. -/
  touched : ∀ o ∈ done, readSpan o ⊆ T
  /-- Nothing else in memory has changed. -/
  frame : Frame m s.mem T

/-- A store outside the pages read keeps the progress made. -/
theorem Progress.store_byte {a k : ℕ} (h : Progress m C s T done) (hk : k < 28)
    (hd : ∀ o ∈ done, Disjoint (readSpan o) (span a 28)) (v : UInt8) :
    Progress m C (s.putByte (a + k) v) (T ∪ span a 28) done := by
  have hf := write_byte_span s.mem hk (a := a) v
  refine ⟨h.store, ?_, fun o ho => (h.touched o ho).trans Set.subset_union_left,
    h.frame.trans hf⟩
  intro pre o post hdone hw
  have hdis : Disjoint (span o.page 512) (span a 28) := by
    have hspan : readSpan o = span o.page 512 := if_neg hw
    exact hspan ▸ hd o (by simp [hdone])
  rw [← h.pages pre o post hdone hw]
  exact congrArg some (readPage_congr fun x hx => hf.of_disjoint hdis.symm hx)

/-- Taking the shape of a pack leaves the drives as they were. -/
theorem dcu_geometry_sameDrives (s : Dcu D) (unit : ℕ) : SameDrives s (dcu_geometry s unit) :=
  ⟨fun _ => by rw [dcu_geometry_hd], fun _ => by rw [dcu_geometry_hd], dcu_geometry_keeps s unit⟩

/-- Fetching a geometry is not progress. -/
theorem Progress.geometry (h : Progress m C s T done) (unit : ℕ) :
    Progress m C (dcu_geometry s unit) T done := by
  have hc : contents (dcu_geometry s unit) = contents s := by
    funext p
    unfold contents
    rw [dcu_geometry_hd]
  exact ⟨hc.trans h.store, by rw [dcu_geometry_mem]; exact h.pages, h.touched,
    by rw [dcu_geometry_mem]; exact h.frame⟩

/-- A write to a unit whose shape is cached does not change how any unit is addressed. -/
theorem write_sameDrives {unit : ℕ} (hc : s.sectors unit ≠ 0) (lba : ℕ) (b : Sector) :
    SameDrives s { s with hd := update s.hd unit (HardDisk.write (s.hd unit) lba b).2 } := by
  refine ⟨?_, ?_, ?_⟩ <;> intro v <;> by_cases hv : v = unit
  · subst hv
    simpa using FlatDrive.write_mounted _ _ _
  · simp [hv]
  · subst hv
    simpa using FlatDrive.write_size _ _ _
  · simp [hv]
  · subst hv
    rw [geometry_of_cached hc, geometry_of_cached (by exact hc)]
  · unfold DcuGeometry.geometry
    simp [hv]

/-- The store after a successful sector write. -/
theorem write_contents {unit lba : ℕ} (b : Sector) (h : lba < FlatDrive.size (s.hd unit)) :
    contents { s with hd := update s.hd unit (HardDisk.write (s.hd unit) lba b).2 } =
      update (contents s) (unit, lba) (some b) := by
  funext ⟨v, l⟩
  unfold contents
  dsimp only
  by_cases hv : v = unit
  · subst hv
    rw [update_self, FlatDrive.read_write _ _ _ h]
    by_cases hl : l = lba
    · subst hl
      rw [if_pos rfl, update_self]
    · rw [if_neg hl, update_of_ne (by simp [hl])]
  · rw [update_of_ne hv, update_of_ne (by simp [hv])]

/-- A successful WRITE or FORMAT is the next step of progress. -/
theorem dcu_sector_writes (h : Progress m C s T done) (hc : s.sectors o.unit ≠ 0)
    (hd : Disjoint T (pageSpan o.opcode o.page)) (hp : o.pos < FlatDrive.size (s.hd o.unit))
    (hw : o.Writes) :
    (dcu_sector s o.unit o.opcode o.page o.pos).2 = true ∧
      SameDrives s (dcu_sector s o.unit o.opcode o.page o.pos).1 ∧
      Progress m C (dcu_sector s o.unit o.opcode o.page o.pos).1 T (done ++ [o]) := by
  have hwrite : ∃ b, writeOf m o = some (o.at, some b) ∧
      (if o.opcode = DCU_C_FORMAT then fun _ => 0 else s.mem.readPage o.page) = b := by
    by_cases hf : o.opcode = DCU_C_FORMAT
    · exact ⟨fun _ => 0, if_pos hf, if_pos hf⟩
    · rw [pageSpan, if_neg hf] at hd
      refine ⟨m.readPage o.page, ?_, ?_⟩
      · rw [writeOf, if_neg hf, if_pos (hw.resolve_right hf)]
      · rw [if_neg hf]
        exact readPage_congr fun x hx => h.frame.of_disjoint hd hx
  obtain ⟨b, hwo, hb⟩ := hwrite
  unfold dcu_sector
  rw [if_pos (show o.opcode = DCU_C_WRITE ∨ o.opcode = DCU_C_FORMAT from hw)]
  dsimp only
  rw [hb]
  refine ⟨by rw [FlatDrive.write_ok, decide_eq_true hp], write_sameDrives hc _ _, ?_, ?_, ?_,
    h.frame⟩
  · rw [write_contents b hp, List.filterMap_append, h.store]
    simp only [List.filterMap_cons, hwo, List.filterMap_nil]
    exact (replay_concat C (done.filterMap (writeOf m)) (o.at, some b)).symm
  · intro pre o' post hs hr
    rcases concat_split hs with ⟨_, rfl, _⟩ | ⟨post', _, hs'⟩
    · exact absurd hw hr
    · exact h.pages pre o' post' hs' hr
  · intro o' ho'
    rcases List.mem_append.mp ho' with ho' | ho'
    · exact h.touched o' ho'
    · obtain rfl := List.mem_singleton.mp ho'
      rw [readSpan, if_pos hw]
      exact Set.empty_subset T

/-- What a successful read does to the state. -/
theorem dcu_sector_read_eq {b : Sector} (hw : ¬o.Writes) (hb : contents s o.at = some b) :
    dcu_sector s o.unit o.opcode o.page o.pos =
      ({ s with mem := s.mem.writePage o.page b }, true) := by
  have hhd : update s.hd o.unit (HardDisk.read (s.hd o.unit) o.pos).2 = s.hd := by
    rw [FlatDrive.read_keeps]
    exact update_eq_self o.unit s.hd
  have hread : (HardDisk.read (s.hd o.unit) o.pos).1 = some b := hb
  unfold dcu_sector
  rw [if_neg (show ¬(o.opcode = DCU_C_WRITE ∨ o.opcode = DCU_C_FORMAT) from hw)]
  dsimp only
  rw [hhd, hread]

/-- A successful read is the next step of progress, and fills its page. -/
theorem dcu_sector_reads (h : Progress m C s T done)
    (hd : Disjoint T (pageSpan o.opcode o.page)) (hp : o.pos < FlatDrive.size (s.hd o.unit))
    (hw : ¬o.Writes) :
    (dcu_sector s o.unit o.opcode o.page o.pos).2 = true ∧
      SameDrives s (dcu_sector s o.unit o.opcode o.page o.pos).1 ∧
      Progress m C (dcu_sector s o.unit o.opcode o.page o.pos).1 (T ∪ span o.page 512)
        (done ++ [o]) := by
  have hf : o.opcode ≠ DCU_C_FORMAT := fun hf => hw (Or.inr hf)
  have hnone : writeOf m o = none := by
    rw [writeOf, if_neg hf, if_neg fun h => hw (Or.inl h)]
  have hspan : readSpan o = span o.page 512 := if_neg hw
  rw [pageSpan, if_neg hf] at hd
  obtain ⟨b, hb⟩ := Option.isSome_iff_exists.mp ((contents_isSome s o.at).mpr hp)
  have hframe := writePage_frame s.mem o.page b
  have hpage := readPage_writePage s.mem o.page b
  rw [dcu_sector_read_eq hw hb]
  generalize s.mem.writePage o.page b = mem' at hframe hpage
  have hstore : replay C ((done ++ [o]).filterMap (writeOf m)) = contents s := by
    rw [List.filterMap_append, h.store]
    simp only [List.filterMap_cons, hnone, List.filterMap_nil, List.append_nil]
  refine ⟨rfl, .mem s _, (contents_mem s _).trans hstore.symm, ?_, ?_, h.frame.trans hframe⟩
  · intro pre o' post hs hr
    rcases concat_split hs with ⟨rfl, rfl, _⟩ | ⟨post', _, rfl⟩
    · rw [← h.store, hb]
      exact congrArg some hpage
    · have hdis : Disjoint (span o.page 512) (span o'.page 512) := by
        have ht := h.touched o' (by simp)
        rw [readSpan, if_neg hr] at ht
        exact (hd.mono_left ht).symm
      rw [← h.pages pre o' post' rfl hr]
      exact congrArg some (readPage_congr fun x hx => hframe.of_disjoint hdis hx)
  · intro o' ho'
    rcases List.mem_append.mp ho' with ho' | ho'
    · exact (h.touched o' ho').trans Set.subset_union_left
    · obtain rfl := List.mem_singleton.mp ho'
      exact hspan ▸ Set.subset_union_right

/-- An access inside its image succeeds and is the next step of progress. -/
theorem dcu_sector_progress (h : Progress m C s T done) (hc : s.sectors o.unit ≠ 0)
    (hd : Disjoint T (pageSpan o.opcode o.page)) (hp : o.pos < FlatDrive.size (s.hd o.unit)) :
    (dcu_sector s o.unit o.opcode o.page o.pos).2 = true ∧
      SameDrives s (dcu_sector s o.unit o.opcode o.page o.pos).1 ∧
      Progress m C (dcu_sector s o.unit o.opcode o.page o.pos).1 (T ∪ readSpan o)
        (done ++ [o]) := by
  by_cases hw : o.Writes
  · rw [readSpan, if_pos hw, Set.union_empty]
    exact dcu_sector_writes h hc hd hp hw
  · rw [readSpan, if_neg hw]
    exact dcu_sector_reads h hd hp hw

/-- An access outside its image is refused and changes nothing. -/
theorem dcu_sector_refused (s : Dcu D) (hp : FlatDrive.size (s.hd o.unit) ≤ o.pos) :
    dcu_sector s o.unit o.opcode o.page o.pos = (s, false) := by
  have hlt : ¬o.pos < FlatDrive.size (s.hd o.unit) := Nat.not_lt.mpr hp
  unfold dcu_sector
  split
  · dsimp only
    rw [FlatDrive.write_past _ _ _ hp, FlatDrive.write_ok, decide_eq_false hlt, update_eq_self]
  · have hnone : (HardDisk.read (s.hd o.unit) o.pos).1 = none := by
      rw [← Option.not_isSome_iff_eq_none, FlatDrive.read_isSome]
      exact hlt
    dsimp only
    rw [hnone, FlatDrive.read_keeps, update_eq_self]

/-! ## Progress of one IOCB -/

/-- The pages that a list of accesses fills. -/
def readSpans (l : List SectorOp) : Set ℕ := {x | ∃ o ∈ l, x ∈ readSpan o}

/-- The pages that a list of accesses fills. -/
theorem readSpans_cons (o : SectorOp) (l : List SectorOp) :
    readSpans (o :: l) = readSpan o ∪ readSpans l := by
  ext x
  simp [readSpans]

/-- An access fills its own page at most. -/
theorem readSpan_subset (o : SectorOp) : readSpan o ⊆ pageSpan o.opcode o.page := by
  unfold readSpan pageSpan
  split
  · exact Set.empty_subset _
  · next hw => rw [if_neg fun hf => hw (Or.inr hf)]

/-- Once one of the sets to come has been touched, in part or whole, the others
are still apart from one another and from all that has been touched. -/
theorem disjoint_of_touched {A P R T : Set ℕ} {l : List (Set ℕ)}
    (hsep : (A :: P :: l).Pairwise Disjoint) (hT : ∀ S ∈ A :: P :: l, Disjoint T S) (hR : R ⊆ P) :
    (A :: l).Pairwise Disjoint ∧ ∀ S ∈ A :: l, Disjoint (T ∪ R) S := by
  obtain ⟨hfirst, hpages⟩ := List.pairwise_cons.mp hsep
  obtain ⟨hpage, hrest⟩ := List.pairwise_cons.mp hpages
  have hdis : ∀ S, Disjoint T S → Disjoint P S → Disjoint (T ∪ R) S := fun S h1 h2 =>
    Set.disjoint_union_left.mpr ⟨h1, h2.mono_left hR⟩
  refine ⟨List.pairwise_cons.mpr ⟨fun S hS => hfirst S (List.mem_cons_of_mem _ hS), hrest⟩,
    fun S hS => ?_⟩
  rcases List.mem_cons.mp hS with rfl | hS
  · exact hdis _ (hT _ List.mem_cons_self) (hfirst _ List.mem_cons_self).symm
  · exact hdis S (hT S (List.mem_cons_of_mem _ (List.mem_cons_of_mem _ hS))) (hpage S hS)

/-- The sector loop performs the accesses of its IOCB in order, up to the
first one outside the image. -/
theorem dcu_sectors_progress {c : Iocb} {g : ℕ × ℕ} {n i : ℕ} (resid : UInt8)
    (h : Progress m C s T done) (hc : s.sectors c.unit ≠ 0) (hn : i + n = c.count.toNat)
    (hfit : Iocb.position c g + c.count.toNat ≤ 2 ^ 32)
    (hsep : (span c.table (4 * c.count.toNat) ::
      (List.range' i n).map fun k => pageSpan c.opcode (pageAddr m c.table k)).Pairwise Disjoint)
    (hT : ∀ S ∈ span c.table (4 * c.count.toNat) ::
      (List.range' i n).map fun k => pageSpan c.opcode (pageAddr m c.table k), Disjoint T S) :
    let ops := (List.range' i n).map (sectorOp m g c)
    let perf := ops.takeWhile fun o => o.pos < FlatDrive.size (s.hd c.unit)
    let r := dcu_sectors s c.unit c.opcode c.table n i (u32 (Iocb.position c g + i)) resid
    SameDrives s r.1 ∧ Progress m C r.1 (T ∪ readSpans perf) (done ++ perf) ∧
      (r.2.2 = true ↔ perf.length = ops.length) := by
  induction n generalizing i s T done resid with
  | zero =>
    have hempty : readSpans [] = ∅ := by simp [readSpans]
    simpa [dcu_sectors, hempty] using ⟨SameDrives.refl s, h⟩
  | succ n ih =>
    have hpage : pageAddr s.mem c.table i = pageAddr m c.table i :=
      pageAddr_congr (fun x hx => h.frame.of_disjoint (hT _ List.mem_cons_self) hx)
        (by omega : i < c.count.toNat)
    have hu32 : u32 (Iocb.position c g + i) = Iocb.position c g + i :=
      Nat.mod_eq_of_lt (by omega)
    have hnext : u32 (u32 (Iocb.position c g + i) + 1) = u32 (Iocb.position c g + (i + 1)) := by
      rw [hu32, Nat.add_assoc]
    rw [List.range'_succ, List.map_cons] at hsep hT
    simp only [List.range'_succ, List.map_cons]
    unfold dcu_sectors
    dsimp only
    rw [hpage, hnext, hu32]
    have hop : dcu_sector s c.unit c.opcode (pageAddr m c.table i) (Iocb.position c g + i) =
        dcu_sector s (sectorOp m g c i).unit (sectorOp m g c i).opcode (sectorOp m g c i).page
          (sectorOp m g c i).pos := rfl
    have hu : (sectorOp m g c i).unit = c.unit := rfl
    rw [hop]
    obtain ⟨hsep', hT'⟩ := disjoint_of_touched hsep hT (readSpan_subset (sectorOp m g c i))
    have hpT : Disjoint T (pageSpan (sectorOp m g c i).opcode (sectorOp m g c i).page) :=
      hT _ (List.mem_cons_of_mem _ List.mem_cons_self)
    generalize sectorOp m g c i = o at *
    by_cases hp : o.pos < FlatDrive.size (s.hd c.unit)
    · obtain ⟨hok, hsame, hprog⟩ := dcu_sector_progress h (hu ▸ hc) hpT (hu ▸ hp)
      have hshape := (dcu_sector_shape s o.unit o.opcode o.page o.pos).1
      obtain ⟨hsame', hprog', hall⟩ :=
        ih (resid - 1) hprog (hshape ▸ hc) (by omega) hsep' hT'
      rw [hsame.size] at hprog' hall
      rw [if_pos hok, List.takeWhile_cons_of_pos (by simpa using hp), readSpans_cons,
        ← Set.union_assoc, List.append_cons]
      refine ⟨hsame.trans hsame', hprog', ?_⟩
      rw [hall, List.length_cons, List.length_cons, Nat.add_right_cancel_iff]
    · rw [dcu_sector_refused s (Nat.not_lt.mp (hu ▸ hp)),
        List.takeWhile_cons_of_neg (by simpa using hp)]
      have hempty : readSpans [] = ∅ := by simp [readSpans]
      simpa [hempty] using ⟨SameDrives.refl s, h⟩

/-- The touched set may be taken larger. -/
theorem Progress.mono (h : Progress m C s T done) (hs : T ⊆ U) : Progress m C s U done :=
  ⟨h.store, h.pages, fun o ho => (h.touched o ho).trans hs, h.frame.mono hs⟩

/-- All memory an IOCB concerns. -/
def footprint (m : Memory) (a : ℕ) : Set ℕ := {x | ∃ S ∈ regions m a, x ∈ S}

/-- An object of an IOCB is in its footprint. -/
theorem subset_footprint {S : Set ℕ} {a : ℕ} (h : S ∈ regions m a) : S ⊆ footprint m a :=
  fun _ hx => ⟨S, h, hx⟩

/-- What is apart from every object is apart from the footprint. -/
theorem footprint_disjoint {a : ℕ} (h : ∀ S ∈ regions m a, Disjoint S T) :
    Disjoint (footprint m a) T :=
  Set.disjoint_left.mpr fun _ ⟨S, hS, hx⟩ ht => Set.disjoint_left.mp (h S hS) hx ht

/-- An access an IOCB performs is one it names. -/
theorem mem_iocbOps_of_done {a : ℕ} (h : o ∈ iocbDone s m a) : o ∈ iocbOps s m a := by
  unfold iocbDone at h
  split at h
  · exact List.takeWhile_subset _ h
  · cases h

/-- An access a chain performs is one its IOCBs name. -/
theorem performed_named {l : List ℕ} (h : o ∈ (performed s m l).1) :
    o ∈ l.flatMap (iocbOps s m) := by
  induction l with
  | nil => cases h
  | cons a l ih =>
    rw [List.flatMap_cons]
    unfold performed at h
    split at h
    · rcases List.mem_append.mp h with h | h
      · exact List.mem_append_left _ (mem_iocbOps_of_done h)
      · exact List.mem_append_right _ (ih h)
    · exact List.mem_append_left _ (mem_iocbOps_of_done h)

/-- The page of an access is one of the IOCB's data pages. -/
theorem pageSpan_mem_dataPages {a : ℕ} (h : o ∈ iocbOps s m a) :
    pageSpan o.opcode o.page ∈ dataPages m a := by
  obtain ⟨i, hi, rfl⟩ := List.mem_map.mp h
  exact List.mem_map_of_mem hi

/-- Pages that are filled are objects of the IOCB. -/
theorem readSpans_subset_footprint {a : ℕ} : readSpans (iocbDone s m a) ⊆ footprint m a := by
  rintro x ⟨o, ho, hx⟩
  have hpage := pageSpan_mem_dataPages (mem_iocbOps_of_done ho)
  exact ⟨_, List.mem_cons_of_mem _ (List.mem_cons_of_mem _ hpage), readSpan_subset o hx⟩

/-- On a pack whose shape is in range no block number of an IOCB wraps. -/
theorem position_fit {g : ℕ × ℕ} (h1 : g.1 < 256) (h2 : g.2 < 32) (a : ℕ) :
    Iocb.position (readIocb m a) g + (readIocb m a).count.toNat ≤ 2 ^ 32 := by
  obtain ⟨hcyl, _, hhead, hsec⟩ := iocb_field_bounds m a
  have hcount := (readIocb m a).count.toNat_lt
  have hch : (readIocb m a).cylinder * g.2 ≤ 65535 * 31 :=
    Nat.mul_le_mul (by omega) (by omega)
  have htrack : ((readIocb m a).cylinder * g.2 + (readIocb m a).head) * g.1 ≤
      (65535 * 31 + 31) * 255 := Nat.mul_le_mul (by omega) (by omega)
  unfold Iocb.position
  omega

/-- The access of one IOCB performs what the store says it performs. -/
theorem dcu_access_progress {a : ℕ} (h : Progress m C s T done) (hr : InRange s)
    (hsep : (regions m a).Pairwise Disjoint) (hT : ∀ S ∈ regions m a, Disjoint T S) :
    let r := dcu_access s (readIocb m a)
    SameDrives s r.1 ∧
      Progress m C r.1 (T ∪ readSpans (iocbDone s m a)) (done ++ iocbDone s m a) ∧
      (r.2.2 = true ↔ IocbOk s m a) := by
  unfold dcu_access iocbDone IocbOk iocbDone
  dsimp only
  split
  · next hunit =>
    have hgeo := dcu_geometry_sameDrives s (readIocb m a).unit
    obtain ⟨hc, hshape⟩ := dcu_geometry_cached s (readIocb m a).unit
    obtain ⟨h1, h2⟩ := geometry_inRange hr (readIocb m a).unit
    have hfit := position_fit (m := m) h1 h2 a
    have hlba : (readIocb m a).lba ((dcu_geometry s (readIocb m a).unit).sectors
        (readIocb m a).unit) ((dcu_geometry s (readIocb m a).unit).heads (readIocb m a).unit) =
        u32 (Iocb.position (readIocb m a) (geometry s (readIocb m a).unit) + 0) := by
      rw [← hshape]
      rfl
    rw [hlba]
    obtain ⟨hsame, hprog, hall⟩ := dcu_sectors_progress (readIocb m a).count
      (h.geometry (readIocb m a).unit) hc (by omega) hfit (List.pairwise_cons.mp hsep).2
      fun S hS => hT S (List.mem_cons_of_mem _ hS)
    rw [hgeo.size] at hprog hall
    exact ⟨hgeo.trans hsame, hprog, hall.trans (and_iff_right hunit).symm⟩
  · next hunit =>
    have hempty : readSpans [] = ∅ := by simp [readSpans]
    simpa [hempty, hunit] using ⟨SameDrives.refl s, h⟩

/-- One round of the chain loop makes the progress of its IOCB, writes back
its residual and status, and decides where the loop goes. -/
theorem dcu_iocb_progress {a : ℕ} (h : Progress m C s T done) (hr : InRange s)
    (hsep : (regions m a).Pairwise Disjoint) (hT : ∀ S ∈ regions m a, Disjoint T S) :
    SameDrives s (dcu_iocb s a).1 ∧
      Progress m C (dcu_iocb s a).1 (T ∪ footprint m a) (done ++ iocbDone s m a) ∧
      (dcu_iocb s a).2 =
        if IocbOk s m a then
          match (readIocb m a).next with
          | some b => .next b
          | none => .stop true
        else .stop false := by
  have hself : span a 28 ∈ regions m a := List.mem_cons_self
  have hfields : readIocb s.mem a = readIocb m a :=
    readIocb_congr fun x hx => h.frame.of_disjoint (hT _ hself) hx
  obtain ⟨hsame, hprog, hok⟩ := dcu_access_progress h hr hsep hT
  have hclear : ∀ o ∈ done ++ iocbDone s m a, Disjoint (readSpan o) (span a 28) := by
    intro o ho
    rcases List.mem_append.mp ho with ho | ho
    · exact (hT _ hself).mono_left (h.touched o ho)
    · have hpage := pageSpan_mem_dataPages (mem_iocbOps_of_done ho)
      have hdis := (List.pairwise_cons.mp hsep).1 _ (List.mem_cons_of_mem _ hpage)
      exact hdis.symm.mono_left (readSpan_subset o)
  have hresid := hprog.store_byte (show IOCB_RESID < 28 by decide) hclear
  have hgrow : T ∪ readSpans (iocbDone s m a) ∪ span a 28 ∪ span a 28 ⊆ T ∪ footprint m a := by
    have h1 := readSpans_subset_footprint (s := s) (m := m) (a := a)
    have h2 := subset_footprint hself
    intro x hx
    rcases hx with ((hx | hx) | hx) | hx
    · exact Or.inl hx
    · exact Or.inr (h1 hx)
    · exact Or.inr (h2 hx)
    · exact Or.inr (h2 hx)
  have hstatus : ∀ resid v, SameDrives s (((dcu_access s (readIocb m a)).1.putByte
      (a + IOCB_RESID) resid).putByte (a + IOCB_STATUS) v) ∧
      Progress m C (((dcu_access s (readIocb m a)).1.putByte
      (a + IOCB_RESID) resid).putByte (a + IOCB_STATUS) v) (T ∪ footprint m a)
        (done ++ iocbDone s m a) := fun resid v =>
    ⟨hsame.trans ((SameDrives.mem _ _).trans (SameDrives.mem _ _)),
      ((hresid resid).store_byte (show IOCB_STATUS < 28 by decide) hclear v).mono hgrow⟩
  unfold dcu_iocb
  dsimp only
  rw [hfields]
  by_cases hall : IocbOk s m a
  · rw [if_pos (hok.mpr hall), if_pos hall]
    cases (readIocb m a).next with
    | none => exact ⟨(hstatus _ _).1, (hstatus _ _).2, rfl⟩
    | some b => exact ⟨(hstatus _ _).1, (hstatus _ _).2, rfl⟩
  · rw [if_neg (mt hok.mp hall), if_neg hall]
    exact ⟨(hstatus _ _).1, (hstatus _ _).2, rfl⟩

/-! ## Progress of a chain -/

/-- After an IOCB that gets through, the chain goes on. -/
theorem performed_ok {a : ℕ} {l : List ℕ} (h : IocbOk s m a) :
    performed s m (a :: l) = (iocbDone s m a ++ (performed s m l).1, (performed s m l).2) :=
  if_pos h

/-- After one that does not, it ends. -/
theorem performed_refused {a : ℕ} {l : List ℕ} (h : ¬IocbOk s m a) :
    performed s m (a :: l) = (iocbDone s m a, false) :=
  if_neg h

/-- The chain loop performs what the store says its chain performs, within as
many rounds as the chain has IOCBs. -/
theorem dcu_transfer_progress {a : ℕ} {l : List ℕ} (hl : ChainOf m a l)
    (h : Progress m C s T done) (hr : InRange s)
    (hsep : (l.flatMap (regions m)).Pairwise Disjoint)
    (hT : ∀ S ∈ l.flatMap (regions m), Disjoint T S) (hfuel : l.length ≤ fuel) :
    ∃ u V, dcu_transfer fuel s a = some (u, (performed s m l).2) ∧ SameDrives s u ∧
      InRange u ∧ Progress m C u V (done ++ (performed s m l).1) := by
  induction hl generalizing s T done fuel with
  | @last a hnext =>
    obtain ⟨fuel, rfl⟩ : ∃ n, fuel = n + 1 := ⟨fuel - 1, by simp at hfuel; omega⟩
    obtain ⟨hsame, hprog, hlink⟩ := dcu_iocb_progress h hr (by simpa using hsep)
      (by simpa using hT)
    have hrange := dcu_iocb_inRange hr a
    rw [hnext] at hlink
    by_cases hall : IocbOk s m a
    · rw [if_pos hall] at hlink
      have hperf : performed s m [a] = (iocbDone s m a, true) := by
        rw [performed_ok hall]
        simp [performed]
      rw [hperf]
      exact ⟨_, _, dcu_transfer_stop hlink, hsame, hrange, hprog⟩
    · rw [if_neg hall] at hlink
      rw [performed_refused hall]
      exact ⟨_, _, dcu_transfer_stop hlink, hsame, hrange, hprog⟩
  | @link a b l hnext hl ih =>
    obtain ⟨fuel, rfl⟩ : ∃ n, fuel = n + 1 := ⟨fuel - 1, by simp at hfuel; omega⟩
    rw [List.flatMap_cons] at hsep hT
    obtain ⟨hsepa, hsepl, hcross⟩ := List.pairwise_append.mp hsep
    obtain ⟨hsame, hprog, hlink⟩ := dcu_iocb_progress h hr hsepa
      fun S hS => hT S (List.mem_append_left _ hS)
    have hrange := dcu_iocb_inRange hr a
    rw [hnext] at hlink
    by_cases hall : IocbOk s m a
    · rw [if_pos hall] at hlink
      have hrest : ∀ S ∈ l.flatMap (regions m), Disjoint (T ∪ footprint m a) S := fun S hS =>
        Set.disjoint_union_left.mpr ⟨hT S (List.mem_append_right _ hS),
          footprint_disjoint fun R hR => hcross R hR S hS⟩
      obtain ⟨u, V, hu, hsameu, hrangeu, hprogu⟩ := ih hprog hrange hsepl hrest
        (show l.length ≤ fuel by simpa using hfuel)
      rw [hsame.performed] at hu hprogu
      rw [performed_ok hall]
      exact ⟨u, V, (dcu_transfer_next hlink).trans hu, hsame.trans hsameu, hrangeu,
        by rwa [List.append_assoc] at hprogu⟩
    · rw [if_neg hall] at hlink
      rw [performed_refused hall]
      exact ⟨_, _, dcu_transfer_stop hlink, hsame, hrange, hprog⟩

/-! ## Runs of commands -/

/-- One command: it runs to an end, performs what the store says, writes its
successful writes to the store and fills the pages of its successful reads. -/
theorem Command.run_progress (c : Command) (hr : InRange s) (hfuel : c.chain.length ≤ fuel) :
    ∃ u V, c.run fuel s = some (u, (performed s c.mem c.chain).2) ∧ SameDrives s u ∧ InRange u ∧
      Progress c.mem (contents s) u V (c.done s) := by
  have h0 : Progress c.mem (contents s) { s with mem := c.mem } ∅ [] :=
    ⟨rfl, fun pre o post hs => by simp at hs, fun o ho => by simp at ho,
      Frame.refl c.mem ∅⟩
  obtain ⟨u, V, hu, hsame, hrange, hprog⟩ := dcu_transfer_progress c.linked h0 hr c.separate
    (fun S _ => Set.empty_disjoint S) hfuel
  have hsame0 := SameDrives.mem s c.mem
  rw [hsame0.performed] at hu hprog
  exact ⟨u, V, hu, hsame0.trans hsame, hrange, by simpa [Command.done] using hprog⟩

/-- What a command writes depends on the drives' shapes alone. -/
theorem Command.writes_sameDrives (c : Command) (h : SameDrives s t) : c.writes t = c.writes s := by
  unfold Command.writes Command.done
  rw [h.performed]

/-- So does what a list of commands writes. -/
theorem history_sameDrives (cs : List Command) (h : SameDrives s t) :
    history t cs = history s cs := by
  unfold history
  simp only [Command.writes_sameDrives _ h]

/-- A run of commands keeps the drives and leaves the store its history gives. -/
theorem run_store {cs : List Command} (hr : InRange s)
    (hfuel : ∀ c ∈ cs, c.chain.length ≤ fuel) :
    ∃ t, run (commandStep fuel) s cs = some t ∧ SameDrives s t ∧ InRange t ∧
      contents t = replay (contents s) (history s cs) := by
  induction cs generalizing s with
  | nil => exact ⟨s, rfl, SameDrives.refl s, hr, rfl⟩
  | cons c cs ih =>
    obtain ⟨t, V, ht, hsame, hrange, hprog⟩ :=
      c.run_progress hr (hfuel c List.mem_cons_self)
    obtain ⟨u, hu, hsameu, hrangeu, hstore⟩ :=
      ih hrange fun c' hc => hfuel c' (List.mem_cons_of_mem c hc)
    have hstep : commandStep fuel s c = some t := by
      unfold commandStep
      rw [ht]
      rfl
    refine ⟨u, run_cons_eq_some.mpr ⟨t, hstep, hu⟩, hsame.trans hsameu, hrangeu, ?_⟩
    rw [hstore, hprog.store, history_sameDrives cs hsame, ← replay_append]
    rfl

/-- An access that stores a sector is among those a command names as writes. -/
theorem Command.writes_named {c : Command} {w : (ℕ × ℕ) × Option Sector} (h : w ∈ c.writes s) :
    ∃ o ∈ c.named s, o.Writes ∧ o.at = w.1 := by
  obtain ⟨o, ho, hw⟩ := List.mem_filterMap.mp h
  refine ⟨o, performed_named ho, ?_⟩
  unfold writeOf at hw
  split_ifs at hw with hf hwr
  · cases hw
    exact ⟨Or.inr hf, rfl⟩
  · cases hw
    exact ⟨Or.inl hwr, rfl⟩

/-- In a run of DC_START commands from any reachable state, every command runs
to an end, each sector it reads arrives as the latest successful write to its
position left it, or as it was at the start of the run, and sectors that the
command names no write for keep their contents. -/
theorem read_returns_latest_write {hd : ℕ → D} {mem : Memory} {es : List Event} {f₀ : ℕ}
    (hs : run (step f₀) (powerOn hd mem) es = some s) (cs : List Command) (c : Command)
    (hfuel : ∀ d ∈ cs ++ [c], d.chain.length ≤ fuel) :
    ∃ t u, run (commandStep fuel) s cs = some t ∧
      c.run fuel t = some (u, (performed s c.mem c.chain).2) ∧
      (∀ pre o post, c.done s = pre ++ o :: post → ¬o.Writes →
        some (u.mem.readPage o.page) =
          (latest (history s cs ++ pre.filterMap (writeOf c.mem)) o.at).getD (contents s o.at)) ∧
      ∀ p, (∀ o ∈ c.named s, o.Writes → o.at ≠ p) → contents u p = contents t p := by
  obtain ⟨t, ht, hsame, hrange, hstore⟩ := run_store (reachable_inRange hs)
    fun d hd => hfuel d (List.mem_append_left _ hd)
  obtain ⟨u, V, hu, _, _, hprog⟩ := c.run_progress hrange (hfuel c (by simp))
  have hdone : c.done t = c.done s := by
    unfold Command.done
    rw [hsame.performed]
  rw [hsame.performed] at hu
  rw [hdone] at hprog
  refine ⟨t, u, ht, hu, ?_, ?_⟩
  · intro pre o post hsplit hread
    rw [hprog.pages pre o post hsplit hread, hstore, ← replay_append, replay_apply]
  · intro p hp
    rw [hprog.store]
    refine replay_of_not_mem fun w hw => ?_
    obtain ⟨o, ho, hwrites, hat⟩ := Command.writes_named (s := s) (c := c) hw
    exact hat ▸ hp o ho hwrites

/-- Memory with an IOCB at 0x100 for one sector of unit 0's first track, its
page table at 0x200 and its page at 0x400, every byte of which is `fill`. -/
def oneSector (opcode sector fill : UInt8) : Memory := fun x =>
  if x = 0x100 then opcode else if x = 0x103 then 1 else if x = 0x108 then sector
  else if x = 0x10b then 2 else if x = 0x201 then 4 else if 0x400 ≤ x then fill else 0

/-- The IOCB there has no link. -/
theorem oneSector_next (opcode sector fill : UInt8) :
    (readIocb (oneSector opcode sector fill) 0x100).next = none := by
  simp [Iocb.next, readIocb, Memory.read_u32, Memory.read_byte, oneSector, u32, IOCB_CHAIN]

/-- Its objects are itself, its page table and its page. -/
theorem oneSector_regions (opcode sector fill : UInt8) :
    regions (oneSector opcode sector fill) 0x100 =
      [span 0x100 28, span 0x200 4, pageSpan opcode 0x400] := by
  have htable : (readIocb (oneSector opcode sector fill) 0x100).table = 0x200 := by
    simp [readIocb, Memory.read_u32, Memory.read_byte, oneSector, u32, IOCB_BUFFER]
  have hpage : pageAddr (oneSector opcode sector fill) 0x200 0 = 0x400 := by
    simp [pageAddr, Memory.read_u32, Memory.read_byte, oneSector, u32]
  have hcount : (readIocb (oneSector opcode sector fill) 0x100).count = 1 := rfl
  have hopcode : (readIocb (oneSector opcode sector fill) 0x100).opcode = opcode := rfl
  unfold regions dataPages
  simp [htable, hcount, hopcode, hpage]

/-- The page is filled with its one byte. -/
theorem oneSector_page (opcode sector fill : UInt8) :
    (oneSector opcode sector fill).readPage 0x400 = fun _ => fill := by
  funext b
  have hb : u32 (0x400 + b) = 0x400 + b := Nat.mod_eq_of_lt (by omega)
  unfold Memory.readPage Memory.read_byte oneSector
  rw [hb, if_neg (by omega), if_neg (by omega), if_neg (by omega), if_neg (by omega),
    if_neg (by omega), if_pos (by omega)]

/-- The command whose one IOCB moves one sector. -/
def sectorCommand (opcode sector fill : UInt8) : Command where
  mem := oneSector opcode sector fill
  iocb := 0x100
  chain := [0x100]
  linked := .last (oneSector_next opcode sector fill)
  separate := by
    have hpage : ∀ S, Disjoint S (span 0x400 512) → Disjoint S (pageSpan opcode 0x400) := by
      intro S hS
      unfold pageSpan
      split
      · exact disjoint_bot_right
      · exact hS
    have h1 : Disjoint (span 0x100 28) (span 0x200 4) := span_disjoint (by omega) (by omega)
    have h2 := hpage _ (span_disjoint (show 0x100 + 28 ≤ 0x400 by omega) (by omega))
    have h3 := hpage _ (span_disjoint (show 0x200 + 4 ≤ 0x400 by omega) (by omega))
    simp [oneSector_regions, h1, h2, h3]

/-- Two images of two cleared sectors, as at power-on. -/
def twoSectors : Dcu Image := powerOn (fun _ => ⟨[fun _ => 0, fun _ => 0]⟩) fun _ => 0

/-- A write of sector 0 is what the next read of sector 0 brings into its page. -/
theorem written_sector_reads_back :
    ∃ t u, run (commandStep 1) twoSectors [sectorCommand DCU_C_WRITE 0 7] = some t ∧
      (sectorCommand DCU_C_READ 0 0).run 1 t = some (u, true) ∧
      u.mem.readPage 0x400 = fun _ => 7 := by
  have hstart : run (step 0) (powerOn (fun _ => ⟨[fun _ => 0, fun _ => 0]⟩) fun _ => 0) [] =
      some twoSectors := rfl
  have hfuel : ∀ d ∈ [sectorCommand DCU_C_WRITE 0 7] ++ [sectorCommand DCU_C_READ 0 0],
      d.chain.length ≤ 1 := by simp [sectorCommand]
  obtain ⟨t, u, ht, hu, hpages, _⟩ := read_returns_latest_write hstart _ _ hfuel
  have hdone : (sectorCommand DCU_C_READ 0 0).done twoSectors =
      [] ++ ⟨DCU_C_READ, 0, 0, 0x400⟩ :: [] := rfl
  have hhist : history twoSectors [sectorCommand DCU_C_WRITE 0 7] =
      [((0, 0), some (Memory.readPage (oneSector DCU_C_WRITE 0 7) 0x400))] := rfl
  have hread := hpages [] _ [] hdone (by decide)
  rw [hhist, oneSector_page] at hread
  exact ⟨t, u, ht, hu, Option.some_injective _ hread⟩

end Sys16.DcuSectorStore
