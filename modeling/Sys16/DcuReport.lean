import Sys16.DcuSectorStore

/-!
# What a transfer reports

A drive may refuse any access, so a chain can stop at any sector of any of
its IOCBs. The accesses of a chain are put to the drives in order until one is
refused; a transfer makes exactly these, stores the sectors it has read, and
tells the driver in the status and residual bytes how far it came. Nothing is
assumed of the drives: they may keep a log of what they are asked.
-/

namespace Sys16.DcuReport

open Function DcuMachine DcuMemory DcuSectorStore StoreHistory

variable {D : Type*} [HardDisk D] {s t : Dcu D} {m : Memory} {hd : ℕ → D} {T : Set ℕ} {a fuel : ℕ}
  {o : SectorOp} {l : List ℕ}

/-! ## The accesses of a chain, put to the drives -/

/-- The access of an IOCB's sector with a given index, from its first block. -/
def request (m : Memory) (c : Iocb) (lba i : ℕ) : SectorOp :=
  ⟨c.opcode, c.unit, u32 (lba + i), pageAddr m c.table i⟩

/-- All accesses of an IOCB, in order. -/
def requests (m : Memory) (c : Iocb) (lba : ℕ) : List SectorOp :=
  (List.range' 0 c.count.toNat).map (request m c lba)

/-- One access put to the drives: the sector it moves, unless it is refused. -/
def serve (m : Memory) (hd : ℕ → D) (o : SectorOp) : Option Sector × (ℕ → D) :=
  if o.Writes then
    let buffer : Sector := if o.opcode = DCU_C_FORMAT then fun _ => 0 else m.readPage o.page
    let r := HardDisk.write (hd o.unit) o.pos buffer
    (if r.1 then some buffer else none, update hd o.unit r.2)
  else
    let r := HardDisk.read (hd o.unit) o.pos
    (r.1, update hd o.unit r.2)

/-- Accesses put to the drives in order until one is refused: those that moved
their sector, and the drives after the last one. -/
def serveAll (m : Memory) : (ℕ → D) → List SectorOp → List (SectorOp × Sector) × (ℕ → D)
  | hd, [] => ([], hd)
  | hd, o :: os =>
    match serve m hd o with
    | (some b, hd) => ((o, b) :: (serveAll m hd os).1, (serveAll m hd os).2)
    | (none, hd) => ([], hd)

/-- The sectors that one IOCB moves, and the drives after it. An absent unit
is not asked for anything, its geometry included. -/
def visit (s : Dcu D) (a : ℕ) : List (SectorOp × Sector) × Dcu D :=
  let c := readIocb s.mem a
  if dcu_unit_ok s c.unit then
    let s := dcu_geometry s c.unit
    let r := serveAll s.mem s.hd (requests s.mem c (c.lba (s.sectors c.unit) (s.heads c.unit)))
    (r.1, { s with hd := r.2 })
  else ([], s)

/-- Nothing of an IOCB fails: its unit is there and every sector is moved. -/
def Complete (s : Dcu D) (a : ℕ) : Prop :=
  dcu_unit_ok s (readIocb s.mem a).unit = true ∧
    (visit s a).1.length = (readIocb s.mem a).count.toNat

instance (s : Dcu D) (a : ℕ) : Decidable (Complete s a) := inferInstanceAs (Decidable (_ ∧ _))

/-- An IOCB that a transfer has come to. -/
structure Visit where
  /-- Its address. -/
  iocb : ℕ
  /-- The sectors it moved. -/
  moved : List (SectorOp × Sector)
  /-- Nothing of it failed. -/
  complete : Bool

/-- The IOCBs of a chain up to the first of which something fails, and the
drives after them. -/
def visits : Dcu D → List ℕ → List Visit × Dcu D
  | s, [] => ([], s)
  | s, a :: l =>
    if Complete s a then
      (⟨a, (visit s a).1, true⟩ :: (visits (visit s a).2 l).1, (visits (visit s a).2 l).2)
    else ([⟨a, (visit s a).1, false⟩], (visit s a).2)

/-! ## The sector loop -/

/-- A state with other drives and other memory. -/
def put (t : Dcu D) (hd : ℕ → D) (mem : Memory) : Dcu D := { t with hd := hd, mem := mem }

omit [HardDisk D] in
@[simp] theorem put_hd (t : Dcu D) (hd : ℕ → D) (mem : Memory) : (put t hd mem).hd = hd := rfl

omit [HardDisk D] in
@[simp] theorem put_mem (t : Dcu D) (hd : ℕ → D) (mem : Memory) : (put t hd mem).mem = mem := rfl

omit [HardDisk D] in
@[simp] theorem put_put (t : Dcu D) (hd hd' : ℕ → D) (mem mem' : Memory) :
    put (put t hd mem) hd' mem' = put t hd' mem' := rfl

/-- Memory after a sector has been moved: a sector read is in its page. -/
def fill (m : Memory) (x : SectorOp × Sector) : Memory :=
  if x.1.Writes then m else m.writePage x.1.page x.2

/-- A sector that is read fills its page and nothing else. -/
theorem fill_frame (m : Memory) (x : SectorOp × Sector) : Frame m (fill m x) (readSpan x.1) := by
  unfold fill readSpan
  split
  · exact Frame.refl m _
  · exact writePage_frame m x.1.page x.2

/-- The controller's sector access is the one put to the drives, with memory
filled when it is a read. -/
theorem dcu_sector_eq (hf : Frame m t.mem T) (hd : Disjoint T (pageSpan o.opcode o.page)) :
    dcu_sector t o.unit o.opcode o.page o.pos =
      match (serve m t.hd o).1 with
      | some b => (put t (serve m t.hd o).2 (fill t.mem (o, b)), true)
      | none => (put t (serve m t.hd o).2 t.mem, false) := by
  unfold dcu_sector serve
  by_cases hw : o.Writes
  · have hbuffer : (if o.opcode = DCU_C_FORMAT then fun _ => 0 else t.mem.readPage o.page : Sector) =
        if o.opcode = DCU_C_FORMAT then fun _ => 0 else m.readPage o.page := by
      by_cases hfmt : o.opcode = DCU_C_FORMAT
      · rw [if_pos hfmt, if_pos hfmt]
      · rw [pageSpan, if_neg hfmt] at hd
        rw [if_neg hfmt, if_neg hfmt]
        exact readPage_congr fun x hx => hf.of_disjoint hd hx
    rw [if_pos (show o.opcode = DCU_C_WRITE ∨ o.opcode = DCU_C_FORMAT from hw), if_pos hw]
    dsimp only
    rw [hbuffer]
    generalize HardDisk.write (t.hd o.unit) o.pos _ = r
    cases hr : r.1 with
    | true => simp [fill, hw, put]
    | false => simp [put]
  · rw [if_neg (show ¬(o.opcode = DCU_C_WRITE ∨ o.opcode = DCU_C_FORMAT) from hw), if_neg hw]
    dsimp only
    cases (HardDisk.read (t.hd o.unit) o.pos).1 with
    | none => rfl
    | some b => simp [fill, hw, put]

/-- An access that is served is followed by the others. -/
theorem serveAll_cons_some {b : Sector} {os : List SectorOp} (h : (serve m hd o).1 = some b) :
    serveAll m hd (o :: os) = ((o, b) :: (serveAll m (serve m hd o).2 os).1,
      (serveAll m (serve m hd o).2 os).2) := by
  conv_lhs => unfold serveAll
  rw [← Prod.eta (serve m hd o), h]

/-- One that is refused is the last. -/
theorem serveAll_cons_none {os : List SectorOp} (h : (serve m hd o).1 = none) :
    serveAll m hd (o :: os) = ([], (serve m hd o).2) := by
  unfold serveAll
  rw [← Prod.eta (serve m hd o), h]

/-- The accesses that move their sector are the first of those asked for. -/
theorem serveAll_isPrefixOf (m : Memory) (hd : ℕ → D) (os : List SectorOp) :
    (serveAll m hd os).1.map Prod.fst <+: os := by
  induction os generalizing hd with
  | nil => exact List.prefix_rfl
  | cons o os ih =>
    cases h : (serve m hd o).1 with
    | none =>
      rw [serveAll_cons_none h]
      exact List.nil_prefix
    | some b =>
      rw [serveAll_cons_some h, List.map_cons]
      exact List.cons_prefix_cons.mpr ⟨rfl, ih _⟩

/-- The residual after some of an IOCB's sectors. -/
theorem resid_succ (resid : UInt8) (k : ℕ) :
    resid - 1 - UInt8.ofNat k = resid - UInt8.ofNat (k + 1) := by
  rw [UInt8.ofNat_add]
  grind

/-- The sector loop of an IOCB makes the accesses put to the drives, fills the
pages of those read, and counts its residual down by those that moved. -/
theorem dcu_sectors_eq {c : Iocb} (lba : ℕ) {n i : ℕ} (resid : UInt8) (hf : Frame m t.mem T)
    (hn : i + n = c.count.toNat)
    (hsep : (span c.table (4 * c.count.toNat) ::
      (List.range' i n).map fun k => pageSpan c.opcode (pageAddr m c.table k)).Pairwise Disjoint)
    (hT : ∀ S ∈ span c.table (4 * c.count.toNat) ::
      (List.range' i n).map fun k => pageSpan c.opcode (pageAddr m c.table k), Disjoint T S) :
    let r := serveAll m t.hd ((List.range' i n).map (request m c lba))
    dcu_sectors t c.unit c.opcode c.table n i (u32 (lba + i)) resid =
      (put t r.2 (r.1.foldl fill t.mem), resid - UInt8.ofNat r.1.length,
        r.1.length == n) := by
  induction n generalizing i t T resid with
  | zero => simp [dcu_sectors, serveAll, put]
  | succ n ih =>
    have hpage : pageAddr t.mem c.table i = pageAddr m c.table i :=
      pageAddr_congr (fun x hx => hf.of_disjoint (hT _ List.mem_cons_self) hx)
        (by omega : i < c.count.toNat)
    have hnext : u32 (u32 (lba + i) + 1) = u32 (lba + (i + 1)) := by
      unfold u32
      omega
    rw [List.range'_succ, List.map_cons] at hsep hT
    simp only [List.range'_succ, List.map_cons]
    obtain ⟨hsep', hT'⟩ := disjoint_of_touched hsep hT (readSpan_subset (request m c lba i))
    have hpT : Disjoint T (pageSpan (request m c lba i).opcode (request m c lba i).page) :=
      hT _ (List.mem_cons_of_mem _ List.mem_cons_self)
    have hsector := dcu_sector_eq hf hpT
    have hop : dcu_sector t c.unit c.opcode (pageAddr m c.table i) (u32 (lba + i)) =
        dcu_sector t (request m c lba i).unit (request m c lba i).opcode (request m c lba i).page
          (request m c lba i).pos := rfl
    unfold dcu_sectors
    dsimp only
    rw [hpage, hnext, hop, hsector]
    cases hserve : (serve m t.hd (request m c lba i)).1 with
    | none =>
      rw [serveAll_cons_none hserve]
      simp
    | some b =>
      have hframe := hf.trans (fill_frame t.mem (request m c lba i, b))
      have hloop := ih (t := put t (serve m t.hd (request m c lba i)).2
        (fill t.mem (request m c lba i, b))) (resid - 1) hframe (by omega) hsep' hT'
      have hcount : ∀ k : ℕ, (k + 1 == n + 1) = (k == n) := fun k => by
        rw [Bool.eq_iff_iff, beq_iff_eq, beq_iff_eq, Nat.add_right_cancel_iff]
      rw [serveAll_cons_some hserve]
      simp only [if_true]
      rw [hloop, resid_succ]
      simp only [put_hd, put_mem, put_put, List.foldl_cons, List.length_cons, hcount]

/-! ## One IOCB -/

/-- Memory is no part of what a geometry is fetched from. -/
theorem dcu_geometry_put (s : Dcu D) (mem : Memory) (unit : ℕ) :
    dcu_geometry { s with mem := mem } unit = { dcu_geometry s unit with mem := mem } := by
  unfold dcu_geometry Dcu.setGeometry
  split
  · rfl
  · dsimp only
    split <;> rfl

/-- Looking for the shape of a pack does not touch memory. -/
theorem dcu_geometry_mem (s : Dcu D) (unit : ℕ) : (dcu_geometry s unit).mem = s.mem := by
  have h : (dcu_geometry { s with mem := s.mem } unit).mem = s.mem := by rw [dcu_geometry_put]
  exact h

/-- Nor do the accesses put to the drives. -/
theorem visit_mem (s : Dcu D) (a : ℕ) : (visit s a).2.mem = s.mem := by
  unfold visit
  dsimp only
  split
  · exact dcu_geometry_mem s _
  · rfl

/-- The first block of an access is a 32-bit number already. -/
theorem u32_lba (c : Iocb) (sectors heads : ℕ) :
    u32 (c.lba sectors heads + 0) = c.lba sectors heads := by
  unfold Iocb.lba u32
  omega

/-- A visit to a unit that is there puts the accesses of the IOCB to the drives
with the unit's shape. -/
theorem visit_of_unit (h : dcu_unit_ok s (readIocb s.mem a).unit = true) :
    visit s a =
      let c := readIocb s.mem a
      let g := dcu_geometry s c.unit
      let r := serveAll s.mem g.hd (requests s.mem c (c.lba (g.sectors c.unit) (g.heads c.unit)))
      (r.1, put g r.2 s.mem) := by
  unfold visit
  dsimp only
  rw [if_pos h, dcu_geometry_mem]
  unfold put
  have hmem := dcu_geometry_mem s (readIocb s.mem a).unit
  generalize dcu_geometry s (readIocb s.mem a).unit = g at hmem ⊢
  rw [← hmem]

/-- A unit that is not there moves nothing. -/
theorem visit_of_absent (h : ¬dcu_unit_ok s (readIocb s.mem a).unit = true) :
    visit s a = ([], s) := by
  unfold visit
  dsimp only
  rw [if_neg h]

/-- The transfer of an IOCB is its visit, whatever else has been written. -/
theorem dcu_access_eq {mem : Memory} (hf : Frame s.mem mem T)
    (hsep : (regions s.mem a).Pairwise Disjoint) (hT : ∀ S ∈ regions s.mem a, Disjoint T S) :
    dcu_access { s with mem := mem } (readIocb s.mem a) =
      (put (visit s a).2 (visit s a).2.hd ((visit s a).1.foldl fill mem),
        (readIocb s.mem a).count - UInt8.ofNat (visit s a).1.length, decide (Complete s a)) := by
  have hok : dcu_unit_ok { s with mem := mem } (readIocb s.mem a).unit =
      dcu_unit_ok s (readIocb s.mem a).unit := rfl
  unfold dcu_access
  rw [hok]
  by_cases hunit : dcu_unit_ok s (readIocb s.mem a).unit = true
  · have htable : (span (readIocb s.mem a).table (4 * (readIocb s.mem a).count.toNat) ::
        dataPages s.mem a).Pairwise Disjoint := (List.pairwise_cons.mp hsep).2
    have hclear : ∀ S ∈ span (readIocb s.mem a).table (4 * (readIocb s.mem a).count.toNat) ::
        dataPages s.mem a, Disjoint T S := fun S hS => hT S (List.mem_cons_of_mem _ hS)
    have hdone : decide (Complete s a) =
        ((visit s a).1.length == (readIocb s.mem a).count.toNat) := by
      rw [Bool.eq_iff_iff, decide_eq_true_iff, beq_iff_eq]
      exact and_iff_right hunit
    rw [if_pos hunit, dcu_geometry_put, hdone, visit_of_unit hunit]
    dsimp only
    generalize dcu_geometry s (readIocb s.mem a).unit = g
    have hloop := dcu_sectors_eq (t := put g g.hd mem)
      ((readIocb s.mem a).lba (g.sectors (readIocb s.mem a).unit)
        (g.heads (readIocb s.mem a).unit))
      (readIocb s.mem a).count hf (Nat.zero_add _) htable hclear
    rw [u32_lba] at hloop
    exact hloop
  · rw [if_neg hunit, visit_of_absent hunit]
    simp [hunit, Complete, put]

/-- The data page of a sector that has been moved. -/
def pageOf (x : SectorOp × Sector) : Set ℕ := pageSpan x.1.opcode x.1.page

/-- The data pages of the sectors an IOCB moves are the first of its data pages. -/
theorem visit_pages (s : Dcu D) (a : ℕ) :
    (visit s a).1.map pageOf <+: dataPages s.mem a := by
  by_cases hunit : dcu_unit_ok s (readIocb s.mem a).unit = true
  · rw [visit_of_unit hunit]
    dsimp only
    generalize dcu_geometry s (readIocb s.mem a).unit = g
    have hpre := serveAll_isPrefixOf s.mem g.hd (requests s.mem (readIocb s.mem a)
      ((readIocb s.mem a).lba (g.sectors (readIocb s.mem a).unit)
        (g.heads (readIocb s.mem a).unit)))
    have hpages := hpre.map fun o => pageSpan o.opcode o.page
    rw [List.map_map] at hpages
    unfold requests at hpages
    rw [List.map_map] at hpages
    exact hpages
  · rw [visit_of_absent hunit]
    exact List.nil_prefix

/-- An IOCB moves at most the sectors it counts. -/
theorem visit_length (s : Dcu D) (a : ℕ) :
    (visit s a).1.length ≤ (readIocb s.mem a).count.toNat := by
  have h := (visit_pages s a).length_le
  unfold dataPages at h
  simpa using h

/-- The status an IOCB is left with. -/
def Visit.ending (m : Memory) (v : Visit) : UInt8 :=
  if v.complete then
    if (readIocb m v.iocb).next.isSome then IOCB_ES_CHAIN else IOCB_ES_DONE
  else IOCB_ES_DRIVE

/-- The residual an IOCB is left with. -/
def Visit.residual (m : Memory) (v : Visit) : UInt8 :=
  (readIocb m v.iocb).count - UInt8.ofNat v.moved.length

/-- Memory after an IOCB: its pages are filled, then the two bytes are stored. -/
def report (m mem : Memory) (v : Visit) : Memory :=
  ((v.moved.foldl fill mem).write_byte (v.iocb + IOCB_RESID) (v.residual m)).write_byte
    (v.iocb + IOCB_STATUS) (v.ending m)

/-- The visit of an IOCB in a state. -/
def visitOf (s : Dcu D) (a : ℕ) : Visit := ⟨a, (visit s a).1, decide (Complete s a)⟩

/-- One round of the chain loop is a visit and its report. -/
theorem dcu_iocb_eq {mem : Memory} (hf : Frame s.mem mem T)
    (hsep : (regions s.mem a).Pairwise Disjoint) (hT : ∀ S ∈ regions s.mem a, Disjoint T S) :
    dcu_iocb { s with mem := mem } a =
      (put (visit s a).2 (visit s a).2.hd (report s.mem mem (visitOf s a)),
        if Complete s a then
          match (readIocb s.mem a).next with
          | some b => .next b
          | none => .stop true
        else .stop false) := by
  have hfields : readIocb mem a = readIocb s.mem a :=
    readIocb_congr fun x hx => hf.of_disjoint (hT _ List.mem_cons_self) hx
  have haccess := dcu_access_eq hf hsep hT
  unfold dcu_iocb
  dsimp only
  rw [hfields, haccess]
  unfold report visitOf Visit.ending Visit.residual
  by_cases hdone : Complete s a
  · simp only [hdone, decide_true, if_true]
    cases (readIocb s.mem a).next with
    | none => rfl
    | some b => rfl
  · simp only [hdone, decide_false, Bool.false_eq_true, if_false]
    rfl

/-! ## A chain -/

/-- The bytes an IOCB that has been visited changes: its residual, its status
and the pages of the sectors it has read. -/
def touched (v : Visit) : Set ℕ :=
  {u32 (v.iocb + IOCB_RESID), u32 (v.iocb + IOCB_STATUS)} ∪ readSpans (v.moved.map Prod.fst)

/-- Sectors that are read fill their pages and nothing else. -/
theorem foldl_fill_frame (mem : Memory) (moved : List (SectorOp × Sector)) :
    Frame mem (moved.foldl fill mem) (readSpans (moved.map Prod.fst)) := by
  induction moved generalizing mem with
  | nil => exact Frame.refl mem _
  | cons x moved ih =>
    rw [List.map_cons, readSpans_cons]
    exact (fill_frame mem x).trans (ih (fill mem x))

/-- A report changes the bytes it is to change only. -/
theorem report_frame (m mem : Memory) (v : Visit) : Frame mem (report m mem v) (touched v) := by
  have hfill := foldl_fill_frame mem v.moved
  have hresid := write_byte_frame (v.moved.foldl fill mem) (v.iocb + IOCB_RESID) (v.residual m)
  have hstatus := write_byte_frame ((v.moved.foldl fill mem).write_byte (v.iocb + IOCB_RESID)
    (v.residual m)) (v.iocb + IOCB_STATUS) (v.ending m)
  refine (hfill.trans (hresid.trans hstatus)).mono ?_
  rintro x (hx | hx | hx)
  · exact Or.inr hx
  · exact Or.inl (Or.inl hx)
  · exact Or.inl (Or.inr hx)

/-- What a visited IOCB changes is its own memory. -/
theorem touched_subset (s : Dcu D) (a : ℕ) : touched (visitOf s a) ⊆ footprint s.mem a := by
  have hself : span a 28 ∈ regions s.mem a := List.mem_cons_self
  rintro x ((rfl | rfl) | ⟨o, ho, hx⟩)
  · exact subset_footprint hself (u32_mem_span (show IOCB_RESID < 28 by decide))
  · exact subset_footprint hself (u32_mem_span (show IOCB_STATUS < 28 by decide))
  · obtain ⟨y, hy, rfl⟩ := List.mem_map.mp ho
    have hpage : pageOf y ∈ dataPages s.mem a :=
      (visit_pages s a).subset (List.mem_map_of_mem hy)
    exact subset_footprint (List.mem_cons_of_mem _ (List.mem_cons_of_mem _ hpage))
      (readSpan_subset y.1 hx)

/-- After an IOCB that is complete, the transfer comes to the next. -/
theorem visits_complete (h : Complete s a) :
    visits s (a :: l) =
      (visitOf s a :: (visits (visit s a).2 l).1, (visits (visit s a).2 l).2) := by
  conv_lhs => unfold visits
  rw [if_pos h]
  simp only [visitOf, h, decide_true]

/-- After one of which something fails, it comes to no other. -/
theorem visits_failed (h : ¬Complete s a) :
    visits s (a :: l) = ([visitOf s a], (visit s a).2) := by
  conv_lhs => unfold visits
  rw [if_neg h]
  simp only [visitOf, h, decide_false]

/-- A transfer visits its chain up to the first IOCB of which something fails,
and memory holds their reports. -/
theorem dcu_transfer_eq {mem : Memory} (hm : s.mem = m) (hl : ChainOf m a l)
    (hf : Frame m mem T) (hsep : (l.flatMap (regions m)).Pairwise Disjoint)
    (hT : ∀ S ∈ l.flatMap (regions m), Disjoint T S) (hfuel : l.length ≤ fuel) :
    dcu_transfer fuel { s with mem := mem } a =
      some (put (visits s l).2 (visits s l).2.hd ((visits s l).1.foldl (report m) mem),
        (visits s l).1.all Visit.complete) := by
  induction hl generalizing s mem T fuel with
  | @last a hnext =>
    subst hm
    obtain ⟨fuel, rfl⟩ : ∃ n, fuel = n + 1 := ⟨fuel - 1, by simp at hfuel; omega⟩
    have hround := dcu_iocb_eq hf (by simpa using hsep) (by simpa using hT)
    rw [hnext] at hround
    by_cases hdone : Complete s a
    · rw [if_pos hdone] at hround
      rw [dcu_transfer_stop (congrArg Prod.snd hround), hround, visits_complete hdone]
      simp [visits, visitOf, hdone]
    · rw [if_neg hdone] at hround
      rw [dcu_transfer_stop (congrArg Prod.snd hround), hround, visits_failed hdone]
      simp [visitOf, hdone]
  | @link a b l hnext hl ih =>
    subst hm
    obtain ⟨fuel, rfl⟩ : ∃ n, fuel = n + 1 := ⟨fuel - 1, by simp at hfuel; omega⟩
    rw [List.flatMap_cons] at hsep hT
    obtain ⟨hsepa, hsepl, hcross⟩ := List.pairwise_append.mp hsep
    have hround := dcu_iocb_eq hf hsepa fun S hS => hT S (List.mem_append_left _ hS)
    rw [hnext] at hround
    by_cases hdone : Complete s a
    · rw [if_pos hdone] at hround
      have hframe := hf.trans ((report_frame s.mem mem (visitOf s a)).mono (touched_subset s a))
      have hrest : ∀ S ∈ l.flatMap (regions s.mem), Disjoint (T ∪ footprint s.mem a) S :=
        fun S hS => Set.disjoint_union_left.mpr ⟨hT S (List.mem_append_right _ hS),
          footprint_disjoint fun R hR => hcross R hR S hS⟩
      have hloop := ih (visit_mem s a) hframe hsepl hrest (show l.length ≤ fuel by simpa using hfuel)
      have hc : (visitOf s a).complete = true := by simp [visitOf, hdone]
      rw [dcu_transfer_next (congrArg Prod.snd hround), hround, visits_complete hdone]
      dsimp only
      rw [List.foldl_cons, List.all_cons, hc, Bool.true_and]
      exact hloop
    · rw [if_neg hdone] at hround
      rw [dcu_transfer_stop (congrArg Prod.snd hround), hround, visits_failed hdone]
      simp [visitOf, hdone]

/-! ## What the reports leave in memory -/

/-- The IOCB and the data pages of a visit. -/
def places (v : Visit) : List (Set ℕ) :=
  span v.iocb 28 :: v.moved.map pageOf

/-- The places of the visits of a chain are among the objects of the command. -/
theorem visits_places (hm : s.mem = m) (l : List ℕ) :
    ((visits s l).1.flatMap places).Sublist (l.flatMap (regions m)) := by
  induction l generalizing s with
  | nil => exact List.Sublist.slnil
  | cons a l ih =>
    subst hm
    have hone : (places (visitOf s a)).Sublist (regions s.mem a) :=
      ((visit_pages s a).sublist.cons _).cons_cons _
    by_cases hdone : Complete s a
    · rw [visits_complete hdone]
      exact hone.append (ih (visit_mem s a))
    · rw [visits_failed hdone]
      simpa using hone.trans (List.sublist_append_left _ _)

/-- What is disjoint from the places of a visit is not changed by its report. -/
theorem disjoint_touched {R : Set ℕ} {v : Visit} (h : ∀ S ∈ places v, Disjoint R S) :
    Disjoint R (touched v) := by
  have hself := h _ List.mem_cons_self
  refine Set.disjoint_left.mpr ?_
  rintro x hR ((rfl | rfl) | ⟨o, ho, hx⟩)
  · exact Set.disjoint_left.mp hself hR (u32_mem_span (show IOCB_RESID < 28 by decide))
  · exact Set.disjoint_left.mp hself hR (u32_mem_span (show IOCB_STATUS < 28 by decide))
  · obtain ⟨y, hy, rfl⟩ := List.mem_map.mp ho
    have hpage := h _ (List.mem_cons_of_mem _
      (List.mem_map_of_mem hy))
    exact Set.disjoint_left.mp hpage hR (readSpan_subset y.1 hx)

/-- A sector that is read has its page as its place. -/
theorem pageOf_read {x : SectorOp × Sector} (hr : ¬x.1.Writes) : pageOf x = span x.1.page 512 :=
  if_neg fun hf => hr (Or.inr hf)

/-- Each sector read is in its page when the last one has been moved. -/
theorem foldl_fill_page {mem : Memory} {moved : List (SectorOp × Sector)} {x : SectorOp × Sector}
    (hp : (moved.map pageOf).Pairwise Disjoint) (hx : x ∈ moved)
    (hr : ¬x.1.Writes) : (moved.foldl fill mem).readPage x.1.page = x.2 := by
  induction moved generalizing mem with
  | nil => cases hx
  | cons y moved ih =>
    obtain ⟨hfirst, hrest⟩ := List.pairwise_cons.mp hp
    rw [List.foldl_cons]
    rcases List.mem_cons.mp hx with rfl | hx
    · have hfill : fill mem x = mem.writePage x.1.page x.2 := if_neg hr
      have hframe := foldl_fill_frame (fill mem x) moved
      have hdis : Disjoint (readSpans (moved.map Prod.fst)) (span x.1.page 512) := by
        refine Set.disjoint_left.mpr ?_
        rintro z ⟨o, ho, hz⟩ hz'
        obtain ⟨y, hy, rfl⟩ := List.mem_map.mp ho
        have hxy := hfirst _ (List.mem_map_of_mem hy)
        rw [pageOf_read hr] at hxy
        exact Set.disjoint_left.mp hxy hz' (readSpan_subset y.1 hz)
      rw [readPage_congr fun z hz => hframe.of_disjoint hdis hz, hfill, readPage_writePage]
    · exact ih hrest hx

/-- The reports of some visits are in memory, and nothing else has changed. -/
structure Reported (m : Memory) (vs : List Visit) (mem : Memory) : Prop where
  /-- Each status byte. -/
  status : ∀ v ∈ vs, mem.read_byte (v.iocb + IOCB_STATUS) = v.ending m
  /-- Each residual. -/
  residual : ∀ v ∈ vs, mem.read_byte (v.iocb + IOCB_RESID) = v.residual m
  /-- Each sector read is in its page. -/
  pages : ∀ v ∈ vs, ∀ x ∈ v.moved, ¬x.1.Writes → mem.readPage x.1.page = x.2
  /-- No other byte has changed. -/
  frame : Frame m mem {x | ∃ v ∈ vs, x ∈ touched v}

/-- A report leaves its two bytes and its pages. -/
theorem report_self (m mem : Memory) {v : Visit} (hp : (places v).Pairwise Disjoint) :
    (report m mem v).read_byte (v.iocb + IOCB_STATUS) = v.ending m ∧
      (report m mem v).read_byte (v.iocb + IOCB_RESID) = v.residual m ∧
      ∀ x ∈ v.moved, ¬x.1.Writes → (report m mem v).readPage x.1.page = x.2 := by
  obtain ⟨hself, hpages⟩ := List.pairwise_cons.mp hp
  have hne : u32 (v.iocb + IOCB_RESID) ≠ u32 (v.iocb + IOCB_STATUS) := fun he =>
    absurd (u32_add_inj (by decide) (by decide) he) (by decide)
  refine ⟨update_self _ _ _, (update_of_ne hne _ _).trans (update_self _ _ _), ?_⟩
  intro x hx hr
  have hpage := hself _ (List.mem_map_of_mem hx)
  rw [pageOf_read hr] at hpage
  have hresid := write_byte_span (v.moved.foldl fill mem) (a := v.iocb)
    (show IOCB_RESID < 28 by decide) (v.residual m)
  have hstatus := write_byte_span ((v.moved.foldl fill mem).write_byte (v.iocb + IOCB_RESID)
    (v.residual m)) (a := v.iocb) (show IOCB_STATUS < 28 by decide) (v.ending m)
  unfold report
  rw [readPage_congr fun z hz => hstatus.of_disjoint hpage hz,
    readPage_congr fun z hz => hresid.of_disjoint hpage hz, foldl_fill_page hpages hx hr]

/-- One more report keeps the earlier ones. -/
theorem Reported.snoc {vs : List Visit} {v : Visit} {mem : Memory} (h : Reported m vs mem)
    (hp : ((vs ++ [v]).flatMap places).Pairwise Disjoint) :
    Reported m (vs ++ [v]) (report m mem v) := by
  rw [List.flatMap_append, List.flatMap_singleton] at hp
  obtain ⟨_, hpv, hcross⟩ := List.pairwise_append.mp hp
  obtain ⟨hstatus, hresid, hpages⟩ := report_self m mem hpv
  have hkeep : ∀ w ∈ vs, ∀ S ∈ places w, ∀ x ∈ S, report m mem v x = mem x := by
    intro w hw S hS x hx
    have hdis := disjoint_touched (v := v) fun R hR =>
      hcross S (List.mem_flatMap.mpr ⟨w, hw, hS⟩) R hR
    exact (report_frame m mem v).of_disjoint hdis.symm hx
  constructor
  · intro w hw
    rcases List.mem_append.mp hw with hw | hw
    · rw [← h.status w hw]
      exact hkeep w hw _ List.mem_cons_self _ (u32_mem_span (show IOCB_STATUS < 28 by decide))
    · obtain rfl := List.mem_singleton.mp hw
      exact hstatus
  · intro w hw
    rcases List.mem_append.mp hw with hw | hw
    · rw [← h.residual w hw]
      exact hkeep w hw _ List.mem_cons_self _ (u32_mem_span (show IOCB_RESID < 28 by decide))
    · obtain rfl := List.mem_singleton.mp hw
      exact hresid
  · intro w hw x hx hr
    rcases List.mem_append.mp hw with hw | hw
    · have hplace : span x.1.page 512 ∈ places w := by
        rw [← pageOf_read hr]
        exact List.mem_cons_of_mem _ (List.mem_map_of_mem hx)
      rw [readPage_congr fun z hz => hkeep w hw _ hplace z hz]
      exact h.pages w hw x hx hr
    · obtain rfl := List.mem_singleton.mp hw
      exact hpages x hx hr
  · refine (h.frame.trans (report_frame m mem v)).mono ?_
    rintro x (⟨w, hw, hx⟩ | hx)
    · exact ⟨w, List.mem_append_left _ hw, hx⟩
    · exact ⟨v, by simp, hx⟩

/-- The reports of a whole list of visits. -/
theorem reported_foldl (m : Memory) {vs : List Visit}
    (hp : (vs.flatMap places).Pairwise Disjoint) : Reported m vs (vs.foldl (report m) m) := by
  induction vs using List.reverseRecOn with
  | nil => exact ⟨nofun, nofun, nofun, Frame.refl m _⟩
  | append_singleton vs v ih =>
    rw [List.foldl_append]
    refine (ih ?_).snoc hp
    rw [List.flatMap_append] at hp
    exact (List.pairwise_append.mp hp).1

/-! ## The report of a command -/

/-- A transfer comes to the IOCBs of its chain in order. -/
theorem visits_prefix (s : Dcu D) (l : List ℕ) : (visits s l).1.map Visit.iocb <+: l := by
  induction l generalizing s with
  | nil => exact List.prefix_rfl
  | cons a l ih =>
    by_cases hdone : Complete s a
    · rw [visits_complete hdone]
      exact List.cons_prefix_cons.mpr ⟨rfl, ih _⟩
    · rw [visits_failed hdone]
      exact List.cons_prefix_cons.mpr ⟨rfl, List.nil_prefix⟩

/-- A transfer that gets through everything comes to its whole chain. -/
theorem visits_all {s : Dcu D} {l : List ℕ} (h : ∀ v ∈ (visits s l).1, v.complete = true) :
    (visits s l).1.map Visit.iocb = l := by
  induction l generalizing s with
  | nil => rfl
  | cons a l ih =>
    by_cases hdone : Complete s a
    · rw [visits_complete hdone] at h ⊢
      exact congrArg (a :: ·) (ih fun v hv => h v (List.mem_cons_of_mem _ hv))
    · rw [visits_failed hdone] at h
      simpa [visitOf, hdone] using h (visitOf s a) List.mem_cons_self

/-- Only the last IOCB that a transfer comes to can have failed. -/
theorem visits_before {s : Dcu D} {l : List ℕ} {pre : List Visit} {w : Visit}
    (h : (visits s l).1 = pre ++ [w]) : ∀ v ∈ pre, v.complete = true := by
  induction l generalizing s pre with
  | nil => simp [visits] at h
  | cons a l ih =>
    by_cases hdone : Complete s a
    · rw [visits_complete hdone] at h
      cases pre with
      | nil => nofun
      | cons x pre =>
        obtain ⟨rfl, htail⟩ := List.cons.inj h
        intro v hv
        rcases List.mem_cons.mp hv with rfl | hv
        · simp [visitOf, hdone]
        · exact ih htail v hv
    · rw [visits_failed hdone] at h
      cases pre with
      | nil => nofun
      | cons x pre => simp at h

/-- A transfer comes to one IOCB at least. -/
theorem visits_ne_nil (s : Dcu D) (hl : l ≠ []) : (visits s l).1 ≠ [] := by
  cases l with
  | nil => exact absurd rfl hl
  | cons a l =>
    unfold visits
    split <;> simp

/-- Every visit is that of its IOCB in some state of the drives. -/
theorem mem_visits {s : Dcu D} {l : List ℕ} {v : Visit} (h : v ∈ (visits s l).1) :
    ∃ t : Dcu D, t.mem = s.mem ∧ v = visitOf t v.iocb := by
  induction l generalizing s with
  | nil => cases h
  | cons a l ih =>
    by_cases hdone : Complete s a
    · rw [visits_complete hdone] at h
      rcases List.mem_cons.mp h with rfl | h
      · exact ⟨s, rfl, rfl⟩
      · obtain ⟨t, ht, hv⟩ := ih h
        exact ⟨t, ht.trans (visit_mem s a), hv⟩
    · rw [visits_failed hdone] at h
      obtain rfl := List.mem_singleton.mp h
      exact ⟨s, rfl, rfl⟩

/-- The sectors a visit moves are the first that its IOCB asks for, under some
shape of the pack; when nothing fails, they are all of them. -/
theorem visit_moved {s : Dcu D} {l : List ℕ} {v : Visit} (h : v ∈ (visits s l).1) :
    (∃ g : ℕ × ℕ, v.moved.map Prod.fst <+:
      requests s.mem (readIocb s.mem v.iocb) ((readIocb s.mem v.iocb).lba g.1 g.2)) ∧
      v.moved.length ≤ (readIocb s.mem v.iocb).count.toNat ∧
      (v.complete = true → v.moved.length = (readIocb s.mem v.iocb).count.toNat) := by
  obtain ⟨t, ht, hv⟩ := mem_visits h
  rw [← ht]
  have hmoved : v.moved = (visit t v.iocb).1 := congrArg Visit.moved hv
  have hcomplete : v.complete = decide (Complete t v.iocb) := congrArg Visit.complete hv
  refine ⟨?_, hmoved ▸ visit_length t v.iocb, ?_⟩
  · rw [hmoved]
    by_cases hunit : dcu_unit_ok t (readIocb t.mem v.iocb).unit = true
    · rw [visit_of_unit hunit]
      exact ⟨((dcu_geometry t (readIocb t.mem v.iocb).unit).sectors (readIocb t.mem v.iocb).unit,
        (dcu_geometry t (readIocb t.mem v.iocb).unit).heads (readIocb t.mem v.iocb).unit),
        serveAll_isPrefixOf _ _ _⟩
    · rw [visit_of_absent hunit]
      exact ⟨(0, 0), List.nil_prefix⟩
  · intro hc
    rw [hcomplete, decide_eq_true_iff] at hc
    rw [hmoved]
    exact hc.2

/-- The residual and the sectors moved make up the count. -/
theorem residual_toNat {s : Dcu D} {l : List ℕ} {v : Visit} (h : v ∈ (visits s l).1) :
    (v.residual s.mem).toNat + v.moved.length = (readIocb s.mem v.iocb).count.toNat := by
  have hle := (visit_moved h).2.1
  have hlt := (readIocb s.mem v.iocb).count.toNat_lt
  have hmoved : (UInt8.ofNat v.moved.length).toNat = v.moved.length :=
    UInt8.toNat_ofNat_of_lt' (show v.moved.length < 256 by omega)
  have hsub : UInt8.ofNat v.moved.length ≤ (readIocb s.mem v.iocb).count := by
    rw [UInt8.le_iff_toNat_le, hmoved]
    exact hle
  unfold Visit.residual
  rw [UInt8.toNat_sub_of_le _ _ hsub, hmoved]
  omega

/-- A chain has an IOCB. -/
theorem ChainOf.ne_nil (hl : ChainOf m a l) : l ≠ [] := by
  cases hl <;> simp

/-- The last IOCB of a chain is the one without a link. -/
theorem ChainOf.next_eq_none {pre post : List ℕ} {b : ℕ} (hl : ChainOf m a l)
    (h : l = pre ++ b :: post) : (readIocb m b).next = none ↔ post = [] := by
  induction hl generalizing pre with
  | @last a hnext =>
    cases pre with
    | nil =>
      obtain ⟨rfl, hpost⟩ := List.cons.inj h
      simp [hnext, ← hpost]
    | cons x pre => simp at h
  | @link a a' l hnext hl ih =>
    cases pre with
    | nil =>
      obtain ⟨rfl, hpost⟩ := List.cons.inj h
      simp [hnext, ← hpost, ChainOf.ne_nil hl]
    | cons x pre => exact ih (List.cons.inj h).2

/-- The state a command starts in. -/
def start (s : Dcu D) (c : Command) : Dcu D := { s with mem := c.mem }

/-- The report of a transfer agrees with what the drives did. -/
structure Truthful (s : Dcu D) (c : Command) (u : Dcu D) (ok : Bool) : Prop where
  /-- When nothing fails, every IOCB ends with its whole count moved, and only
  the last one with the status of a finished chain. -/
  success : (∀ v ∈ (visits s c.chain).1, v.complete = true) → ok = true ∧
    ∀ pre a post, c.chain = pre ++ a :: post →
      u.mem.read_byte (a + IOCB_STATUS) = (if post = [] then IOCB_ES_DONE else IOCB_ES_CHAIN) ∧
        u.mem.read_byte (a + IOCB_RESID) = 0
  /-- When something of an IOCB fails, it is the last one come to; its residual
  is what is left of its count after the sectors it has moved. -/
  failure : ∀ pre v, (visits s c.chain).1 = pre ++ [v] → v.complete = false → ok = false ∧
    (∀ w ∈ pre, u.mem.read_byte (w.iocb + IOCB_STATUS) = IOCB_ES_CHAIN ∧
      u.mem.read_byte (w.iocb + IOCB_RESID) = 0) ∧
    u.mem.read_byte (v.iocb + IOCB_STATUS) = IOCB_ES_DRIVE ∧
    (u.mem.read_byte (v.iocb + IOCB_RESID)).toNat + v.moved.length =
      (readIocb c.mem v.iocb).count.toNat
  /-- The IOCBs come to are the first of the chain. -/
  inOrder : (visits s c.chain).1.map Visit.iocb <+: c.chain
  /-- The sectors moved are the first that the IOCB asks for. -/
  moved : ∀ v ∈ (visits s c.chain).1, ∃ g : ℕ × ℕ, v.moved.map Prod.fst <+:
    requests c.mem (readIocb c.mem v.iocb) ((readIocb c.mem v.iocb).lba g.1 g.2)
  /-- The drives have been asked for these and, in a failure, the one refused. -/
  drives : u.hd = (visits s c.chain).2.hd
  /-- Each sector read is in its page. -/
  pages : ∀ v ∈ (visits s c.chain).1, ∀ x ∈ v.moved, ¬x.1.Writes →
    u.mem.readPage x.1.page = x.2
  /-- No byte has changed but the two of each IOCB come to and the pages read. -/
  frame : Frame c.mem u.mem {x | ∃ v ∈ (visits s c.chain).1, x ∈ touched v}

/-- The transfer of a command, with its reports in memory. -/
theorem command_transfer (s : Dcu D) (c : Command) (hfuel : c.chain.length ≤ fuel) :
    ∃ u, dcu_transfer fuel (start s c) c.iocb =
        some (u, (visits (start s c) c.chain).1.all Visit.complete) ∧
      u.hd = (visits (start s c) c.chain).2.hd ∧
      Reported c.mem (visits (start s c) c.chain).1 u.mem := by
  have htransfer := dcu_transfer_eq (s := start s c) rfl c.linked (Frame.refl c.mem ∅) c.separate
    (fun S _ => Set.empty_disjoint S) hfuel
  have hreported := reported_foldl c.mem
    (c.separate.sublist (visits_places (s := start s c) rfl c.chain))
  exact ⟨_, htransfer, rfl, hreported⟩

/-- The outcome and the memory of a transfer are a truthful report. -/
theorem truthful_of_reported {s u : Dcu D} {c : Command} (hs : s.mem = c.mem)
    (hhd : u.hd = (visits s c.chain).2.hd) (h : Reported c.mem (visits s c.chain).1 u.mem) :
    Truthful s c u ((visits s c.chain).1.all Visit.complete) := by
  have hzero : ∀ v ∈ (visits s c.chain).1, v.complete = true →
      u.mem.read_byte (v.iocb + IOCB_RESID) = 0 := by
    intro v hv hc
    have hresid := residual_toNat hv
    rw [hs, ← h.residual v hv] at hresid
    have hall := (visit_moved hv).2.2 hc
    rw [hs] at hall
    have hnat : (u.mem.read_byte (v.iocb + IOCB_RESID)).toNat = (0 : UInt8).toNat := by
      change _ = 0
      omega
    exact UInt8.toNat_inj.mp hnat
  have hchain : ∀ v ∈ (visits s c.chain).1, v.complete = true →
      ∀ pre post, c.chain = pre ++ v.iocb :: post → u.mem.read_byte (v.iocb + IOCB_STATUS) =
        if post = [] then IOCB_ES_DONE else IOCB_ES_CHAIN := by
    intro v hv hc pre post hsplit
    have hnext := ChainOf.next_eq_none c.linked hsplit
    rw [h.status v hv, Visit.ending, if_pos hc]
    by_cases hpost : post = []
    · rw [if_pos hpost, hnext.mpr hpost]
      rfl
    · rw [if_neg hpost, if_pos (Option.isSome_iff_ne_none.mpr (mt hnext.mp hpost))]
  refine ⟨?_, ?_, visits_prefix s c.chain, ?_, hhd, h.pages, h.frame⟩
  · intro hall
    refine ⟨List.all_eq_true.mpr hall, ?_⟩
    intro pre a post hsplit
    have ha : a ∈ (visits s c.chain).1.map Visit.iocb := by
      rw [visits_all hall, hsplit]
      simp
    obtain ⟨v, hv, rfl⟩ := List.mem_map.mp ha
    exact ⟨hchain v hv (hall v hv) pre post hsplit, hzero v hv (hall v hv)⟩
  · intro pre v hvs hc
    have hv : v ∈ (visits s c.chain).1 := by simp [hvs]
    refine ⟨?_, ?_, ?_, ?_⟩
    · rw [hvs]
      simp [hc]
    · intro w hw
      have hwmem : w ∈ (visits s c.chain).1 := by simp [hvs, hw]
      have hwc := visits_before hvs w hw
      obtain ⟨front, back, rfl⟩ := List.append_of_mem hw
      obtain ⟨rest, hrest⟩ := visits_prefix s c.chain
      rw [hvs] at hrest
      have hsplit : c.chain = front.map Visit.iocb ++ w.iocb ::
          (back.map Visit.iocb ++ v.iocb :: rest) := by
        rw [← hrest]
        simp
      have hstatus := hchain w hwmem hwc _ _ hsplit
      rw [if_neg (by simp)] at hstatus
      exact ⟨hstatus, hzero w hwmem hwc⟩
    · rw [h.status v hv, Visit.ending, if_neg (by simp [hc])]
    · have hresid := residual_toNat hv
      rwa [hs, ← h.residual v hv] at hresid
  · intro v hv
    have hm := (visit_moved hv).1
    rwa [hs] at hm

/-- A command comes to some last IOCB, and succeeds exactly when that one ends
with the status of a finished chain. -/
theorem Truthful.last {s u : Dcu D} {c : Command} {ok : Bool} (h : Truthful s c u ok) :
    ∃ pre w, (visits s c.chain).1 = pre ++ [w] ∧
      (ok = true ↔ u.mem.read_byte (w.iocb + IOCB_STATUS) = IOCB_ES_DONE) := by
  have hne := visits_ne_nil s (ChainOf.ne_nil c.linked)
  obtain ⟨pre, w, hvs⟩ := (List.eq_nil_or_concat _).resolve_left hne
  rw [List.concat_eq_append] at hvs
  refine ⟨pre, w, hvs, ?_⟩
  cases hc : w.complete with
  | true =>
    have hall : ∀ v ∈ (visits s c.chain).1, v.complete = true := by
      intro v hv
      rw [hvs] at hv
      rcases List.mem_append.mp hv with hv | hv
      · exact visits_before hvs v hv
      · rw [List.mem_singleton.mp hv, hc]
    obtain ⟨hok, hreports⟩ := h.success hall
    have hsplit : c.chain = pre.map Visit.iocb ++ w.iocb :: [] := by
      rw [← visits_all hall, hvs]
      simp
    have hstatus := (hreports _ _ _ hsplit).1
    rw [if_pos rfl] at hstatus
    exact ⟨fun _ => hstatus, fun _ => hok⟩
  | false =>
    obtain ⟨hok, _, hstatus, _⟩ := h.failure pre w hvs hc
    rw [hok, hstatus]
    decide

/-- A transfer of a chain that does not overlap itself runs to an end and
reports truthfully how far it came, whichever accesses fail; the command's
channel code is done exactly when the last IOCB it came to ends as done. -/
theorem transfer_reports_truthfully (s : Dcu D) (c : Command) (hfuel : c.chain.length ≤ fuel) :
    ∃ u ok, dcu_transfer fuel (start s c) c.iocb = some (u, ok) ∧
      Truthful (start s c) c u ok ∧
      (s.op = DCU_C_START → dcu_arg s = c.iocb →
        ∃ v pre w, dcu_complete fuel (start s c) = some v ∧ v.mem = u.mem ∧ v.hd = u.hd ∧
          (visits (start s c) c.chain).1 = pre ++ [w] ∧
          (v.code = .done ↔ v.mem.read_byte (w.iocb + IOCB_STATUS) = IOCB_ES_DONE)) := by
  obtain ⟨u, hu, hhd, hreported⟩ := command_transfer s c hfuel
  have htruth := truthful_of_reported (s := start s c) rfl hhd hreported
  refine ⟨u, _, hu, htruth, ?_⟩
  intro hop harg
  obtain ⟨pre, w, hvs, hlast⟩ := htruth.last
  have hexec : dcu_execute fuel (start s c) =
      some (u, (visits (start s c) c.chain).1.all Visit.complete) := by
    have hop' : (start s c).op = DCU_C_START := hop
    have harg' : dcu_arg (start s c) = c.iocb := harg
    unfold dcu_execute
    rw [hop', harg']
    exact hu
  generalize (visits (start s c) c.chain).1.all Visit.complete = ok at hexec hlast
  refine ⟨{ u with code := if ok then .done else .error, line3 := false }, pre, w, ?_, rfl, rfl,
    hvs, ?_⟩
  · rw [dcu_complete, hexec]
    rfl
  · refine Iff.trans ?_ hlast
    cases ok <;> simp

/-- A state in which a transfer of the IOCB at 0x100 has been ordered, with two
sectors on each drive. -/
def ordered : Dcu Image :=
  { twoSectors with op := DCU_C_START, chan := fun i => if i.val = 1 then 1 else 0 }

/-- Memory with two IOCBs in a chain: one at 0x100 writes sector 0, and one at
0x600 reads sectors 1 and 2 into the pages at 0x800 and 0xa00. -/
def twoIocbs : Memory := fun x =>
  if x = 0x100 then DCU_C_WRITE else if x = 0x103 then 1 else if x = 0x10b then 2
  else if x = 0x117 then 6 else if x = 0x119 then 0x80 else if x = 0x201 then 4
  else if x = 0x600 then DCU_C_READ else if x = 0x603 then 2 else if x = 0x608 then 1
  else if x = 0x60b then 7 else if x = 0x701 then 8 else if x = 0x705 then 10 else 0

/-- The objects of both IOCBs, none of which overlap. -/
theorem twoIocbs_regions : [0x100, 0x600].flatMap (regions twoIocbs) =
    [span 0x100 28, span 0x200 4, span 0x400 512, span 0x600 28, span 0x700 8, span 0x800 512,
      span 0xa00 512] := by
  have htables : (readIocb twoIocbs 0x100).table = 0x200 ∧
      (readIocb twoIocbs 0x600).table = 0x700 := by decide
  have hcounts : (readIocb twoIocbs 0x100).count = 1 ∧
      (readIocb twoIocbs 0x600).count = 2 := by decide
  have hopcodes : (readIocb twoIocbs 0x100).opcode = DCU_C_WRITE ∧
      (readIocb twoIocbs 0x600).opcode = DCU_C_READ := by decide
  have hpages : pageAddr twoIocbs 0x200 0 = 0x400 ∧ pageAddr twoIocbs 0x700 0 = 0x800 ∧
      pageAddr twoIocbs 0x700 1 = 0xa00 := by decide
  have hspan (page : ℕ) : pageSpan DCU_C_WRITE page = span page 512 ∧
      pageSpan DCU_C_READ page = span page 512 := ⟨if_neg (by decide), if_neg (by decide)⟩
  have htwo : List.range' 0 2 = [0, 1] := by decide
  simp [regions, dataPages, htables, hcounts, hopcodes, hpages, hspan, htwo]

/-- The command for that chain. -/
def linkedCommand : Command where
  mem := twoIocbs
  iocb := 0x100
  chain := [0x100, 0x600]
  linked := .link (by decide : (readIocb twoIocbs 0x100).next = some 0x600) (.last (by decide))
  separate := by
    rw [twoIocbs_regions]
    simp [span_disjoint]

/-- The second IOCB of a chain is refused its second sector. -/
theorem transfer_reports_refusal :
    ∃ u ok v w x,
      dcu_transfer 2 (start ordered linkedCommand) 0x100 = some (u, ok) ∧
        Truthful (start ordered linkedCommand) linkedCommand u ok ∧
        dcu_complete 2 (start ordered linkedCommand) = some v ∧ v.mem = u.mem ∧
        (visits (start ordered linkedCommand) [0x100, 0x600]).1 = [w] ++ [x] ∧
        w.complete = true ∧ x.iocb = 0x600 ∧ x.moved.length = 1 ∧ x.complete = false ∧
        (v.code = .done ↔ v.mem.read_byte (x.iocb + IOCB_STATUS) = IOCB_ES_DONE) := by
  obtain ⟨u, ok, hu, htruth, hcode⟩ :=
    transfer_reports_truthfully ordered linkedCommand (by decide : _ ≤ 2)
  obtain ⟨v, pre, x, hv, hmem, _, hvs, hdone⟩ := hcode rfl (by decide)
  have hall : (visits (start ordered linkedCommand) linkedCommand.chain).1.map
      (fun y => (y.iocb, y.moved.length, y.complete)) =
      [(0x100, 1, true)] ++ [(0x600, 1, false)] := by decide +kernel
  rw [hvs, List.map_append, List.map_singleton] at hall
  obtain ⟨hpre, hx⟩ := List.append_inj' hall rfl
  obtain ⟨w, rfl, hw⟩ := List.map_eq_singleton_iff.mp hpre
  have hx' := List.singleton_inj.mp hx
  exact ⟨u, ok, v, w, x, hu, htruth, hv, hmem, hvs, congrArg (·.2.2) hw, congrArg (·.1) hx',
    congrArg (·.2.1) hx', congrArg (·.2.2) hx', hdone⟩

end Sys16.DcuReport
