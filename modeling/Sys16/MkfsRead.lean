import Sys16.MkfsOwners
import Sys16.S5Reader

/-!
# Reading inodes and files back

The reader finds in each slot of the i-list the inode that was packed there,
and through its addresses the bytes of the file that was stored in it. An
address keeps its value when it is below two to the twenty-four.
-/

namespace Sys16.MkfsRead

open ByteStore LittleEndian PyText PyStruct MkfsImage MkfsBlocks MkfsActs MkfsFinish MkfsLedger
open MkfsInodes MkfsOwners S5Reader

variable {fs : Fs} {d e : Bytes} {i : Inode} {s n k : ℕ} {content : Bytes}

/-! ## Inodes -/

/-- The address that the reader makes of the three bytes of an address. -/
def readAddr (a : ℤ) : ℕ :=
  (lowByte a).toNat ||| (lowByte (a >>> 8)).toNat <<< 8 ||| (lowByte (a >>> 16)).toNat <<< 16

theorem lowByte_nat (k : ℕ) : (lowByte (k : ℤ)).toNat = k % 256 := by
  have hland : Int.land (k : ℤ) 0xff = ((k &&& 255 : ℕ) : ℤ) := rfl
  have hmod : k &&& 255 = k % 256 := Nat.and_two_pow_sub_one_eq_mod k 8
  unfold lowByte
  rw [hland, hmod, Int.toNat_natCast, UInt8.toNat_ofNat', Nat.mod_mod]

/-- An address below two to the twenty-four reads back as it was. -/
theorem readAddr_nat (h : k < 2 ^ 24) : readAddr (k : ℤ) = k := by
  have h8 : (k : ℤ) >>> 8 = ((k >>> 8 : ℕ) : ℤ) := rfl
  have h16 : (k : ℤ) >>> 16 = ((k >>> 16 : ℕ) : ℤ) := rfl
  unfold readAddr
  rw [or_bytes₃, h8, h16, lowByte_nat, lowByte_nat, lowByte_nat, Nat.shiftRight_eq_div_pow,
    Nat.shiftRight_eq_div_pow]
  omega

/-- The three bytes of an address, as they are packed. -/
def addrBytes (a : ℤ) : Bytes := [lowByte a, lowByte (a >>> 8), lowByte (a >>> 16)]

theorem getElem?_addrBytes {addr : List ℤ} {j : ℕ} (hk : k < addr.length) (hj : j < 3) :
    (addr.flatMap addrBytes)[k * 3 + j]? = (addrBytes addr[k])[j]? := by
  induction addr generalizing k with
  | nil => simp at hk
  | cons a addr ih =>
    have hlen : (addrBytes a).length = 3 := rfl
    rw [List.flatMap_cons]
    cases k with
    | zero =>
      rw [List.getElem?_append_left (by omega), Nat.zero_mul, Nat.zero_add]
      rfl
    | succ k =>
      rw [List.getElem?_append_right (by omega), hlen,
        show (k + 1) * 3 + j - 3 = k * 3 + j by omega, ih (by simpa using hk)]
      rfl

/-- A packed address is read back in the reader's width. -/
theorem address_packed {addr : List ℤ} (hk : k < addr.length) :
    address (addr.flatMap addrBytes) (k * 3) = .ok (readAddr addr[k]) := by
  have h0 := getElem?_addrBytes (j := 0) hk (by omega)
  have h1 := getElem?_addrBytes (j := 1) hk (by omega)
  have h2 := getElem?_addrBytes (j := 2) hk (by omega)
  rw [Nat.add_zero] at h0
  unfold address
  rw [h0, h1, h2]
  rfl

/-- All the addresses of an inode read back. -/
theorem addresses_packed {addr : List ℤ} (h : addr.length = n) :
    (List.range n).mapM (fun k => address (addr.flatMap addrBytes) (k * 3)) =
      .ok (addr.map readAddr) := by
  have hvals : (List.range n).map (fun k => readAddr (addr.getD k 0)) = addr.map readAddr := by
    refine List.ext_getElem (by rw [List.length_map, List.length_map, List.length_range, h]) ?_
    intro k hk hk'
    rw [List.length_map] at hk'
    rw [List.getElem_map, List.getElem_map, List.getElem_range, List.getD_eq_getElem _ _ hk']
  rw [← hvals]
  refine mapM_ok fun k hk => ?_
  have hk' : k < addr.length := by
    rw [h]
    exact List.mem_range.mp hk
  rw [address_packed hk', List.getD_eq_getElem _ _ hk']

theorem length_addrBytes (addr : List ℤ) : (addr.flatMap addrBytes).length = addr.length * 3 :=
  length_flatMap_const (f := addrBytes) (fun _ => rfl) addr

/-- The reader undoes `pack_inode`, up to the width of the addresses. -/
theorem inode_of_slot (hi : i.addr.length = NADDR) (hn : 1 ≤ n)
    (h : fs.pack_inode i = .ok (slot d n)) :
    S5Reader.inode d n = .ok ⟨i.mode, i.nlink, i.uid, i.gid, i.size, i.addr.map readAddr⟩ := by
  have hN : NADDR = 13 := rfl
  have hlen := length_pack_inode hi h
  have hoff : slice d (2 * BS + n * 64 - 64) 64 = slot d n := by
    unfold slot slotOff
    congr 1
    rw [show BS = BSIZE from rfl]
    omega
  obtain ⟨mode, nlink, uid, gid, size, now, hmode, hnlink, huid, hgid, hsize, _, he⟩ :=
    pack_inode_eq h
  have h1 : mode.length = 2 := Format.length_pack hmode
  have h2 : nlink.length = 2 := Format.length_pack hnlink
  have h3 : uid.length = 2 := Format.length_pack huid
  have h4 : gid.length = 2 := Format.length_pack hgid
  have h5 : size.length = 4 := Format.length_pack hsize
  have h6 := length_addrBytes i.addr
  rw [hi, hN] at h6
  have rmode : fmtH.unpack (slot d n) 0 = .ok i.mode := by
    refine Format.unpack_of_slice hmode (by rw [hlen]; decide) ?_
    rw [he]
    exact slice_head h1
  have rnlink : fmth.unpack (slot d n) 2 = .ok i.nlink := by
    refine Format.unpack_of_slice hnlink (by rw [hlen]; decide) ?_
    rw [he, show (2 : ℕ) = 2 + 0 from rfl, slice_tail h1]
    exact slice_head h2
  have ruid : fmtH.unpack (slot d n) 4 = .ok i.uid := by
    refine Format.unpack_of_slice huid (by rw [hlen]; decide) ?_
    rw [he, show (4 : ℕ) = 2 + (2 + 0) from rfl, slice_tail h1, slice_tail h2]
    exact slice_head h3
  have rgid : fmtH.unpack (slot d n) 6 = .ok i.gid := by
    refine Format.unpack_of_slice hgid (by rw [hlen]; decide) ?_
    rw [he, show (6 : ℕ) = 2 + (2 + (2 + 0)) from rfl, slice_tail h1, slice_tail h2, slice_tail h3]
    exact slice_head h4
  have rsize : fmtI.unpack (slot d n) 8 = .ok i.size := by
    refine Format.unpack_of_slice hsize (by rw [hlen]; decide) ?_
    rw [he, show (8 : ℕ) = 2 + (2 + (2 + (2 + 0))) from rfl, slice_tail h1, slice_tail h2,
      slice_tail h3, slice_tail h4]
    exact slice_head h5
  have raddr : slice (slot d n) 12 39 = i.addr.flatMap addrBytes := by
    rw [he, show (12 : ℕ) = 2 + (2 + (2 + (2 + (4 + 0)))) from rfl, slice_tail h1, slice_tail h2,
      slice_tail h3, slice_tail h4, slice_tail h5, packAddr, pad, List.append_assoc]
    exact slice_head h6
  have rblk : (List.range 13).mapM (fun k => address (slice (slot d n) 12 39) (k * 3)) =
      .ok (i.addr.map readAddr) := by
    rw [raddr]
    exact addresses_packed (hi.trans hN)
  unfold S5Reader.inode
  rw [hoff]
  simp only [rmode, rnlink, ruid, rgid, rsize, rblk]
  rfl

/-! ## Files -/

/-- A padded block of a file, all zeros past its end. -/
def piece (content : Bytes) (j : ℕ) : Bytes := pad BSIZE (slice content (j * BSIZE) BSIZE)

/-- An indirect block of the image reads as its words. -/
theorem ind_eq (hn : n ≠ 0) (hfit : n * BSIZE + BSIZE ≤ d.length) :
    ind d n = .ok ((List.range NINDIR).map (word d n)) := by
  have hB : BSIZE = 1024 := rfl
  have hI : NINDIR = 256 := rfl
  have hblk : blk d n = slice d (n * BSIZE) BSIZE := if_neg hn
  unfold ind
  refine mapM_ok fun k hk => ?_
  have hk' : k < NINDIR := List.mem_range.mp hk
  have hlen : (blk d n).length = BSIZE := by
    rw [hblk]
    exact length_slice hfit
  have hword : slice (blk d n) (k * 4) fmtI.width = slice d (n * BSIZE + k * 4) 4 := by
    rw [hblk, slice_slice _ _ _ _ _ (by rw [show fmtI.width = 4 from rfl]; omega)]
    rfl
  rw [Format.unpack_nat rfl (by rw [hlen, show fmtI.width = 4 from rfl]; omega), hword]
  rfl

/-- The loop over the double-indirect block takes its words up to the first zero. -/
theorem under_eq {ms : List ℕ} {g : ℕ → List ℕ} (z : ℕ)
    (h : ∀ m ∈ ms, m ≠ 0 ∧ ind d m = .ok (g m)) :
    under d (ms ++ List.replicate z 0) = .ok (ms.flatMap fun m => blocks d (g m)) := by
  induction ms with
  | nil =>
    cases z with
    | zero => rfl
    | succ z => exact if_pos rfl
  | cons m ms ih =>
    obtain ⟨hm, hind⟩ := h m List.mem_cons_self
    rw [List.cons_append, under, if_neg hm, hind, ih fun x hx => h x (List.mem_cons_of_mem m hx)]
    rfl

theorem flatMap_range_add {α : Type*} (g : ℕ → List α) (a b : ℕ) :
    (List.range (a + b)).flatMap g =
      (List.range a).flatMap g ++ (List.range b).flatMap fun k => g (a + k) := by
  rw [List.range_add, List.flatMap_append, List.flatMap_map]

theorem flatMap_range_mul {α : Type*} (g : ℕ → List α) (c m : ℕ) :
    (List.range (c * m)).flatMap g =
      (List.range c).flatMap fun q => (List.range m).flatMap fun r => g (q * m + r) := by
  induction c with
  | zero => simp
  | succ c ih =>
    rw [Nat.add_mul, Nat.one_mul, flatMap_range_add, ih, List.range_succ, List.flatMap_append,
      List.flatMap_singleton]

section File

variable (hh : Holds d s content) (hs : s ≠ 0) (hfit : (s + fileCost content) * BSIZE ≤ d.length)

include hh hs

/-- A data address reads as its part of the file, and a zero address as zeros. -/
theorem blk_piece (j : ℕ) :
    blk d (if j < dataCount content then s + j else 0) = piece content j := by
  by_cases hj : j < dataCount content
  · have hne : s + j ≠ 0 := by omega
    rw [if_pos hj]
    exact (if_neg hne).trans (hh.data j hj)
  · have hend : content.length ≤ j * BSIZE :=
      (chunkCount_mul_ge (by decide) content.length).trans
        (Nat.mul_le_mul_right _ (Nat.not_lt.mp hj))
    have hnil : slice content (j * BSIZE) BSIZE = [] := by
      rw [slice, List.drop_of_length_le hend, List.take_nil]
    rw [if_neg hj, piece, hnil]
    exact if_pos rfl

include hfit

omit hh hs in
/-- The blocks of the extent are on the image. -/
theorem extent_fits {j : ℕ} (hj : j < fileCost content) :
    (s + j) * BSIZE + BSIZE ≤ d.length := by
  have hstep : (s + j) * BSIZE + BSIZE = (s + j + 1) * BSIZE := by ring
  rw [hstep]
  exact (Nat.mul_le_mul_right _ (by omega)).trans hfit

/-- What is read through the single-indirect address. -/
theorem single_piece (h : 10 < dataCount content) :
    single d (s + dataCount content) =
      .ok ((List.range NINDIR).flatMap fun k => piece content (10 + k)) := by
  have hcost : dataCount content < fileCost content := by
    by_cases h' : 10 + NINDIR < dataCount content
    · rw [fileCost_double h']
      omega
    · rw [fileCost_single h (by omega)]
      omega
  unfold single
  rw [if_neg (by omega), ind_eq (by omega) (extent_fits hfit hcost)]
  refine congrArg Except.ok ?_
  unfold blocks
  rw [List.flatMap_map]
  refine List.flatMap_congr fun k hk => ?_
  rw [hh.single h k (List.mem_range.mp hk), ← blk_piece hh hs (10 + k)]
  exact congrArg (blk d) (if_congr (by omega) (by omega) rfl)

/-- What is read through the double-indirect address. -/
theorem double_piece (h : 10 + NINDIR < dataCount content) :
    double d (s + dataCount content + 1 + outerCount (dataCount content)) =
      .ok ((List.range (outerCount (dataCount content))).flatMap fun q =>
        (List.range NINDIR).flatMap fun r => piece content (10 + NINDIR + (q * NINDIR + r))) := by
  have hcost := fileCost_double h
  have hle := hh.outer_le
  have hwords : (List.range NINDIR).map
      (word d (s + dataCount content + 1 + outerCount (dataCount content))) =
      (List.range (outerCount (dataCount content))).map (fun k => s + dataCount content + 1 + k) ++
        List.replicate (NINDIR - outerCount (dataCount content)) 0 := by
    refine List.ext_getElem? fun k => ?_
    by_cases hk : k < NINDIR
    · rw [List.getElem?_map, List.getElem?_range hk, Option.map_some, hh.double (by omega) k hk]
      by_cases hko : k < outerCount (dataCount content)
      · rw [if_pos hko, List.getElem?_append_left (by simpa using hko), List.getElem?_map,
          List.getElem?_range hko, Option.map_some]
      · rw [if_neg hko, List.getElem?_append_right (by simpa using Nat.not_lt.mp hko),
          List.getElem?_replicate, if_pos (by rw [List.length_map, List.length_range]; omega)]
    · rw [List.getElem?_eq_none (by simpa using Nat.not_lt.mp hk), List.getElem?_eq_none (by
        rw [List.length_append, List.length_map, List.length_range, List.length_replicate]
        omega)]
  have hlast : s + dataCount content + 1 + outerCount (dataCount content) =
      s + (dataCount content + 1 + outerCount (dataCount content)) := by omega
  have hind : ind d (s + dataCount content + 1 + outerCount (dataCount content)) =
      .ok ((List.range NINDIR).map
        (word d (s + dataCount content + 1 + outerCount (dataCount content)))) := by
    refine ind_eq (by omega) ?_
    rw [hlast]
    exact extent_fits hfit (by omega)
  unfold double
  rw [if_neg (by omega), hind, hwords]
  refine (under_eq (g := fun m => (List.range NINDIR).map (word d m)) _ fun m hm => ?_).trans ?_
  · obtain ⟨q, hq, rfl⟩ := List.mem_map.mp hm
    have hq' := List.mem_range.mp hq
    refine ⟨by omega, ind_eq (by omega) ?_⟩
    rw [show s + dataCount content + 1 + q = s + (dataCount content + 1 + q) by omega]
    exact extent_fits hfit (by omega)
  · refine congrArg Except.ok ?_
    rw [List.flatMap_map]
    refine List.flatMap_congr fun q hq => ?_
    unfold blocks
    rw [List.flatMap_map]
    refine List.flatMap_congr fun r hr => ?_
    rw [hh.outer q (List.mem_range.mp hq) r (List.mem_range.mp hr),
      ← blk_piece hh hs (10 + NINDIR + (q * NINDIR + r))]
    generalize q * NINDIR + r = j
    exact congrArg (blk d) (if_congr (by omega) (by omega) rfl)

/-- The reader finds the contents of a file through the addresses of its inode. -/
theorem data_of_file {di : DiskInode} (hsize : di.size = content.length)
    (hblk : di.blk = (List.range NADDR).map (addrAt s (dataCount content))) :
    S5Reader.data d di = .ok content := by
  have hI : NINDIR = 256 := rfl
  have h10 : di.blk.getD 10 0 = addrAt s (dataCount content) 10 := by rw [hblk]; rfl
  have h11 : di.blk.getD 11 0 = addrAt s (dataCount content) 11 := by rw [hblk]; rfl
  have htake : di.blk.take 10 = (List.range 10).map (addrAt s (dataCount content)) := by
    rw [hblk]
    rfl
  have hdirect : blocks d (di.blk.take 10) = (List.range 10).flatMap (piece content) := by
    unfold blocks
    rw [htake, List.flatMap_map]
    refine List.flatMap_congr fun j hj => ?_
    rw [addrAt_direct _ _ (List.mem_range.mp hj), blk_piece hh hs]
  have hall : ∀ c, content.length ≤ c * BSIZE →
      ((List.range c).flatMap (piece content)).take content.length = content := by
    intro c hc
    have hpieces := flatMap_pad_slices content hc
    unfold piece
    rw [hpieces, take_pad]
  have hcover := chunkCount_mul_ge (k := BSIZE) (by decide) content.length
  have hbound : ∀ c, dataCount content ≤ c → content.length ≤ c * BSIZE :=
    fun c hc => hcover.trans (Nat.mul_le_mul_right _ hc)
  unfold S5Reader.data
  rw [h10, h11, hdirect, hsize, Int.toNat_natCast, addrAt_single, addrAt_double]
  by_cases hn10 : 10 < dataCount content
  · rw [if_pos hn10, single_piece hh hs hfit hn10]
    by_cases hn266 : 10 + NINDIR < dataCount content
    · have hmul := chunkCount_mul_ge (k := NINDIR) (by decide) (dataCount content - 10 - NINDIR)
      have hc := hbound (10 + NINDIR + outerCount (dataCount content) * NINDIR)
        (by unfold outerCount; omega)
      have hsum := hall _ hc
      rw [flatMap_range_add, flatMap_range_add, flatMap_range_mul] at hsum
      rw [if_pos hn266, double_piece hh hs hfit hn266]
      exact congrArg Except.ok hsum
    · have hsum := hall (10 + NINDIR) (hbound _ (by omega))
      rw [flatMap_range_add] at hsum
      rw [if_neg hn266]
      refine congrArg Except.ok ?_
      rw [List.append_nil]
      exact hsum
  · have hsum := hall 10 (hbound _ (by omega))
    rw [if_neg hn10, if_neg (by omega)]
    refine congrArg Except.ok ?_
    rw [List.append_nil, List.append_nil]
    exact hsum

end File

end Sys16.MkfsRead
