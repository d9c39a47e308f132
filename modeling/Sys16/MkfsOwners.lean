import Sys16.MkfsInodes

/-!
# The owners of the blocks

The blocks that an inode reaches: the data blocks under its direct, single-
and double-indirect addresses, as many as its size needs, and its indirect
blocks. The files of a build reach every block from the first data block to
the next free one, each block once.
-/

namespace Sys16.MkfsOwners

open ByteStore PyText PyStruct HostWalk Extents MkfsImage MkfsBlocks MkfsBuild MkfsActs MkfsWalk
open MkfsFinish
open MkfsLedger MkfsInodes

variable {b : Build} {fs : Fs} {d : Bytes} {i : Inode} {s n j k : ℕ} {content : Bytes}

/-! ## The addresses of a file -/

/-- The thirteen addresses of a file of `n` data blocks at block `s`. -/
def addrAt (s n j : ℕ) : ℕ :=
  if j < 10 then if j < n then s + j else 0
  else if j = 10 then if 10 < n then s + n else 0
  else if j = 11 then if 10 + NINDIR < n then s + n + 1 + outerCount n else 0
  else 0

/-- The first ten slots address the first ten data blocks. -/
theorem addrAt_direct (s n : ℕ) (hj : j < 10) : addrAt s n j = if j < n then s + j else 0 :=
  if_pos hj

/-- Slot 10 addresses the single indirect block. -/
theorem addrAt_single (s n : ℕ) : addrAt s n 10 = if 10 < n then s + n else 0 := rfl

/-- Slot 11 addresses the double indirect block. -/
theorem addrAt_double (s n : ℕ) :
    addrAt s n 11 = if 10 + NINDIR < n then s + n + 1 + outerCount n else 0 := rfl

/-- An address list after setting its first slots. -/
theorem getElem?_setAddrs (addr : List ℤ) (blocks : List ℕ) (j : ℕ) :
    (setAddrs addr blocks)[j]? =
      if j < blocks.length then (blocks[j]?).map fun k : ℕ => (k : ℤ) else addr[j]? := by
  unfold setAddrs
  by_cases hj : j < blocks.length
  · rw [if_pos hj, List.getElem?_append_left (by rwa [List.length_map]), List.getElem?_map]
  · rw [if_neg hj, List.getElem?_append_right (by rw [List.length_map]; omega), List.length_map,
      List.getElem?_drop]
    congr 1
    omega

/-- A blank address list is thirteen zeros. -/
theorem getElem?_noAddr (j : ℕ) : noAddr[j]? = if j < NADDR then some 0 else none := by
  unfold noAddr
  rw [List.getElem?_replicate]

/-- The direct addresses of a file. -/
theorem direct_addrs (s n j : ℕ) :
    (setAddrs noAddr (List.range' s (min 10 n)))[j]? =
      if j < min 10 n then some ((s + j : ℕ) : ℤ) else if j < NADDR then some 0 else none := by
  rw [getElem?_setAddrs, List.length_range', getElem?_noAddr]
  by_cases hj : j < min 10 n
  · rw [if_pos hj, if_pos hj, List.getElem?_range' hj, Option.map_some, Nat.one_mul]
  · rw [if_neg hj, if_neg hj]

/-- The indirect addresses come after the direct ones. -/
theorem getElem?_fileAddr (s n j : ℕ) :
    (fileAddr s n noAddr)[j]? =
      if j = 11 ∧ 10 + NINDIR < n then some ((s + n + 1 + outerCount n : ℕ) : ℤ)
      else if j = 10 ∧ 10 < n then some ((s + n : ℕ) : ℤ)
      else (setAddrs noAddr (List.range' s (min 10 n)))[j]? := by
  have hset : (setAddrs noAddr (List.range' s (min 10 n))).length = 13 :=
    length_setAddrs (by rw [List.length_range']; exact Nat.le_trans (Nat.min_le_left 10 n) (by decide))
  unfold fileAddr
  dsimp only
  by_cases h1 : n - 10 = 0
  · rw [if_pos h1, if_neg (by omega), if_neg (by omega)]
  rw [if_neg h1]
  by_cases h2 : n - 10 - NINDIR = 0
  · rw [if_pos h2, if_neg (by omega), List.getElem?_set]
    by_cases h10 : j = 10
    · rw [if_pos h10.symm, if_pos (by omega), if_pos ⟨h10, by omega⟩]
    · rw [if_neg (Ne.symm h10), if_neg fun h => h10 h.1]
  · rw [if_neg h2, List.getElem?_set, List.getElem?_set, List.length_set]
    by_cases h11 : j = 11
    · rw [if_pos h11.symm, if_pos (by omega), if_pos ⟨h11, by omega⟩]
    · rw [if_neg (Ne.symm h11), if_neg fun h : j = 11 ∧ 10 + NINDIR < n => h11 h.1]
      by_cases h10 : j = 10
      · rw [if_pos h10.symm, if_pos (by omega), if_pos ⟨h10, by omega⟩]
      · rw [if_neg (Ne.symm h10), if_neg fun h => h10 h.1]

/-- A file's address list slot by slot. -/
theorem fileAddr_eq (s n : ℕ) :
    fileAddr s n noAddr = (List.range NADDR).map fun j => ((addrAt s n j : ℕ) : ℤ) := by
  have hN : NADDR = 13 := rfl
  refine List.ext_getElem? fun j => ?_
  rw [getElem?_fileAddr, direct_addrs, List.getElem?_map]
  by_cases hj : j < NADDR
  · rw [List.getElem?_range hj, Option.map_some]
    unfold addrAt
    by_cases h10 : j < 10
    · rw [if_neg (by omega), if_neg (by omega), if_pos h10]
      by_cases hn : j < n
      · rw [if_pos (by omega), if_pos hn]
      · rw [if_neg (by omega), if_pos hj, if_neg hn]
        rfl
    rw [if_neg h10, if_neg (by omega : ¬j < min 10 n), if_pos hj]
    by_cases hten : j = 10
    · by_cases hn : 10 < n
      · rw [if_neg (by omega), if_pos ⟨hten, hn⟩, if_pos hten, if_pos hn]
      · rw [if_neg (by omega), if_neg (by omega), if_pos hten, if_neg hn]
        rfl
    rw [if_neg hten, if_neg fun h : j = 10 ∧ 10 < n => hten h.1]
    by_cases heleven : j = 11
    · by_cases hn : 10 + NINDIR < n
      · rw [if_pos ⟨heleven, hn⟩, if_pos heleven, if_pos hn]
      · rw [if_neg fun h => hn h.2, if_pos heleven, if_neg hn]
        rfl
    · rw [if_neg fun h => heleven h.1, if_neg heleven]
      rfl
  · rw [List.getElem?_eq_none (by simpa using hj), if_neg (by omega), if_neg (by omega),
      if_neg (by omega), if_neg hj]
    rfl

/-! ## The blocks an inode reaches -/

/-- The data blocks that the size of an inode needs. -/
def blockCount (i : Inode) : ℕ := chunkCount BSIZE i.size

/-- An address of an inode. -/
def addrOf (i : Inode) (j : ℕ) : ℕ := (i.addr.getD j 0).toNat

/-- The data block at a position of a file: through a direct address, the
single-indirect block, or the double-indirect block and one under it. -/
def dataBlock (d : Bytes) (i : Inode) (j : ℕ) : ℕ :=
  if j < 10 then addrOf i j
  else if j < 10 + NINDIR then word d (addrOf i 10) (j - 10)
  else word d (word d (addrOf i 11) ((j - 10 - NINDIR) / NINDIR)) ((j - 10 - NINDIR) % NINDIR)

/-- The blocks under the double-indirect block, as many as the size needs. -/
def outerBlocks (d : Bytes) (i : Inode) : List ℕ :=
  (List.range (chunkCount NINDIR (blockCount i - 10 - NINDIR))).map (word d (addrOf i 11))

/-- The indirect blocks of an inode. -/
def indirectBlocks (d : Bytes) (i : Inode) : List ℕ :=
  (if 10 < blockCount i then [addrOf i 10] else []) ++
    if 10 + NINDIR < blockCount i then outerBlocks d i ++ [addrOf i 11] else []

/-- All the blocks of an inode. -/
def reached (d : Bytes) (i : Inode) : List ℕ :=
  (List.range (blockCount i)).map (dataBlock d i) ++ indirectBlocks d i

/-- The blocks that the inodes passed to `store_data` reach on the image. -/
def owned (fs : Fs) : List ℕ :=
  fs.stored.flatMap fun x => ((fs.inodes x.1).map (reached fs.data)).getD []

/-- The inode of a file holds the address of each slot. -/
theorem addrOf_eq (h : FileInode i s content) (hj : j < NADDR) :
    addrOf i j = addrAt s (dataCount content) j := by
  unfold addrOf
  rw [h.2, fileAddr_eq, List.getD_eq_getElem?_getD, List.getElem?_map, List.getElem?_range hj]
  rfl

/-- The inode of a file counts its data blocks. -/
theorem blockCount_eq (h : FileInode i s content) : blockCount i = dataCount content := by
  unfold blockCount
  rw [h.1]
  rfl

/-- A block under the double-indirect one. -/
theorem outer_word (hh : Holds d s content) (h : FileInode i s content)
    (hk : k < outerCount (dataCount content)) :
    word d (addrOf i 11) k = s + dataCount content + 1 + k := by
  have hpos : 0 < dataCount content - 10 - NINDIR :=
    (chunkCount_pos (show 0 < NINDIR by decide)).mp (Nat.lt_of_le_of_lt (Nat.zero_le _) hk)
  have haddr : addrAt s (dataCount content) 11 =
      s + dataCount content + 1 + outerCount (dataCount content) := by
    rw [addrAt_double, if_pos (by omega)]
  rw [addrOf_eq h (by decide), haddr,
    hh.double hpos k (Nat.lt_of_lt_of_le hk hh.outer_le), if_pos hk]

/-- The data blocks of a file are consecutive. -/
theorem dataBlock_eq (hh : Holds d s content) (h : FileInode i s content)
    (hj : j < dataCount content) : dataBlock d i j = s + j := by
  have hI : NINDIR = 256 := rfl
  have hN : NADDR = 13 := rfl
  unfold dataBlock
  by_cases h10 : j < 10
  · rw [if_pos h10, addrOf_eq h (by omega), addrAt_direct _ _ h10, if_pos hj]
  · rw [if_neg h10]
    by_cases h266 : j < 10 + NINDIR
    · have haddr : addrAt s (dataCount content) 10 = s + dataCount content := by
        unfold addrAt
        rw [if_neg (by omega), if_pos rfl, if_pos (by omega)]
      rw [if_pos h266, addrOf_eq h (by omega), haddr, hh.single (by omega) (j - 10) (by omega),
        if_pos (by omega)]
      omega
    · have hmod := Nat.mod_lt (j - 10 - NINDIR) (show 0 < NINDIR by decide)
      have hdiv := Nat.div_add_mod (j - 10 - NINDIR) NINDIR
      have hq : (j - 10 - NINDIR) / NINDIR < outerCount (dataCount content) := by
        unfold outerCount chunkCount
        rw [hI]
        omega
      rw [if_neg h266, outer_word hh h hq, hh.outer _ hq _ hmod, if_pos (by rw [hI] at *; omega)]
      rw [hI] at *
      omega

/-- A file of at most ten blocks costs its data. -/
theorem fileCost_direct (h : dataCount content ≤ 10) : fileCost content = dataCount content := by
  unfold fileCost
  dsimp only
  rw [if_pos (by omega), Nat.add_zero]

/-- A file within the single indirect block costs one block more. -/
theorem fileCost_single (h : 10 < dataCount content) (h' : dataCount content ≤ 10 + NINDIR) :
    fileCost content = dataCount content + 1 := by
  unfold fileCost
  dsimp only
  rw [if_neg (by omega), if_pos (by omega)]

/-- A larger file costs the tables of both levels. -/
theorem fileCost_double (h : 10 + NINDIR < dataCount content) :
    fileCost content = dataCount content + (1 + (outerCount (dataCount content) + 1)) := by
  unfold fileCost
  dsimp only
  rw [if_neg (by omega), if_neg (by omega)]

/-- A file on the image reaches the blocks of its extent, each once. -/
theorem reached_perm (hh : Holds d s content) (h : FileInode i s content) :
    (reached d i).Perm (List.range' s (fileCost content)) := by
  have hN : NADDR = 13 := rfl
  have hdata : (List.range (blockCount i)).map (dataBlock d i) =
      List.range' s (dataCount content) := by
    rw [blockCount_eq h, List.range'_eq_map_range]
    exact List.map_congr_left fun j hj => dataBlock_eq hh h (List.mem_range.mp hj)
  have hsingle : 10 < dataCount content → addrOf i 10 = s + dataCount content := by
    intro h10
    rw [addrOf_eq h (by omega), addrAt_single, if_pos h10]
  unfold reached indirectBlocks
  rw [hdata, blockCount_eq h]
  by_cases h10 : 10 < dataCount content
  · rw [if_pos h10, hsingle h10]
    by_cases h266 : 10 + NINDIR < dataCount content
    · have hdouble : addrOf i 11 =
          s + dataCount content + 1 + outerCount (dataCount content) := by
        rw [addrOf_eq h (by omega), addrAt_double, if_pos h266]
      have houter : outerBlocks d i =
          List.range' (s + dataCount content + 1) (outerCount (dataCount content)) := by
        unfold outerBlocks
        rw [blockCount_eq h, List.range'_eq_map_range]
        exact List.map_congr_left fun k hk => outer_word hh h (List.mem_range.mp hk)
      have hlast := List.range'_append_1 (s := s + dataCount content + 1)
        (m := outerCount (dataCount content)) (n := 1)
      have hfirst := List.range'_append_1 (s := s + dataCount content) (m := 1)
        (n := outerCount (dataCount content) + 1)
      have hall := List.range'_append_1 (s := s) (m := dataCount content)
        (n := 1 + (outerCount (dataCount content) + 1))
      rw [if_pos h266, houter, hdouble, fileCost_double h266, ← hall, ← hfirst, ← hlast]
      exact List.Perm.refl _
    · have hall := List.range'_append_1 (s := s) (m := dataCount content) (n := 1)
      rw [if_neg h266, fileCost_single h10 (by omega), ← hall]
      exact List.Perm.refl _
  · rw [if_neg h10, if_neg (by omega), fileCost_direct (by omega)]
    simp

/-! ## The owners of a build's blocks -/

/-- The blocks owned on an image that keeps the ledger's blocks are the
allocated ones, each once. -/
theorem owned_perm (h : Ledger fs)
    (hb : ∀ k, fs.first_data ≤ k → k < fs.next_block → blockOf d k = blockOf fs.data k) :
    (fs.stored.flatMap fun x => ((fs.inodes x.1).map (reached d)).getD []).Perm
      (List.range' fs.first_data (total callCost fs.stored)) := by
  have hfiles : ∀ x ∈ extents fs, (((fs.inodes x.2.1).map (reached d)).getD []).Perm
      (List.range' x.1 (callCost x.2)) := by
    rintro ⟨s, ino, content⟩ hx
    obtain ⟨i, hi, hfile⟩ := h.inode s ino content hx
    obtain ⟨hfirst, hlast⟩ := layout_bounds hx
    have hlast' : s + fileCost content ≤ fs.next_block := by
      rw [h.next]
      exact hlast
    have hheld := (h.held s ino content hx).congr fun k hk hk' => hb k (by omega) (by omega)
    dsimp only
    rw [hi]
    exact reached_perm hheld hfile
  have hstored : fs.stored.flatMap (fun x => ((fs.inodes x.1).map (reached d)).getD []) =
      (extents fs).flatMap fun x => ((fs.inodes x.2.1).map (reached d)).getD [] := by
    rw [← map_snd_layout callCost fs.first_data fs.stored, List.flatMap_map]
    rfl
  rw [hstored, ← flatMap_layout]
  exact List.Perm.flatMap_left _ hfiles

/-- In every build that completes, the blocks that the stored files and
directories reach are pairwise distinct and are those between the first data
block, which follows the i-list, and the next free block. -/
theorem one_owner {limit nblocks ninodes : ℕ} {now : ℤ} {tree : Option HostTree}
    {spec : List Str} (h : build limit (Fs.init now nblocks ninodes) tree spec = .ok b) :
    (owned b.fs).Nodup ∧
      (∀ k, k ∈ owned b.fs ↔ b.fs.first_data ≤ k ∧ k < b.fs.next_block) ∧
      b.fs.first_data = 2 + b.fs.iblocks ∧ b.fs.next_block ≤ b.fs.nblocks ∧
      (b.fs.stored.map Prod.fst).Nodup ∧
      ∀ x ∈ b.fs.stored, (b.fs.inodes x.1).isSome := by
  obtain ⟨b₂, fs₁, ws, hw⟩ := build_written (allNames_true spec) h
  have hledger := hw.ledger
  have hinodes := hw.same.inodes
  have hstored := hw.same.stored
  have hnext := hw.same.next_block
  have hshape := hw.same.shaped
  have hfirst : b.fs.first_data = fs₁.first_data := hshape.first_data
  have hperm : (owned b.fs).Perm
      (List.range' b.fs.first_data (b.fs.next_block - b.fs.first_data)) := by
    have hcount : b.fs.next_block - b.fs.first_data = total callCost fs₁.stored := by
      rw [hnext, hfirst, hledger.next]
      omega
    unfold owned
    rw [hcount, hstored, hinodes, hfirst]
    exact owned_perm hledger hw.image.blocks
  have hle : b.fs.first_data ≤ b.fs.next_block := by
    rw [hfirst, hnext, hledger.next]
    exact Nat.le_add_right _ _
  refine ⟨hperm.nodup_iff.mpr List.nodup_range', fun k => ?_, ?_, ?_, ?_, fun x hx => ?_⟩
  · rw [hperm.mem_iff, List.mem_range'_1]
    omega
  · rw [hfirst, hshape.iblocks]
    exact hw.ilist.first_data
  · rw [hnext, hshape.nblocks]
    exact hledger.fresh.room
  · rw [hstored]
    exact hledger.nodup
  · rw [hstored] at hx
    obtain ⟨s, hs⟩ := exists_mem_layout callCost hx fs₁.first_data
    obtain ⟨i, hi, _⟩ := hledger.inode s x.1 x.2 hs
    rw [hinodes, hi]
    rfl

/-- A tree with a file of two blocks, and a directory from a spec line. -/
def twoBlocks : HostTree where
  top := .file ⟨str "f", false, false, List.replicate 1025 7⟩ .empty
  wellFormed := by
    refine ⟨⟨?_, ?_, ?_, ?_, ?_⟩, ?_, trivial⟩ <;> decide

/-- The file and the two directories reach the four blocks after the i-list. -/
theorem one_owner_two_blocks :
    ∃ b, build 9 (Fs.init 0 40 16) (some twoBlocks) [str "dir /d 0755"] = .ok b ∧
      (owned b.fs).Nodup ∧ ∀ k, k ∈ owned b.fs ↔ b.fs.first_data ≤ k ∧ k < b.fs.next_block := by
  obtain ⟨b, hb⟩ := exists_of_isOk (x := build 9 (Fs.init 0 40 16) (some twoBlocks)
    [str "dir /d 0755"]) (by decide +kernel)
  exact ⟨b, hb, (one_owner hb).1, (one_owner hb).2.1⟩

end Sys16.MkfsOwners
