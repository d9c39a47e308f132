import Sys16.MkfsAccounting
import Sys16.MkfsInodes
import Sys16.MkfsSuperblock

/-!
# When an image can be written out

`struct` packs a number only when its field has room for it. Here is what that
means for a directory, for the i-list, for the free list and for the
superblock.
-/

namespace Sys16.MkfsPacking

open ByteStore PyText PyStruct MkfsImage MkfsBlocks MkfsBuild MkfsAccounting MkfsFinish
open MkfsSuperblock

variable {fs fs' : Fs} {f : Format} {x : ℤ} {n : ℕ} {name : Str} {ents : List Entry} {i : Inode}

/-! ## Numbers -/

/-- A format packs the numbers of its range and refuses all others. -/
theorem pack_completes : (∃ b, f.pack x = .ok b) ↔ f.low ≤ x ∧ x < f.low + 256 ^ f.width := by
  constructor
  · rintro ⟨b, hb⟩
    exact Format.pack_range hb
  · intro h
    unfold Format.pack
    rw [if_pos h]
    exact ⟨_, rfl⟩

/-- `H` takes what sixteen bits hold. -/
theorem packH_completes : (∃ b, fmtH.pack x = .ok b) ↔ 0 ≤ x ∧ x < 2 ^ 16 := by
  rw [pack_completes]
  exact and_congr Iff.rfl (by rw [show fmtH.low + 256 ^ fmtH.width = 2 ^ 16 from rfl])

/-- `h` of a count takes what fifteen bits hold. -/
theorem packh_completes : (∃ b, fmth.pack n = .ok b) ↔ n < 2 ^ 15 := by
  rw [pack_completes, show fmth.low = -2 ^ 15 from rfl,
    show (256 : ℤ) ^ fmth.width = 2 ^ 16 from rfl]
  omega

/-- `I` takes what thirty-two bits hold. -/
theorem packI_completes : (∃ b, fmtI.pack x = .ok b) ↔ 0 ≤ x ∧ x < 2 ^ 32 := by
  rw [pack_completes]
  exact and_congr Iff.rfl (by rw [show fmtI.low + 256 ^ fmtI.width = 2 ^ 32 from rfl])

/-- A count only has the upper bound of `I` to meet. -/
theorem packI_nat_completes : (∃ b, fmtI.pack n = .ok b) ↔ n < 2 ^ 32 := by
  rw [packI_completes]
  omega

/-- And likewise that of `H`. -/
theorem packH_nat_completes : (∃ b, fmtH.pack n = .ok b) ↔ n < 2 ^ 16 := by
  rw [packH_completes]
  omega

/-! ## Directories -/

/-- A name that a directory entry has room for. -/
def NameFits (name : Str) : Prop := name.length ≤ DIRSIZ ∧ ∀ c ∈ name, c < 256

/-- Latin-1 encodes just the characters below 256. -/
theorem encodeLatin1_completes : (∃ b, encodeLatin1 name = .ok b) ↔ ∀ c ∈ name, c < 256 := by
  unfold encodeLatin1
  rw [mapM_completes]
  refine forall₂_congr fun c _ => ?_
  split
  · next h => exact iff_of_true ⟨_, rfl⟩ h
  · next h => exact iff_of_false nofun h

/-- An entry can be packed when its name fits and its inode number has sixteen bits. -/
theorem dirent_completes : (∃ e, dirent n name = .ok e) ↔ NameFits name ∧ n < 2 ^ 16 := by
  unfold dirent NameFits
  have hrest : ∀ nm, encodeLatin1 name = .ok nm →
      ((∃ e, (if DIRSIZ < nm.length then .error (.exit (str "name too long: " ++ name))
        else fmtH.pack n >>= fun k => pure (k ++ pad DIRSIZ nm)) = Except.ok e) ↔
      name.length ≤ DIRSIZ ∧ n < 2 ^ 16) := by
    intro nm hnm
    rw [(mapM_eq_ok.mp hnm).length_eq]
    split
    · next h => exact iff_of_false nofun fun hlen => by omega
    · next h =>
      rw [and_iff_right (by omega), ← packH_nat_completes]
      exact bind_completes_of_forall fun _ _ => ⟨_, rfl⟩
  refine (bind_completes encodeLatin1_completes hrest).trans ?_
  constructor
  · rintro ⟨hc, hlen, hn⟩
    exact ⟨⟨hlen, hc⟩, hn⟩
  · rintro ⟨⟨hlen, hc⟩, hn⟩
    exact ⟨hc, hlen, hn⟩

/-- A directory can be packed when each of its entries can. -/
theorem dirBlob_completes :
    (∃ blob, dirBlob ents = .ok blob) ↔ ∀ e ∈ ents, NameFits e.2 ∧ e.1 < 2 ^ 16 := by
  unfold dirBlob
  have hmap : (∃ blob, (List.flatten <$> ents.mapM fun e => dirent e.1 e.2) = .ok blob) ↔
      ∃ blobs, (ents.mapM fun e => dirent e.1 e.2) = .ok blobs := by
    constructor
    · rintro ⟨blob, h⟩
      obtain ⟨blobs, hblobs, _⟩ := map_eq_ok.mp h
      exact ⟨blobs, hblobs⟩
    · rintro ⟨blobs, h⟩
      exact ⟨_, map_eq_ok.mpr ⟨blobs, h, rfl⟩⟩
  rw [hmap, mapM_completes]
  exact forall₂_congr fun e _ => dirent_completes

/-! ## Inodes -/

/-- The fields of an inode that its slot has room for. -/
structure InodeFits (i : Inode) : Prop where
  mode : 0 ≤ i.mode ∧ i.mode < 2 ^ 16
  nlink : i.nlink < 2 ^ 15
  uid : i.uid < 2 ^ 16
  gid : i.gid < 2 ^ 16
  size : i.size < 2 ^ 32

/-- An inode can be packed when its fields fit and the time has thirty-two bits. -/
theorem pack_inode_completes : (∃ blob, fs.pack_inode i = .ok blob) ↔
    InodeFits i ∧ 0 ≤ fs.now ∧ fs.now < 2 ^ 32 := by
  constructor
  · rintro ⟨blob, h⟩
    obtain ⟨mode, nlink, uid, gid, size, now, hmode, hnlink, huid, hgid, hsize, hnow, _⟩ :=
      MkfsInodes.pack_inode_eq h
    exact ⟨⟨packH_completes.mp ⟨_, hmode⟩, packh_completes.mp ⟨_, hnlink⟩,
      packH_nat_completes.mp ⟨_, huid⟩, packH_nat_completes.mp ⟨_, hgid⟩,
      packI_nat_completes.mp ⟨_, hsize⟩⟩, packI_completes.mp ⟨_, hnow⟩⟩
  · rintro ⟨h, hnow⟩
    obtain ⟨mode, hmode⟩ := packH_completes.mpr h.mode
    obtain ⟨nlink, hnlink⟩ := packh_completes.mpr h.nlink
    obtain ⟨uid, huid⟩ := packH_nat_completes.mpr h.uid
    obtain ⟨gid, hgid⟩ := packH_nat_completes.mpr h.gid
    obtain ⟨size, hsize⟩ := packI_nat_completes.mpr h.size
    obtain ⟨now, hnow⟩ := packI_completes.mpr hnow
    unfold Fs.pack_inode
    rw [hmode, hnlink, huid, hgid, hsize, hnow]
    exact ⟨_, rfl⟩

/-- The i-list is written out when every inode in it fits, and so does the time
unless there is none. -/
theorem write_inodes_completes : (∃ fs', fs.write_inodes = .ok fs') ↔
    ∀ n i, 1 ≤ n → n ≤ fs.ninodes → fs.inodes n = some i →
      InodeFits i ∧ 0 ≤ fs.now ∧ fs.now < 2 ^ 32 := by
  unfold Fs.write_inodes
  refine (bind_completes_of_forall fun _ _ => ⟨_, rfl⟩).trans ?_
  rw [mapM_completes]
  constructor
  · intro h n i h1 hn hi
    obtain ⟨w, hw⟩ := h n (List.mem_range'_1.mpr ⟨h1, by omega⟩)
    unfold Fs.inodeWrite at hw
    rw [hi] at hw
    obtain ⟨blob, hblob, _⟩ := bind_eq_ok.mp hw
    exact pack_inode_completes.mp ⟨blob, hblob⟩
  · intro h n hn
    obtain ⟨h1, hlt⟩ := List.mem_range'_1.mp hn
    unfold Fs.inodeWrite
    cases hi : fs.inodes n with
    | none => exact ⟨_, rfl⟩
    | some i =>
      obtain ⟨blob, hblob⟩ := pack_inode_completes.mpr (h n i h1 (by omega) hi)
      exact ⟨_, bind_eq_ok.mpr ⟨blob, hblob, rfl⟩⟩

/-! ## The free list -/

/-- A stack of free blocks whose numbers fit. -/
structure Stacked (fs : Fs) : Prop where
  count : fs.nfree ≤ NICFREE
  length : fs.free.length = NICFREE
  numbers : ∀ b ∈ fs.free, b < 2 ^ 32

/-- A full free list can always be spilled, and has room afterwards. -/
theorem spill_completes (h : Stacked fs) (k : ℕ) :
    ∃ fs', fs.spill k = .ok fs' ∧ fs'.nfree < NICFREE ∧ fs'.free = fs.free ∧
      fs'.tfree = fs.tfree := by
  unfold Fs.spill
  by_cases hfull : fs.nfree = NICFREE
  · rw [if_pos hfull]
    obtain ⟨count, hcount⟩ : ∃ c, fmti.pack fs.nfree = .ok c := by
      rw [hfull]
      exact ⟨_, rfl⟩
    obtain ⟨words, hwords⟩ := packWords_completes.mpr h.numbers
    have hlen : (count ++ words).length ≤ BSIZE := by
      rw [(packWords_eq hwords).1, List.length_append, Format.length_pack hcount,
        length_wordBytes, h.length]
      decide
    obtain ⟨fs₁, hput⟩ := put_completes fs k (length_pad hlen).le
    obtain ⟨_, rfl⟩ := put_eq hput
    refine ⟨_, bind_eq_ok.mpr ⟨count, hcount, bind_eq_ok.mpr ⟨words, hwords,
      bind_eq_ok.mpr ⟨_, hput, rfl⟩⟩⟩, ?_, rfl, rfl⟩
    exact (by decide : 0 < NICFREE)
  · rw [if_neg hfull]
    have hle := h.count
    exact ⟨fs, rfl, by omega, rfl, rfl⟩

/-- A block with a number of thirty-two bits can be freed. -/
theorem bfree_completes (h : Stacked fs) {k : ℕ} (hk : k < 2 ^ 32) :
    ∃ fs', fs.bfree k = .ok fs' ∧ Stacked fs' ∧ fs'.tfree = fs.tfree := by
  obtain ⟨fs₁, hspill, hroom, hfree, htfree⟩ := spill_completes h k
  refine ⟨_, bind_eq_ok.mpr ⟨fs₁, hspill, rfl⟩, ⟨hroom, ?_, fun b hb => ?_⟩, htfree⟩
  · rw [List.length_set, hfree]
    exact h.length
  · rcases List.mem_or_eq_of_mem_set hb with hb | rfl
    · exact h.numbers b (hfree ▸ hb)
    · exact hk

/-- So can a list of them, each of which is counted. -/
theorem bfreeAll_completes {bs : List ℕ} (h : Stacked fs) (hbs : ∀ b ∈ bs, b < 2 ^ 32) :
    ∃ fs', fs.bfreeAll bs = .ok fs' ∧ Stacked fs' ∧ fs'.tfree = fs.tfree + bs.length := by
  induction bs generalizing fs with
  | nil => exact ⟨fs, rfl, h, rfl⟩
  | cons b bs ih =>
    obtain ⟨fs₁, hone, hst, htfree⟩ := bfree_completes h (hbs b List.mem_cons_self)
    have hst₁ : Stacked { fs₁ with tfree := fs₁.tfree + 1 } := ⟨hst.count, hst.length, hst.numbers⟩
    obtain ⟨fs', hrest, hend, hcount⟩ := ih hst₁ fun c hc => hbs c (List.mem_cons_of_mem b hc)
    refine ⟨fs', bind_eq_ok.mpr ⟨fs₁, hone, hrest⟩, hend, ?_⟩
    rw [hcount, List.length_cons]
    dsimp only
    omega

/-- The free list is built on any image whose block numbers fit. -/
theorem build_free_list_completes (hs : fs.nblocks ≤ 2 ^ 32) :
    ∃ fs', fs.build_free_list = .ok fs' ∧ Stacked fs' ∧
      fs'.tfree = fs.nblocks - fs.next_block := by
  have hempty : Stacked { fs with nfree := 0, free := List.replicate NICFREE 0, tfree := 0 } := by
    refine ⟨Nat.zero_le _, List.length_replicate, fun b hb => ?_⟩
    rw [List.eq_of_mem_replicate hb]
    decide
  obtain ⟨fs₁, hzero, hst, htfree⟩ := bfree_completes hempty (k := 0) (by decide)
  have hnumbers : ∀ b ∈ (List.range' fs.next_block (fs.nblocks - fs.next_block)).reverse,
      b < 2 ^ 32 := by
    intro b hb
    rw [List.mem_reverse, List.mem_range'_1] at hb
    omega
  obtain ⟨fs', hall, hend, hcount⟩ := bfreeAll_completes hst hnumbers
  refine ⟨fs', bind_eq_ok.mpr ⟨fs₁, hzero, ?_⟩, hend, ?_⟩
  · have hsame := bfree_same hzero
    rw [hsame.next_block, show fs₁.nblocks = fs.nblocks by rw [hsame]]
    exact hall
  · rw [hcount, htfree, List.length_reverse, List.length_range']
    exact Nat.zero_add _

/-! ## The superblock -/

/-- The numbers that a superblock has room for. -/
structure SuperFits (fs : Fs) : Prop where
  isize : fs.iblocks + 2 < 2 ^ 16
  fsize : fs.nblocks < 2 ^ 32
  inodes : ∀ n ∈ fs.free_ino, n < 2 ^ 16
  time : 0 ≤ fs.now ∧ fs.now < 2 ^ 32
  tinode : (0 : ℤ) ≤ fs.ninodes - fs.next_ino + 1 ∧ (fs.ninodes - fs.next_ino + 1 : ℤ) < 2 ^ 16

/-- A field of the superblock is packed when its number is. -/
theorem packField_completes {g : Field} :
    (∃ w, packField g = .ok w) ↔ ∃ b, g.2.1.pack g.2.2 = .ok b := by
  constructor
  · rintro ⟨w, h⟩
    exact ⟨_, (packField_eq h).2⟩
  · rintro ⟨b, hb⟩
    exact ⟨_, map_eq_ok.mpr ⟨b, hb, rfl⟩⟩

/-- An array of fields is packed when each of its numbers is. -/
theorem arrayFields_completes {off : ℕ} {l : List ℕ} :
    (∀ g ∈ arrayFields off f l, ∃ b, g.2.1.pack g.2.2 = .ok b) ↔
      ∀ n ∈ l, ∃ b, f.pack n = .ok b := by
  unfold arrayFields
  constructor
  · intro h n hn
    obtain ⟨k, hk, rfl⟩ := List.getElem_of_mem hn
    exact h _ (List.mem_mapIdx.mpr ⟨k, hk, rfl⟩)
  · intro h g hg
    obtain ⟨k, hk, rfl⟩ := List.mem_mapIdx.mp hg
    exact h _ (List.getElem_mem hk)

/-- The superblock is written when its numbers fit. -/
theorem write_superblock_completes (h : Stacked fs) (ht : fs.tfree ≤ fs.nblocks) :
    (∃ fs', fs.write_superblock = .ok fs') ↔ SuperFits fs := by
  have hfields : (∃ ws, fs.superFields.mapM packField = .ok ws) ↔ SuperFits fs := by
    rw [mapM_completes, superFields_eq]
    simp only [packField_completes, List.forall_mem_append, List.forall_mem_cons,
      arrayFields_completes]
    constructor
    · rintro ⟨⟨⟨⟨⟨hisize, hfsize, _⟩, _⟩, _⟩, hinodes⟩, htime, _, htinode, _⟩
      have hisize' := packH_completes.mp hisize
      exact ⟨by omega, packI_nat_completes.mp hfsize,
        fun n hn => packH_nat_completes.mp (hinodes n hn), packI_completes.mp htime,
        packH_completes.mp htinode⟩
    · intro hf
      have hisize : (0 : ℤ) ≤ fs.iblocks + 2 ∧ (fs.iblocks + 2 : ℤ) < 2 ^ 16 := by
        have hlt := hf.isize
        omega
      have hcount := length_free_ino fs
      exact ⟨⟨⟨⟨⟨packH_completes.mpr hisize, packI_nat_completes.mpr hf.fsize,
        packh_completes.mpr (h.count.trans_lt (by decide)), List.forall_mem_nil _⟩,
        fun n hn => packI_nat_completes.mpr (h.numbers n hn)⟩,
        packh_completes.mpr (hcount.trans_lt (by decide)), List.forall_mem_nil _⟩,
        fun n hn => packH_nat_completes.mpr (hf.inodes n hn)⟩,
        packI_completes.mpr hf.time, packI_nat_completes.mpr (ht.trans_lt hf.fsize),
        packH_completes.mpr hf.tinode, List.forall_mem_nil _⟩
  rw [← hfields]
  unfold Fs.write_superblock
  refine bind_completes_of_forall fun ws _ => ?_
  have hmagic : ∃ b, fmtI.pack FsMAGIC = .ok b := packI_completes.mpr (by decide)
  have htype : ∃ b, fmtI.pack Fs2b = .ok b := packI_completes.mpr (by decide)
  obtain ⟨magic, hmagic⟩ := hmagic
  obtain ⟨type, htype⟩ := htype
  have hroot : ∃ b, encodeLatin1 (str "root") = .ok b := encodeLatin1_completes.mpr (by decide)
  have hgenix : ∃ b, encodeLatin1 (str "genix") = .ok b := encodeLatin1_completes.mpr (by decide)
  obtain ⟨fname, hfname⟩ := hroot
  obtain ⟨fpack, hfpack⟩ := hgenix
  rw [hmagic, htype, hfname, hfpack]
  exact ⟨_, rfl⟩

end Sys16.MkfsPacking
