import Sys16.MkfsWalk
import Sys16.MkfsFreeList

/-!
# Writing the image out

The end of `build` stores the directories and then writes the i-list, the free
list and the superblock. These last three change no inode and no block that
has been allocated, and each slot of the i-list reads back as it was packed.
-/

namespace Sys16.MkfsFinish

open ByteStore PyText PyStruct PyDict MkfsImage MkfsBlocks MkfsSuperblock MkfsFreeList MkfsBuild
open MkfsActs MkfsWalk

variable {b b' : Build} {fs fs' : Fs} {bs : List ℕ} {n : ℕ} {P : Rule}

/-- Two states that differ in the image and the free list only. -/
def SameTables (fs fs' : Fs) : Prop :=
  fs' = { fs with data := fs'.data, nfree := fs'.nfree, free := fs'.free, tfree := fs'.tfree }

/-- Two steps that keep the tables keep them together. -/
theorem SameTables.trans {fs'' : Fs} (h : SameTables fs fs') (k : SameTables fs' fs'') :
    SameTables fs fs'' := by
  unfold SameTables at h k ⊢
  rw [k, h]

/-- The inode table is one of them. -/
theorem SameTables.inodes (h : SameTables fs fs') : fs'.inodes = fs.inodes := by
  unfold SameTables at h
  rw [h]

/-- The record of what is stored stays. -/
theorem SameTables.stored (h : SameTables fs fs') : fs'.stored = fs.stored := by
  unfold SameTables at h
  rw [h]

/-- No inode is allocated any more. -/
theorem SameTables.next_ino (h : SameTables fs fs') : fs'.next_ino = fs.next_ino := by
  unfold SameTables at h
  rw [h]

/-- No block is allocated any more. -/
theorem SameTables.next_block (h : SameTables fs fs') : fs'.next_block = fs.next_block := by
  unfold SameTables at h
  rw [h]

/-- `write_inodes` is a write for each inode, in order, and nothing else. -/
theorem write_inodes_eq (h : fs.write_inodes = .ok fs') :
    ∃ ws, List.Forall₂ (fun n w => fs.inodeWrite n = .ok w) (List.range' 1 fs.ninodes) ws ∧
      fs' = { fs with data := writeAll fs.data ws } := by
  unfold Fs.write_inodes at h
  obtain ⟨ws, hws, h⟩ := bind_eq_ok.mp h
  cases h
  exact ⟨ws, mapM_eq_ok.mp hws, rfl⟩

/-- Freeing a block touches the free list and its blocks only. -/
theorem bfree_same {k : ℕ} (h : fs.bfree k = .ok fs') : SameTables fs fs' := by
  unfold Fs.bfree at h
  obtain ⟨fs₁, hspill, h⟩ := bind_eq_ok.mp h
  cases h
  unfold Fs.spill at hspill
  split at hspill
  · obtain ⟨count, _, hspill⟩ := bind_eq_ok.mp hspill
    obtain ⟨words, _, hspill⟩ := bind_eq_ok.mp hspill
    obtain ⟨fs₂, hput, hspill⟩ := bind_eq_ok.mp hspill
    cases hspill
    obtain ⟨_, rfl⟩ := put_eq hput
    exact rfl
  · cases hspill
    exact rfl

/-- So does freeing any number of them. -/
theorem bfreeAll_same (h : fs.bfreeAll bs = .ok fs') : SameTables fs fs' := by
  induction bs generalizing fs with
  | nil =>
    cases h
    exact rfl
  | cons k bs ih =>
    unfold Fs.bfreeAll at h
    obtain ⟨fs₁, hone, h⟩ := bind_eq_ok.mp h
    have hcount : SameTables fs₁ { fs₁ with tfree := fs₁.tfree + 1 } := rfl
    exact ((bfree_same hone).trans hcount).trans (ih h)

/-- And so does building the whole list. -/
theorem build_free_list_same (h : fs.build_free_list = .ok fs') : SameTables fs fs' := by
  unfold Fs.build_free_list at h
  obtain ⟨fs₁, hzero, h⟩ := bind_eq_ok.mp h
  have hempty : SameTables fs (emptied fs) := rfl
  exact (hempty.trans (bfree_same hzero)).trans (bfreeAll_same h)

/-- The superblock goes into its bytes of block 0. -/
theorem write_superblock_same (h : fs.write_superblock = .ok fs') : SameTables fs fs' := by
  unfold Fs.write_superblock at h
  obtain ⟨ws, _, h⟩ := bind_eq_ok.mp h
  obtain ⟨magic, _, h⟩ := bind_eq_ok.mp h
  obtain ⟨type, _, h⟩ := bind_eq_ok.mp h
  obtain ⟨fname, _, h⟩ := bind_eq_ok.mp h
  obtain ⟨fpack, _, h⟩ := bind_eq_ok.mp h
  cases h
  rfl

/-- The last four steps of a build that completes. -/
structure Finished (b : Build) (stored inodes freed written : Fs) : Prop where
  store : b.entries.items.foldlM b.storeDir b.fs = .ok stored
  ilist : stored.write_inodes = .ok inodes
  freelist : inodes.build_free_list = .ok freed
  super : freed.write_superblock = .ok written

/-- The end of a build has its four steps in order, and keeps the directories as they
were. -/
theorem finish_eq (h : b.finish = .ok b') :
    ∃ fs₁ fs₂ fs₃, Finished b fs₁ fs₂ fs₃ b'.fs ∧ b'.dirs = b.dirs ∧ b'.entries = b.entries := by
  unfold Build.finish at h
  obtain ⟨fs₁, h1, h⟩ := bind_eq_ok.mp h
  obtain ⟨fs₂, h2, h⟩ := bind_eq_ok.mp h
  obtain ⟨fs₃, h3, h⟩ := bind_eq_ok.mp h
  obtain ⟨fs₄, h4, h⟩ := bind_eq_ok.mp h
  cases h
  exact ⟨fs₁, fs₂, fs₃, ⟨h1, h2, h3, h4⟩, rfl, rfl⟩

variable {fs₁ fs₂ fs₃ fs₄ : Fs}

/-- From the stored directories on, the tables do not change. -/
theorem Finished.same (h : Finished b fs₁ fs₂ fs₃ fs₄) : SameTables fs₁ fs₄ := by
  obtain ⟨ws, _, hinodes⟩ := write_inodes_eq h.ilist
  have hfirst : SameTables fs₁ fs₂ := by rw [hinodes]; rfl
  exact (hfirst.trans (build_free_list_same h.freelist)).trans (write_superblock_same h.super)

/-! ## The shape of the filesystem -/

/-- The numbers fixed when the filesystem is set up stay, and blocks are only allocated. -/
structure Shaped (fs fs' : Fs) : Prop where
  nblocks : fs'.nblocks = fs.nblocks
  iblocks : fs'.iblocks = fs.iblocks
  first_data : fs'.first_data = fs.first_data
  ninodes : fs'.ninodes = fs.ninodes
  now : fs'.now = fs.now
  next_block : fs.next_block ≤ fs'.next_block

/-- A filesystem has its own shape. -/
theorem Shaped.refl (fs : Fs) : Shaped fs fs := ⟨rfl, rfl, rfl, rfl, rfl, Nat.le_refl _⟩

/-- Shape is kept by one step after another. -/
theorem Shaped.trans {fs'' : Fs} (h : Shaped fs fs') (k : Shaped fs' fs'') : Shaped fs fs'' :=
  ⟨k.nblocks.trans h.nblocks, k.iblocks.trans h.iblocks, k.first_data.trans h.first_data,
    k.ninodes.trans h.ninodes, k.now.trans h.now, h.next_block.trans k.next_block⟩

/-- Steps that keep the tables keep the shape. -/
theorem SameTables.shaped (h : SameTables fs fs') : Shaped fs fs' := by
  unfold SameTables at h
  rw [h]
  exact ⟨rfl, rfl, rfl, rfl, rfl, Nat.le_refl _⟩

/-- Storing a file keeps the shape of the image and only moves the next block on. -/
theorem store_data_shaped {content : Bytes} (h : fs.store_data n content = .ok fs') :
    Shaped fs fs' := by
  obtain ⟨fs₁, happ, _, rfl⟩ := store_data_eq h
  rw [happ.eq]
  exact ⟨rfl, rfl, rfl, rfl, rfl, Nat.le_add_right _ _⟩

/-- No act of `build` changes the shape of the image. -/
theorem Act.shaped (ha : Act P b b') : Shaped b.fs b'.fs := by
  cases ha with
  | mkdir => exact ⟨rfl, rfl, rfl, rfl, rfl, Nat.le_refl _⟩
  | @file here name mode content fs' ents hents hroom hstore hrule =>
    have halloc : Shaped b.fs (allocated b.fs mode) := ⟨rfl, rfl, rfl, rfl, rfl, Nat.le_refl _⟩
    exact halloc.trans (store_data_shaped hstore)
  | node => exact ⟨rfl, rfl, rfl, rfl, rfl, Nat.le_refl _⟩
  | link => exact ⟨rfl, rfl, rfl, rfl, rfl, Nat.le_refl _⟩
  | chmod => exact ⟨rfl, rfl, rfl, rfl, rfl, Nat.le_refl _⟩

/-- Nor does a run of them. -/
theorem Leads.shaped (h : Leads P b b') : Shaped b.fs b'.fs :=
  h.invariant (I := fun c => Shaped b.fs c.fs) (fun _ _ hs ha => hs.trans (Act.shaped ha))
    (Shaped.refl _)

/-- A directory is stored as the file of its packed entries, under the inode it is known
by. -/
theorem storeDir_eq {p : Str × List Entry} (h : b.storeDir fs p = .ok fs') :
    ∃ blob d, dirBlob p.2 = .ok blob ∧ b.dirs.get? p.1 = some d ∧
      fs.store_data d blob = .ok fs' := by
  unfold Build.storeDir at h
  obtain ⟨blob, hblob, h⟩ := bind_eq_ok.mp h
  obtain ⟨d, hd, hstore⟩ := bind_eq_ok.mp h
  exact ⟨blob, d, hblob, index_eq_ok.mp hd, hstore⟩

/-- Storing all directories keeps the shape. -/
theorem storeDirs_shaped {items : List (Str × List Entry)}
    (h : items.foldlM b.storeDir fs = .ok fs') : Shaped fs fs' := by
  refine foldlM_invariant (I := Shaped fs) (fun p _ f f' hf hone => ?_) (Shaped.refl fs) h
  obtain ⟨blob, d, _, _, hstore⟩ := storeDir_eq hone
  exact hf.trans (store_data_shaped hstore)

/-- A file that is not empty takes a block. -/
theorem store_data_room {content : Bytes} (h : fs.store_data n content = .ok fs')
    (hne : content ≠ []) : fs.next_block < fs.nblocks := by
  have hpos : 0 < (chunks BSIZE content).length := by
    rw [length_chunks]
    exact (chunkCount_pos (by decide)).mpr (List.length_pos_iff.mpr hne)
  unfold Fs.store_data at h
  obtain ⟨⟨fs₁, blocks⟩, hall, _⟩ := bind_eq_ok.mp h
  obtain ⟨buf, bufs, hbufs⟩ := List.exists_cons_of_length_pos hpos
  rw [hbufs] at hall
  obtain ⟨⟨fs₂, k⟩, hnew, _⟩ := bind_eq_ok.mp hall
  obtain ⟨⟨fs₃, j⟩, halloc, _⟩ := bind_eq_ok.mp hnew
  exact (alloc_block_eq halloc).1

/-- A directory entry: its number, then its name padded with zeros. -/
theorem dirent_eq {name : Str} {blob : Bytes} (h : dirent n name = .ok blob) :
    ∃ num nm, encodeLatin1 name = .ok nm ∧ nm.length ≤ DIRSIZ ∧ fmtH.pack n = .ok num ∧
      blob = num ++ pad DIRSIZ nm := by
  unfold dirent at h
  obtain ⟨nm, hnm, h⟩ := bind_eq_ok.mp h
  by_cases hlen : DIRSIZ < nm.length
  · rw [if_pos hlen] at h
    cases h
  · rw [if_neg hlen] at h
    obtain ⟨num, hnum, h⟩ := bind_eq_ok.mp h
    exact ⟨num, nm, hnm, Nat.not_lt.mp hlen, hnum, (Except.ok.inj h).symm⟩

/-- An entry takes sixteen bytes, whatever its name. -/
theorem length_dirent {name : Str} {blob : Bytes} (h : dirent n name = .ok blob) :
    blob.length = 16 := by
  obtain ⟨num, nm, _, hlen, hnum, rfl⟩ := dirent_eq h
  have h2 : num.length = 2 := Format.length_pack hnum
  rw [List.length_append, h2, length_pad hlen]
  rfl

/-- The contents of a directory are its entries, of sixteen bytes each. -/
theorem dirBlob_eq {ents : List Entry} {blob : Bytes} (h : dirBlob ents = .ok blob) :
    ∃ blobs, List.Forall₂ (fun e b => dirent e.1 e.2 = .ok b) ents blobs ∧
      (∀ b ∈ blobs, b.length = 16) ∧ blob = blobs.flatten := by
  obtain ⟨blobs, hblobs, rfl⟩ := map_eq_ok.mp h
  have hall := mapM_eq_ok.mp hblobs
  refine ⟨blobs, hall, fun b hb => ?_, rfl⟩
  obtain ⟨x, _, hx⟩ := exists_of_mem_right hall hb
  exact length_dirent hx

/-- So a directory takes sixteen for each entry. -/
theorem length_dirBlob {ents : List Entry} {blob : Bytes} (h : dirBlob ents = .ok blob) :
    blob.length = ents.length * 16 := by
  obtain ⟨blobs, hall, hsizes, rfl⟩ := dirBlob_eq h
  rw [length_flatten_of_forall hsizes, hall.length_eq]

/-- A build that completes has room for its root directory. -/
theorem finish_room (ht : Tables b) (h : Finished b fs fs₂ fs₃ fs₄) :
    b.fs.next_block < b.fs.nblocks := by
  have hstore := h.store
  cases hitems : b.entries.items with
  | nil =>
    obtain ⟨ents, hents⟩ := ht.get?_entries ht.root
    have hmem := Dict.get?_eq_some.mp hents
    rw [hitems] at hmem
    cases hmem
  | cons p items =>
    rw [hitems, List.foldlM_cons] at hstore
    obtain ⟨f, hone, _⟩ := bind_eq_ok.mp hstore
    obtain ⟨blob, d, hblob, _, hdata⟩ := storeDir_eq hone
    refine store_data_room hdata ?_
    have hp : b.entries.get? p.1 = some p.2 :=
      Dict.get?_eq_some.mpr (by rw [hitems]; exact List.mem_cons_self)
    obtain ⟨m, q, tail, _, hents⟩ := ht.dots p.1 p.2 hp
    have hlen := length_dirBlob hblob
    rw [hents, List.length_append] at hlen
    intro hnil
    rw [hnil] at hlen
    simp [newEntries] at hlen

end Sys16.MkfsFinish
