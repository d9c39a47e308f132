import Sys16.MkfsLedger

/-!
# The i-list on the image

Every inode has thirteen addresses, so each packs into 64 bytes, and the slots
of the i-list lie one after the other between the superblock and the first
data block. The free list and the superblock that are written after it do not
touch it, nor any block that has been allocated.
-/

namespace Sys16.MkfsInodes

open Function ByteStore PyText PyStruct PyDict HostWalk MkfsImage MkfsBlocks MkfsSuperblock
open MkfsFreeList MkfsBuild MkfsActs MkfsWalk MkfsFinish MkfsLedger

variable {b b' : Build} {fs fs' fs₁ fs₂ fs₃ fs₄ : Fs} {n k : ℕ} {P : Rule} {N : Str → Prop}

/-- Every inode has thirteen addresses. -/
def Addressed (fs : Fs) : Prop := ∀ n i, fs.inodes n = some i → i.addr.length = NADDR

/-- A change that keeps the length of the address list keeps every list whole. -/
theorem Addressed.modify {f : Inode → Inode} (h : Addressed fs)
    (hf : ∀ i, i.addr.length = NADDR → (f i).addr.length = NADDR) :
    Addressed (fs.modify n f) := by
  intro m i hi
  rw [inodes_modify] at hi
  by_cases hm : m = n
  · rw [hm, update_self] at hi
    obtain ⟨j, hj, rfl⟩ := Option.map_eq_some_iff.mp hi
    exact hf j (h n j hj)
  · rw [update_of_ne hm] at hi
    exact h m i hi

/-- A new inode has all its addresses. -/
theorem Addressed.allocated (h : Addressed fs) (mode : ℤ) : Addressed (allocated fs mode) := by
  intro m i hi
  rw [inodes_allocated] at hi
  by_cases hm : m = fs.next_ino
  · rw [hm, update_self] at hi
    cases hi
    exact List.length_replicate
  · rw [update_of_ne hm] at hi
    exact h m i hi

/-- Setting addresses keeps their number. -/
theorem length_setAddrs {addr : List ℤ} {blocks : List ℕ} (h : blocks.length ≤ addr.length) :
    (setAddrs addr blocks).length = addr.length := by
  unfold setAddrs
  rw [List.length_append, List.length_map, List.length_drop]
  omega

/-- A file's address list is as long as the inode's. -/
theorem length_fileAddr {addr : List ℤ} (s n : ℕ) (h : addr.length = NADDR) :
    (fileAddr s n addr).length = NADDR := by
  have hset : (setAddrs addr (List.range' s (min 10 n))).length = NADDR := by
    have hN : NADDR = 13 := rfl
    rw [length_setAddrs (by rw [List.length_range']; omega), h]
  unfold fileAddr
  dsimp only
  split
  · exact hset
  · split
    · rw [List.length_set, hset]
    · rw [List.length_set, List.length_set, hset]

/-- Storing a file keeps every address list whole. -/
theorem Addressed.store {ino : ℕ} {content : Bytes} (h : Addressed fs)
    (hstore : fs.store_data ino content = .ok fs') : Addressed fs' := by
  have hinodes := store_data_inodes hstore
  have hmod : Addressed (fs.modify ino (storedInode fs.next_block content)) :=
    h.modify fun i hi => length_fileAddr _ _ hi
  intro m i hi
  rw [hinodes] at hi
  exact hmod m i hi

/-- Every act of the build keeps the address lists whole. -/
theorem Act.addressed (h : Addressed b.fs) (ha : Act P b b') : Addressed b'.fs := by
  cases ha with
  | mkdir =>
    refine Addressed.modify (Addressed.modify (h.allocated _) ?_) ?_
    · exact fun _ hi => hi
    · exact fun _ hi => hi
  | file _ _ hstore _ => exact (h.allocated _).store hstore
  | node =>
    refine Addressed.modify (h.allocated _) ?_
    exact fun i hi => List.length_set.trans hi
  | link =>
    refine Addressed.modify h ?_
    exact fun _ hi => hi
  | chmod =>
    refine Addressed.modify h ?_
    exact fun _ hi => hi

/-- Storing the directories keeps the address lists whole. -/
theorem storeDirs_addressed {items : List (Str × List Entry)} (hfs : Addressed fs)
    (h : items.foldlM b.storeDir fs = .ok fs') : Addressed fs' := by
  refine foldlM_invariant (I := Addressed) (fun p _ f f' hf hone => ?_) hfs h
  obtain ⟨blob, d, _, _, hstore⟩ := storeDir_eq hone
  exact hf.store hstore

/-! ## Slots -/

/-- Pieces of one length make a list of that many times their number. -/
theorem length_flatMap_const {α β : Type*} {f : α → List β} {c : ℕ} (hf : ∀ a, (f a).length = c)
    (l : List α) : (l.flatMap f).length = l.length * c := by
  induction l with
  | nil => simp
  | cons a l ih =>
    rw [List.flatMap_cons, List.length_append, ih, hf, List.length_cons, Nat.add_mul, Nat.one_mul,
      Nat.add_comm]

/-- The packed addresses take 40 bytes. -/
theorem length_packAddr {addr : List ℤ} (h : addr.length = NADDR) :
    (packAddr addr).length = 40 := by
  have hN : NADDR = 13 := rfl
  unfold packAddr
  refine length_pad ?_
  rw [length_flatMap_const (c := 3) (fun _ => rfl), h, hN]
  omega

/-- The fields of a packed inode, one after the other. -/
theorem pack_inode_eq {i : Inode} {blob : Bytes} (h : fs.pack_inode i = .ok blob) :
    ∃ mode nlink uid gid size now, fmtH.pack i.mode = .ok mode ∧ fmth.pack i.nlink = .ok nlink ∧
      fmtH.pack i.uid = .ok uid ∧ fmtH.pack i.gid = .ok gid ∧ fmtI.pack i.size = .ok size ∧
      fmtI.pack fs.now = .ok now ∧ blob = mode ++ (nlink ++ (uid ++ (gid ++ (size ++
        (packAddr i.addr ++ (now ++ (now ++ now))))))) := by
  unfold Fs.pack_inode at h
  obtain ⟨mode, hmode, h⟩ := bind_eq_ok.mp h
  obtain ⟨nlink, hnlink, h⟩ := bind_eq_ok.mp h
  obtain ⟨uid, huid, h⟩ := bind_eq_ok.mp h
  obtain ⟨gid, hgid, h⟩ := bind_eq_ok.mp h
  obtain ⟨size, hsize, h⟩ := bind_eq_ok.mp h
  obtain ⟨now, hnow, h⟩ := bind_eq_ok.mp h
  refine ⟨mode, nlink, uid, gid, size, now, hmode, hnlink, huid, hgid, hsize, hnow, ?_⟩
  rw [← Except.ok.inj h]
  simp only [List.append_assoc]

/-- A packed inode takes 64 bytes. -/
theorem length_pack_inode {i : Inode} {blob : Bytes} (hi : i.addr.length = NADDR)
    (h : fs.pack_inode i = .ok blob) : blob.length = 64 := by
  obtain ⟨mode, nlink, uid, gid, size, now, hmode, hnlink, huid, hgid, hsize, hnow, rfl⟩ :=
    pack_inode_eq h
  simp only [List.length_append, Format.length_pack hmode, Format.length_pack hnlink,
    Format.length_pack huid, Format.length_pack hgid, Format.length_pack hsize,
    Format.length_pack hnow, length_packAddr hi]
  rfl

/-- The offset of an inode's slot. -/
def slotOff (n : ℕ) : ℕ := 2 * BSIZE + (n - 1) * 64

/-- The bytes of an inode's slot. -/
def slot (d : Bytes) (n : ℕ) : Bytes := slice d (slotOff n) 64

/-- An inode is written to its own slot, 64 bytes long. -/
theorem inodeWrite_eq {w : ℕ × Bytes} (ha : Addressed fs) (h : fs.inodeWrite n = .ok w) :
    w.1 = slotOff n ∧ w.2.length = 64 := by
  unfold Fs.inodeWrite at h
  cases hi : fs.inodes n with
  | none =>
    rw [hi] at h
    rw [← Except.ok.inj h]
    exact ⟨rfl, List.length_replicate⟩
  | some i =>
    rw [hi] at h
    obtain ⟨blob, hblob, h⟩ := bind_eq_ok.mp h
    rw [← Except.ok.inj h]
    exact ⟨rfl, length_pack_inode (ha n i hi) hblob⟩

/-- The i-list ends where the data begins. -/
structure IList (fs : Fs) : Prop where
  ninodes : fs.ninodes = fs.iblocks * INOPB
  first_data : fs.first_data = 2 + fs.iblocks

/-- The i-list stays where it is while the shape does. -/
theorem IList.shaped (h : IList fs) (hs : Shaped fs fs') : IList fs' := by
  refine ⟨?_, ?_⟩
  · rw [hs.ninodes, hs.iblocks]
    exact h.ninodes
  · rw [hs.first_data, hs.iblocks]
    exact h.first_data

/-- The writes of the i-list. -/
theorem ilist_writes {ws : List (ℕ × Bytes)} {a m : ℕ} (ha : Addressed fs) (hpos : 1 ≤ a)
    (h : List.Forall₂ (fun n w => fs.inodeWrite n = .ok w) (List.range' a m) ws) :
    ws.Pairwise (fun v w => v.1 + v.2.length ≤ w.1) ∧
      ∀ w ∈ ws, slotOff a ≤ w.1 ∧ w.1 + w.2.length ≤ slotOff (a + m) := by
  induction m generalizing a ws with
  | zero =>
    cases h
    exact ⟨List.Pairwise.nil, nofun⟩
  | succ m ih =>
    rw [List.range'_succ] at h
    obtain ⟨w, ws, hw, hrest, rfl⟩ := List.forall₂_cons_left_iff.mp h
    obtain ⟨hoff, hlen⟩ := inodeWrite_eq ha hw
    obtain ⟨hp, hb⟩ := ih (by omega) hrest
    have hstep : slotOff (a + 1) = slotOff a + 64 := by
      unfold slotOff
      omega
    have hend : slotOff (a + 1) ≤ slotOff (a + 1 + m) := by
      unfold slotOff
      omega
    refine ⟨List.pairwise_cons.mpr ⟨fun v hv => ?_, hp⟩, fun v hv => ?_⟩
    · have hv' := (hb v hv).1
      omega
    · rw [show a + (m + 1) = a + 1 + m by omega]
      rcases List.mem_cons.mp hv with rfl | hv
      · omega
      · have hv' := hb v hv
        omega

/-- What `write_inodes` leaves: each slot as it was packed, and the data blocks. -/
theorem write_inodes_slots (h : fs.write_inodes = .ok fs') (ha : Addressed fs) (hl : IList fs)
    (hsize : fs.first_data * BSIZE ≤ fs.data.length) :
    fs'.data.length = fs.data.length ∧
      (∀ n, 1 ≤ n → n ≤ fs.ninodes → fs.inodeWrite n = .ok (slotOff n, slot fs'.data n)) ∧
      ∀ k, fs.first_data ≤ k → blockOf fs'.data k = blockOf fs.data k := by
  obtain ⟨ws, hws, rfl⟩ := write_inodes_eq h
  obtain ⟨hp, hb⟩ := ilist_writes ha (Nat.le_refl 1) hws
  have hend : slotOff (1 + fs.ninodes) = fs.first_data * BSIZE := by
    have hB : BSIZE = 1024 := rfl
    have hI : INOPB = 16 := rfl
    have h1 := hl.ninodes
    have h2 := hl.first_data
    unfold slotOff
    rw [h2, hB]
    rw [hI] at h1
    omega
  have hfit : Fits ws fs.data.length := by
    intro w hw
    have hle := (hb w hw).2
    omega
  refine ⟨length_writeAll hfit, fun n hn hle => ?_, fun k hk => ?_⟩
  · obtain ⟨w, hmem, hw⟩ := exists_of_mem_left hws (List.mem_range'_1.mpr ⟨hn, by omega⟩)
    obtain ⟨hoff, hlen⟩ := inodeWrite_eq ha hw
    have hread := slice_writeAll_of_mem hfit hp hmem
    rw [hlen, hoff] at hread
    unfold slot
    rw [hread, ← hoff]
    exact hw
  · refine slice_writeAll_of_disjoint hfit fun w hw => Or.inr ?_
    have hle := (hb w hw).2
    have hk' : fs.first_data * BSIZE ≤ k * BSIZE := Nat.mul_le_mul_right _ hk
    omega

/-! ## The written image -/

/-- What an image holds of the state before its last three writes: the slots
of the i-list as they were packed, and the blocks that had been allocated. -/
structure Image (fs : Fs) (d : Bytes) : Prop where
  length : d.length = fs.data.length
  slots : ∀ n, 1 ≤ n → n ≤ fs.ninodes → fs.inodeWrite n = .ok (slotOff n, slot d n)
  blocks : ∀ k, fs.first_data ≤ k → k < fs.next_block → blockOf d k = blockOf fs.data k

/-- A slot is a part of a block before the first data block. -/
theorem slot_eq_slice (d : Bytes) (n : ℕ) :
    slot d n = slice (blockOf d (2 + (n - 1) / INOPB)) ((n - 1) % INOPB * 64) 64 := by
  have hB : BSIZE = 1024 := rfl
  have hI : INOPB = 16 := rfl
  unfold slot slotOff blockOf
  have hoff : (2 + (n - 1) / INOPB) * BSIZE + (n - 1) % INOPB * 64 = 2 * BSIZE + (n - 1) * 64 := by
    rw [hB, hI]
    omega
  rw [slice_slice _ _ _ _ _ (by rw [hB, hI]; omega), hoff]

/-- The superblock ends before the i-list. -/
theorem super_le_slot (n : ℕ) : SUPERBOFF + 512 ≤ slotOff n := by
  have hboot : SUPERBOFF + 512 ≤ 2 * BSIZE := by decide
  exact hboot.trans (Nat.le_add_right _ _)

/-- The superblock ends before the data. -/
theorem IList.super_le (hl : IList fs) (hk : fs.first_data ≤ k) : SUPERBOFF + 512 ≤ k * BSIZE := by
  have hboot : SUPERBOFF + 512 ≤ 2 * BSIZE := by decide
  have htwo : 2 ≤ k := by
    have hfirst := hl.first_data
    omega
  exact hboot.trans (Nat.mul_le_mul_right BSIZE htwo)

/-- Each slot is in a block before the first data block. -/
theorem IList.slot_block (hl : IList fs) (hpos : 1 ≤ n) (hn : n ≤ fs.ninodes) :
    2 + (n - 1) / INOPB < fs.first_data := by
  have hI : INOPB = 16 := rfl
  have h1 := hl.ninodes
  have h2 := hl.first_data
  rw [hI] at h1 ⊢
  omega

/-- The i-list and the free list leave the size of the image, with a full stack
of free blocks, and the last blocks allocated. -/
theorem finish_frees (h : Finished b fs₁ fs₂ fs₃ fs₄) (ha : Addressed fs₁) (hl : IList fs₁)
    (hsize : fs₁.data.length = fs₁.nblocks * BSIZE) (hfirst : fs₁.first_data ≤ fs₁.next_block)
    (hle : fs₁.next_block ≤ fs₁.nblocks) :
    fs₃.data.length = fs₁.data.length ∧ fs₃.free.length = NICFREE ∧
      SUPERBOFF + 512 ≤ fs₃.data.length ∧
      ∀ k, k < fs₁.next_block → blockOf fs₃.data k = blockOf fs₂.data k := by
  have hroom : fs₁.first_data * BSIZE ≤ fs₁.data.length := by
    rw [hsize]
    exact Nat.mul_le_mul_right _ (hfirst.trans hle)
  have hpos : 0 < fs₁.next_block := by
    have hdata := hl.first_data
    omega
  have hlen₂ := (write_inodes_slots h.ilist ha hl hroom).1
  obtain ⟨ws, _, hfs₂⟩ := write_inodes_eq h.ilist
  have hnb : fs₂.nblocks = fs₁.nblocks := by rw [hfs₂]
  have hnext : fs₂.next_block = fs₁.next_block := by rw [hfs₂]
  obtain ⟨_, hfreed, _⟩ := build_free_list_yields h.freelist
    (by rw [hlen₂, hnb]; exact hsize) (by rw [hnext]; exact hpos)
  have hlen₃ : fs₃.data.length = fs₁.data.length := hfreed.length.trans hlen₂
  refine ⟨hlen₃, hfreed.free.trans List.length_replicate, ?_, fun k hk => ?_⟩
  · rw [hlen₃]
    exact (hl.super_le (Nat.le_refl _)).trans hroom
  · refine hfreed.blocks k ?_
    rw [List.mem_reverse, List.mem_range'_1, hnext]
    exact fun hr => Nat.lt_irrefl _ (Nat.lt_of_lt_of_le hk hr.1)

/-- The free list and the superblock leave the i-list and the files alone. -/
theorem finish_image (h : Finished b fs₁ fs₂ fs₃ fs₄) (ha : Addressed fs₁) (hl : IList fs₁)
    (hsize : fs₁.data.length = fs₁.nblocks * BSIZE) (hfirst : fs₁.first_data ≤ fs₁.next_block)
    (hle : fs₁.next_block ≤ fs₁.nblocks) : Image fs₁ fs₄.data := by
  have hroom : fs₁.first_data * BSIZE ≤ fs₁.data.length := by
    rw [hsize]
    exact Nat.mul_le_mul_right _ (hfirst.trans hle)
  obtain ⟨_, hslots, hdata⟩ := write_inodes_slots h.ilist ha hl hroom
  obtain ⟨hlen₃, hfree, hsuper, hkept⟩ := finish_frees h ha hl hsize hfirst hle
  obtain ⟨hlen₄, hframe, _⟩ := write_superblock_frame h.super hfree hsuper
  refine ⟨hlen₄.trans hlen₃, fun n hn hle' => ?_, fun k hk hlt => ?_⟩
  · have hslot₃ : slot fs₃.data n = slot fs₂.data n := by
      rw [slot_eq_slice, slot_eq_slice,
        hkept _ (Nat.lt_of_lt_of_le (hl.slot_block hn hle') hfirst)]
    have hslot₄ : slot fs₄.data n = slot fs₃.data n := hframe _ _ (super_le_slot n)
    rw [hslot₄, hslot₃]
    exact hslots n hn hle'
  · have hblock : blockOf fs₄.data k = blockOf fs₃.data k := hframe _ _ (hl.super_le hk)
    rw [hblock, hkept k hlt, hdata k hk]

/-- How a build that completes comes about: acts lead from the root to the
state in which the directories are stored, and then that state is written. -/
structure Written (N : Str → Prop) (fs₀ : Fs) (tree : Option HostTree) (b₂ : Build) (fs₁ : Fs)
    (ws : List (ℕ × Bytes)) (b : Build) : Prop where
  before : BuildLeads N fs₀ tree b₂
  booked : Booked b₂
  ledger : Ledger fs₁
  addressed : Addressed fs₁
  ilist : IList fs₁
  /-- The directories, with their contents. -/
  dirs : List.Forall₂ (fun p w => b₂.dirs.get? p.1 = some w.1 ∧ dirBlob p.2 = .ok w.2)
    b₂.entries.items ws
  stored : fs₁.stored = b₂.fs.stored ++ ws
  store : b₂.entries.items.foldlM b₂.storeDir b₂.fs = .ok fs₁
  image : Image fs₁ b.fs.data
  same : SameTables fs₁ b.fs
  tables : b.dirs = b₂.dirs ∧ b.entries = b₂.entries
  /-- The i-list is small enough for the superblock. -/
  isize : fs₁.iblocks + 2 < 2 ^ 16
  shape : fs₁.nblocks = fs₀.nblocks ∧ fs₁.iblocks = fs₀.iblocks

/-- A build that completes, taken apart: the state before the directories are
stored, the one after, and the last three writes. -/
theorem build_finished {limit nblocks ninodes : ℕ} {now : ℤ} {tree : Option HostTree}
    {spec : List Str} (hN : AllNames N spec)
    (h : build limit (Fs.init now nblocks ninodes) tree spec = .ok b) :
    ∃ b₂ fs₁ fs₂ fs₃ ws, Finished b₂ fs₁ fs₂ fs₃ b.fs ∧ fs₁.first_data ≤ fs₁.next_block ∧
      Written N (Fs.init now nblocks ninodes) tree b₂ fs₁ ws b := by
  obtain ⟨b₂, hb, hfinish⟩ := build_leads hN h
  obtain ⟨fs₁, fs₂, fs₃, hfin, hdirs, hentries⟩ := finish_eq hfinish
  have hshape : Shaped (rooted (Fs.init now nblocks ninodes)).fs b₂.fs := Leads.shaped hb.leads
  have hroom := finish_room hb.tables hfin
  have hfirst : (Fs.init now nblocks ninodes).first_data ≤ b₂.fs.next_block := hshape.next_block
  have hnb : b₂.fs.nblocks = nblocks := hshape.nblocks
  have hbooked := Leads.booked hb.leads
    (rooted_booked hb.root (ledger_init now (hfirst.trans (by omega))))
  have haddr₂ : Addressed b₂.fs := by
    refine hb.leads.invariant (I := fun c => Addressed c.fs)
      (fun _ _ hc ha => Act.addressed hc ha) ?_
    have hempty : Addressed (Fs.init now nblocks ninodes) := fun m i hi => nomatch hi
    refine Addressed.modify (hempty.allocated _) ?_
    exact fun _ hi => hi
  obtain ⟨hledger, ws, hall, hstored⟩ := storeDirs_ledger hb.tables b₂.entries.nodup
    hbooked.ledger (fun p _ d hd => hbooked.dirs p.1 d hd) rfl hfin.store
  have haddr := storeDirs_addressed haddr₂ hfin.store
  have hshape₁ := hshape.trans (storeDirs_shaped hfin.store)
  have hroot₁ : IList (rooted (Fs.init now nblocks ninodes)).fs := ⟨rfl, rfl⟩
  have hil := hroot₁.shaped hshape₁
  have hfirst₁ : fs₁.first_data ≤ fs₁.next_block := by
    rw [hshape₁.first_data]
    exact hshape₁.next_block
  have himage := finish_image hfin haddr hil hledger.fresh.size hfirst₁ hledger.fresh.room
  have hisize := write_superblock_isize hfin.super
  rw [← (write_superblock_same hfin.super).shaped.iblocks, hfin.same.shaped.iblocks] at hisize
  exact ⟨b₂, fs₁, fs₂, fs₃, ws, hfin, hfirst₁, hb, hbooked, hledger, haddr, hil, hall, hstored,
    hfin.store, himage, hfin.same, ⟨hdirs, hentries⟩, hisize, hshape₁.nblocks, hshape₁.iblocks⟩

/-- A completed build is one whose parts were all written. -/
theorem build_written {limit nblocks ninodes : ℕ} {now : ℤ} {tree : Option HostTree}
    {spec : List Str} (hN : AllNames N spec)
    (h : build limit (Fs.init now nblocks ninodes) tree spec = .ok b) :
    ∃ b₂ fs₁ ws, Written N (Fs.init now nblocks ninodes) tree b₂ fs₁ ws b := by
  obtain ⟨b₂, fs₁, _, _, ws, _, _, hw⟩ := build_finished hN h
  exact ⟨b₂, fs₁, ws, hw⟩

/-- Every field of the superblock reads back from the image of a build. -/
theorem build_superblock {limit nblocks ninodes : ℕ} {now : ℤ} {tree : Option HostTree}
    {spec : List Str} (hN : AllNames N spec)
    (h : build limit (Fs.init now nblocks ninodes) tree spec = .ok b) {f : Field}
    (hf : f ∈ b.fs.superFields) :
    ∃ w, f.2.1.pack f.2.2 = .ok w ∧ slice (superblock b.fs.data) f.1 f.2.1.width = w := by
  obtain ⟨b₂, fs₁, fs₂, fs₃, ws, hfin, hfirst, hw⟩ := build_finished hN h
  obtain ⟨_, hfree, hsize, _⟩ := finish_frees hfin hw.addressed hw.ilist hw.ledger.fresh.size
    hfirst hw.ledger.fresh.room
  obtain ⟨_, _, hfs⟩ := write_superblock_frame hfin.super hfree hsize
  rw [hfs] at hf
  exact write_superblock_field hfin.super hfree hsize hf

end Sys16.MkfsInodes
