import Sys16.MkfsKinds
import Sys16.MkfsRoundTrip

/-!
# The superblock and the i-list

The inode fields of the superblock come from the counters of the build, and
the i-list from its inodes. They agree on every written image: the inodes with
a mode are those from the root to the last one allocated, the other slots are
zero, and the superblock lists and counts the slots that are free.
-/

namespace Sys16.MkfsFreeInodes

open Function ByteStore LittleEndian PyText PyStruct PyDict HostWalk MkfsImage MkfsBlocks
open MkfsSuperblock MkfsFreeList MkfsBuild MkfsActs MkfsWalk MkfsFinish MkfsLedger MkfsInodes
open MkfsLinks MkfsKinds MkfsRoundTrip

variable {b b' b₀ : Build} {fs fs' fs₁ : Fs} {d : Bytes} {path here name : Str} {parts : List Str}
  {n m k limit : ℕ} {mode : ℤ} {P : Rule} {f : HostFile}

/-! ## The inodes in use -/

/-- The inodes are those from the root to the last one allocated. -/
structure Filled (fs : Fs) : Prop where
  two : 2 ≤ fs.next_ino
  isSome : ∀ n, (fs.inodes n).isSome = true ↔ 2 ≤ n ∧ n < fs.next_ino

/-- A change of an inode fills no slot and empties none. -/
theorem Filled.modify (h : Filled fs) (n : ℕ) (f : Inode → Inode) : Filled (fs.modify n f) := by
  refine ⟨h.two, fun m => ?_⟩
  rw [isSome_modify]
  exact h.isSome m

/-- An inode that is allocated fills the next slot. -/
theorem Filled.allocated (h : Filled fs) (mode : ℤ) : Filled (allocated fs mode) := by
  have htwo := h.two
  have hnext : (MkfsActs.allocated fs mode).next_ino = fs.next_ino + 1 := rfl
  refine ⟨by omega, fun m => ?_⟩
  rw [isSome_allocated, h.isSome, hnext]
  omega

/-- Storing a file changes an inode that is there. -/
theorem Filled.store {content : Bytes} (h : Filled fs) (hs : fs.store_data n content = .ok fs') :
    Filled fs' := by
  have hm := h.modify n (storedInode fs.next_block content)
  refine ⟨by rw [store_data_next_ino hs]; exact h.two, fun m => ?_⟩
  rw [store_data_inodes hs, store_data_next_ino hs]
  exact hm.isSome m

/-- An act leaves the inodes filled up to the next one. -/
theorem Act.filled (h : Filled b.fs) (ha : Act P b b') : Filled b'.fs := by
  cases ha with
  | mkdir => exact ((h.allocated _).modify _ _).modify _ _
  | file _ _ hstore _ => exact (h.allocated _).store hstore
  | node => exact (h.allocated _).modify _ _
  | link => exact h.modify _ _
  | chmod => exact h.modify _ _

/-- At the start the root is the only one. -/
theorem rooted_filled (hroot : fs.next_ino = ROOTINO) (hempty : ∀ n, fs.inodes n = none) :
    Filled (rooted fs).fs := by
  refine Filled.modify ?_ _ _
  have hnext : (allocated fs (Int.lor S_IFDIR 0o755)).next_ino = 3 := congrArg (· + 1) hroot
  refine ⟨by omega, fun m => ?_⟩
  rw [isSome_allocated, hempty, hroot, hnext]
  simp only [Option.isSome_none, Bool.false_eq_true, or_false]
  unfold ROOTINO
  omega

/-! ## Their modes -/

/-- No inode has the mode zero. -/
def Moded (fs : Fs) : Prop := ∀ n mode, modeOf fs n = some mode → mode ≠ 0

/-- A mode with the type of a file in it is not zero. -/
theorem lor_ne_zero {x t : ℤ} {i : ℕ} (ht : t.testBit i = true) :
    Int.lor x t ≠ 0 ∧ Int.lor t x ≠ 0 := by
  have hbits : (Int.lor x t).testBit i = true ∧ (Int.lor t x).testBit i = true := by
    rw [Int.testBit_lor, Int.testBit_lor, ht, Bool.or_true, Bool.true_or]
    exact ⟨rfl, rfl⟩
  have hzero : Int.testBit 0 i = false := Nat.zero_testBit i
  constructor
  · intro h
    rw [h, hzero] at hbits
    cases hbits.1
  · intro h
    rw [h, hzero] at hbits
    cases hbits.2

/-- Modes that have not changed are still nonzero. -/
theorem Moded.congr (h : Moded fs) (hm : ∀ n, modeOf fs' n = modeOf fs n) : Moded fs' :=
  fun n mode hn => h n mode ((hm n).symm.trans hn)

/-- A new inode with a mode that is not zero. -/
theorem Moded.alloc (h : Moded fs) (hne : mode ≠ 0)
    (hm : ∀ n, modeOf fs' n = if n = fs.next_ino then some mode else modeOf fs n) : Moded fs' := by
  intro n k hn
  rw [hm] at hn
  split at hn
  · exact Option.some.inj hn ▸ hne
  · exact h n k hn

/-- A directory that is made has the mode of one. -/
theorem getdir_moded (ht : Tables b) (h : Moded b.fs) (hget : b.getdir limit path = .ok (b', n)) :
    Moded b'.fs := by
  induction limit generalizing path b' n with
  | zero => cases hget
  | succ limit ih =>
    cases hd : b.dirs.get? path with
    | some m =>
      obtain ⟨rfl, _⟩ := getdir_old hd hget
      exact h
    | none =>
      obtain ⟨limit', b₁, parent, hlimit, habove, hnew, hparent, hmake⟩ := getdir_new ht hget hd
      obtain rfl := Nat.succ.inj hlimit
      obtain ⟨ents, nm, _, _, _, _, rfl⟩ := makedir_eq hmake hnew hparent
      exact (ih habove).alloc (by decide) (modeOf_withDir b₁.fs parent)

/-- A file has the mode of one. -/
theorem addFile_moded (h : Moded b.fs) (hadd : b.addFile here f = .ok b') : Moded b'.fs := by
  cases hlink : f.islink with
  | true =>
    rw [addFile_link hlink hadd]
    exact h
  | false =>
    obtain ⟨fs', ents, _, _, hstore, rfl⟩ := addFile_eq hlink hadd
    refine h.alloc (lor_ne_zero (i := 15) (by decide)).2
      fun m => (modeOf_store hstore m).trans (modeOf_allocated b.fs _ m)

/-- A node has a type in its mode, and a link makes no inode. -/
theorem specEntry_moded {kind : Str} (h : Moded b.fs)
    (hspec : b.specEntry kind here name parts = .ok b') : Moded b'.fs := by
  unfold Build.specEntry at hspec
  split at hspec
  · obtain ⟨target, tents, k, _, _, _, hlink⟩ := specLink_eq hspec
    obtain ⟨ents, _, _, rfl⟩ := link_eq hlink
    refine h.congr fun m => modeOf_keep ?_ k m
    exact fun _ => rfl
  · obtain ⟨k, dev, ents, _, _, rfl⟩ := specNode_eq hspec
    have hne : Int.lor k (if kind = str "blk" then S_IFBLK else S_IFCHR) ≠ 0 := by
      refine (lor_ne_zero (i := 13) ?_).1
      split <;> decide
    refine h.alloc hne fun m => ?_
    refine (modeOf_keep ?_ b.fs.next_ino m).trans (modeOf_allocated b.fs _ m)
    exact fun _ => rfl

/-- A `dir` line may change the mode of its directory, and leaves the type. -/
theorem specDir_moded (ht : Tables b) (h : Moded b.fs)
    (hspec : b.specDir limit path parts = .ok b') : Moded b'.fs := by
  unfold Build.specDir at hspec
  obtain ⟨⟨b₁, m⟩, hdir, h₁⟩ := bind_eq_ok.mp hspec
  obtain ⟨mode, _, h₂⟩ := bind_eq_ok.mp h₁
  obtain ⟨d, _, h₃⟩ := bind_eq_ok.mp h₂
  cases h₃
  have hm := getdir_moded ht h hdir
  intro n k hn
  dsimp only at hn
  rw [modeOf_chmod] at hn
  split at hn
  · obtain ⟨old, _, rfl⟩ := Option.map_eq_some_iff.mp hn
    exact (lor_ne_zero (i := 14) (by decide)).2
  · exact hm n k hn

/-- So no spec line leaves an inode without a mode. -/
theorem applyLine_moded {line : Str} (ht : Tables b) (h : Moded b.fs)
    (hline : b.applyLine limit line = .ok b') : Moded b'.fs := by
  by_cases hblank : strip (uncomment line) = []
  · rw [applyLine_blank hline hblank]
    exact h
  · obtain ⟨kind, path, nm, _, _, _, hcase⟩ := applyLine_eq hline hblank
    split at hcase
    · exact specDir_moded ht h hcase
    · obtain ⟨b₁, d, hget, hentry⟩ := hcase
      exact specEntry_moded (getdir_moded ht h hget) hentry

/-- Tables and modes go through the walk together. -/
theorem addTree_moded {tree : Option HostTree} (ht : Tables b) (h : Moded b.fs)
    (hadd : b.addTree limit tree = .ok b') : Moded b'.fs := by
  cases tree with
  | none =>
    cases hadd
    exact h
  | some t =>
    refine (foldlM_invariant (I := fun c => Tables c ∧ Moded c.fs) (fun w _ c c' hc hone => ?_)
      ⟨ht, h⟩ hadd).2
    unfold Build.addDir at hone
    obtain ⟨⟨e, k⟩, hdir, hfiles⟩ := bind_eq_ok.mp hone
    have hte := (getdir_makes (N := fun _ => True) hc.1 (fun _ _ _ => trivial) hdir).leads.tables hc.1
    refine foldlM_invariant (I := fun c => Tables c ∧ Moded c.fs) (fun g _ a a' ha hadd => ?_)
      ⟨hte, getdir_moded hc.1 hc.2 hdir⟩ hfiles
    exact ⟨addFile_tables ha.1 hadd, addFile_moded ha.2 hadd⟩

variable {tree : Option HostTree} {spec : List Str} {now : ℤ} {nblocks ninodes : ℕ}

/-- The root has the mode of a directory. -/
theorem rooted_moded (hempty : ∀ n, fs.inodes n = none) : Moded (rooted fs).fs := by
  have hnone : Moded fs := by
    intro n mode hn
    unfold modeOf at hn
    rw [hempty] at hn
    cases hn
  have halloc : Moded (allocated fs (Int.lor S_IFDIR 0o755)) :=
    hnone.alloc (by decide) (modeOf_allocated fs _)
  refine halloc.congr fun m => modeOf_keep ?_ fs.next_ino m
  exact fun _ => rfl

/-- No inode of a build that completes has the mode zero. -/
theorem build_moded (h : build limit (Fs.init now nblocks ninodes) tree spec = .ok b) :
    Moded b.fs := by
  obtain ⟨b₁, b₂, hroot, _, htree, hlines, hfinish⟩ := build_phases h
  obtain ⟨done, hvisits⟩ := addTree_visits hroot htree
  have ht := hvisits.visited.tables
  have hm := addTree_moded (rooted_tables hroot) (rooted_moded fun _ => rfl) htree
  have hall := foldlM_invariant (I := fun c => Tables c ∧ Moded c.fs)
    (fun line _ _ _ hc hone =>
      ⟨(applyLine_leads (N := fun _ => True) hc.1 (fun _ _ _ _ _ => trivial) hone).tables hc.1,
        applyLine_moded hc.1 hc.2 hone⟩) ⟨ht, hm⟩ hlines
  exact hall.2.congr (finish_modes hfinish).1

/-! ## The i-list on disk -/

/-- The mode in a slot of the i-list. -/
def diskMode (d : Bytes) (n : ℕ) : ℕ := decode (slice (slot d n) 0 2)

/-- An inode that was never allocated has a cleared slot. -/
theorem slot_none (hi : Image fs d) (h1 : 1 ≤ n) (hn : n ≤ fs.ninodes)
    (h : fs.inodes n = none) : slot d n = List.replicate 64 0 := by
  have hslot := hi.slots n h1 hn
  unfold Fs.inodeWrite at hslot
  rw [h] at hslot
  exact (Prod.mk.inj (Except.ok.inj hslot)).2.symm

/-- Whose mode reads as zero. -/
theorem diskMode_none (h : slot d n = List.replicate 64 0) : diskMode d n = 0 := by
  unfold diskMode
  rw [h]
  rfl

/-- One that was allocated has its mode in its slot. -/
theorem diskMode_some {i : Inode} (hi : Image fs d) (h1 : 1 ≤ n) (hn : n ≤ fs.ninodes)
    (h : fs.inodes n = some i) : (diskMode d n : ℤ) = i.mode := by
  have hslot := hi.slots n h1 hn
  unfold Fs.inodeWrite at hslot
  rw [h] at hslot
  obtain ⟨blob, hblob, hpair⟩ := bind_eq_ok.mp hslot
  obtain rfl := (Prod.mk.inj (Except.ok.inj hpair)).2
  unfold Fs.pack_inode at hblob
  obtain ⟨mode, hmode, hblob⟩ := bind_eq_ok.mp hblob
  obtain ⟨nlink, _, hblob⟩ := bind_eq_ok.mp hblob
  obtain ⟨uid, _, hblob⟩ := bind_eq_ok.mp hblob
  obtain ⟨gid, _, hblob⟩ := bind_eq_ok.mp hblob
  obtain ⟨size, _, hblob⟩ := bind_eq_ok.mp hblob
  obtain ⟨time, _, hblob⟩ := bind_eq_ok.mp hblob
  have hlen : mode.length = 2 := Format.length_pack hmode
  have hpos : 0 ≤ i.mode := (Format.pack_range hmode).1
  have hs : slice (slot d n) 0 2 = mode := by
    rw [← Except.ok.inj hblob]
    simp only [List.append_assoc]
    exact slice_head hlen
  unfold diskMode
  rw [hs, Format.decode_pack (f := fmtH) (n := i.mode.toNat), Int.toNat_of_nonneg hpos]
  rw [Int.toNat_of_nonneg hpos]
  exact hmode

/-! ## The superblock -/

/-- `s_isize`. -/
def s_isize (d : Bytes) : ℕ := decode (slice (superblock d) 0 2)

/-- `s_fsize`. -/
def s_fsize (d : Bytes) : ℕ := decode (slice (superblock d) 4 4)

/-- `s_ninode`, which is signed. -/
def s_ninode (d : Bytes) : ℤ := fmth.value (slice (superblock d) 212 2)

/-- The entries of `s_inode` in use. -/
def s_inode (d : Bytes) : List ℕ :=
  (List.range (s_ninode d).toNat).map fun k => decode (slice (superblock d) (214 + k * 2) 2)

/-- `s_tinode`. -/
def s_tinode (d : Bytes) : ℕ := decode (slice (superblock d) 436 2)

/-- The numbers from the root to the end of the i-list with no mode on disk. -/
def freeInodes (d : Bytes) : List ℕ :=
  (List.range' 2 (16 * (s_isize d - 2) - 1)).filter fun n => diskMode d n = 0

/-- A field that is written without a sign reads back. -/
theorem decode_field {f : Field} {w : Bytes} {x : ℕ} (hpack : f.2.1.pack f.2.2 = .ok w)
    (hs : slice (superblock d) f.1 f.2.1.width = w) (hsign : f.2.1.signed = false)
    (hx : f.2.2 = x) : decode (slice (superblock d) f.1 f.2.1.width) = x := by
  rw [hx] at hpack
  obtain ⟨rfl, hlt⟩ := pack_nat hsign hpack
  rw [hs, decode_encode_of_lt hlt]

/-- The upper part of a range. -/
theorem filter_range' {a m c : ℕ} (hac : a ≤ c) (hcm : c ≤ a + m) :
    (List.range' a m).filter (c ≤ ·) = List.range' c (a + m - c) := by
  have hsplit : List.range' a m = List.range' a (c - a) ++ List.range' c (a + m - c) := by
    have happ : List.range' a (c - a) ++ List.range' (a + (c - a)) (a + m - c) =
        List.range' a (c - a + (a + m - c)) := List.range'_append_1
    rw [show a + (c - a) = c by omega, show c - a + (a + m - c) = m by omega] at happ
    exact happ.symm
  have hlow : (List.range' a (c - a)).filter (c ≤ ·) = [] := by
    refine List.filter_eq_nil_iff.mpr fun n hn => ?_
    rw [List.mem_range'_1] at hn
    simp only [decide_eq_true_eq]
    omega
  have hhigh : (List.range' c (a + m - c)).filter (c ≤ ·) = List.range' c (a + m - c) := by
    refine List.filter_eq_self.mpr fun n hn => ?_
    rw [List.mem_range'_1] at hn
    simp only [decide_eq_true_eq]
    exact hn.1
  rw [hsplit, List.filter_append, hlow, hhigh, List.nil_append]

/-- The superblock agrees with the i-list of the image. -/
structure Agrees (nblocks : ℤ) (b : Build) : Prop where
  fsize : s_fsize b.fs.data = nblocks
  /-- The i-list ends where block `s_isize` begins. -/
  isize : s_isize b.fs.data = b.fs.first_data ∧
    b.fs.ninodes = 16 * (s_isize b.fs.data - 2) ∧
    slotOff (b.fs.ninodes + 1) = s_isize b.fs.data * BSIZE
  /-- The modes on disk are those of the inodes allocated, all in the i-list. -/
  used : b.fs.next_ino ≤ b.fs.ninodes ∧ ∀ n, 1 ≤ n → n ≤ b.fs.ninodes →
    (diskMode b.fs.data n ≠ 0 ↔ 2 ≤ n ∧ n < b.fs.next_ino)
  zero : ∀ n, 1 ≤ n → n ≤ b.fs.ninodes → ¬(2 ≤ n ∧ n < b.fs.next_ino) →
    slot b.fs.data n = List.replicate 64 0
  ninode : s_ninode b.fs.data = min 100 (freeInodes b.fs.data).length
  inode : s_inode b.fs.data = (freeInodes b.fs.data).take 100
  increasing : (s_inode b.fs.data).Pairwise (· < ·)
  within : ∀ n ∈ s_inode b.fs.data, 2 ≤ n ∧ n ≤ b.fs.ninodes
  tinode : s_tinode b.fs.data = (freeInodes b.fs.data).length

/-- Whatever `main` writes, every field of its superblock reads back. -/
theorem main_superblock {nblocks : ℤ} {disktab : Bool}
    (h : main limit now nblocks tree spec disktab = .ok b) {f : Field}
    (hf : f ∈ b.fs.superFields) :
    ∃ w, f.2.1.pack f.2.2 = .ok w ∧ slice (superblock b.fs.data) f.1 f.2.1.width = w := by
  unfold main at h
  split at h
  · cases h
  obtain ⟨b₀, hbuild, hput⟩ := bind_eq_ok.mp h
  obtain ⟨b₂, fs₁, ws, hw⟩ := build_written (allNames_true spec) hbuild
  have htwo : 92 ≤ 2 * BSIZE := by decide
  obtain ⟨hb, _, hslices⟩ := putDisktab_eq hput (htwo.trans (Written.two_blocks hw))
  have hsuper : superblock b.fs.data = superblock b₀.fs.data := hslices _ _ (by decide)
  rw [hb] at hf
  rw [hsuper]
  exact build_superblock (allNames_true spec) hbuild hf

/-- The inodes of the image are those from the root to the last one allocated. -/
theorem Written.filled {N : Str → Prop} {ws : List (ℕ × Bytes)} {b₂ : Build}
    (h : Written N (Fs.init now nblocks ninodes) tree b₂ fs₁ ws b) : Filled fs₁ := by
  have hbefore : Filled b₂.fs :=
    h.before.leads.invariant (I := fun c => Filled c.fs) (fun _ _ hc ha => Act.filled hc ha)
      (rooted_filled h.before.root fun _ => rfl)
  refine foldlM_invariant (I := Filled) (fun p _ f f' hf hone => ?_) hbefore h.store
  obtain ⟨blob, m, _, _, hstore⟩ := storeDir_eq hone
  exact hf.store hstore

/-- The next inode is at most one past the last. -/
theorem Written.next_ino {N : Str → Prop} {ws : List (ℕ × Bytes)} {b₂ : Build} {fs₀ : Fs}
    (h : Written N fs₀ tree b₂ fs₁ ws b) : fs₁.next_ino ≤ fs₁.ninodes := by
  have hroom := (Written.numbered h).room
  have hnext : fs₁.next_ino = b₂.fs.next_ino := by
    refine foldlM_invariant (I := fun f => f.next_ino = b₂.fs.next_ino)
      (fun p _ f f' hf hone => ?_) rfl h.store
    obtain ⟨blob, m, _, _, hstore⟩ := storeDir_eq hone
    exact (store_data_next_ino hstore).trans hf
  rw [hnext, (storeDirs_shaped h.store).ninodes]
  exact hroom

/-- The modes in the i-list tell the inodes that have been allocated. -/
theorem diskMode_iff (hi : Image fs d) (hf : Filled fs) (hm : Moded fs) (h1 : 1 ≤ n)
    (hn : n ≤ fs.ninodes) : diskMode d n ≠ 0 ↔ 2 ≤ n ∧ n < fs.next_ino := by
  rw [← hf.isSome]
  cases hino : fs.inodes n with
  | none =>
    have hzero := diskMode_none (slot_none hi h1 hn hino)
    simp only [hzero, ne_eq, not_true_eq_false, Option.isSome_none, Bool.false_eq_true]
  | some i =>
    have hmode := diskMode_some hi h1 hn hino
    have hne : i.mode ≠ 0 := hm n i.mode (by unfold modeOf; rw [hino]; rfl)
    simp only [Option.isSome_some, iff_true]
    omega

/-- The free numbers are those from the next one to be allocated on. -/
theorem freeInodes_eq (hsize : 16 * (s_isize d - 2) = fs.ninodes) (htwo : 2 ≤ fs.next_ino)
    (hroom : fs.next_ino ≤ fs.ninodes)
    (hused : ∀ n, 1 ≤ n → n ≤ fs.ninodes → (diskMode d n ≠ 0 ↔ 2 ≤ n ∧ n < fs.next_ino)) :
    freeInodes d = List.range' fs.next_ino (fs.ninodes + 1 - fs.next_ino) := by
  have hfilter : freeInodes d = (List.range' 2 (fs.ninodes - 1)).filter (fs.next_ino ≤ ·) := by
    unfold freeInodes
    rw [hsize]
    refine List.filter_congr fun n hn => ?_
    rw [List.mem_range'_1] at hn
    have hmode := hused n (by omega) (by omega)
    refine decide_eq_decide.mpr ⟨fun hz => ?_, fun hle => ?_⟩
    · by_contra hlt
      exact hmode.mpr ⟨hn.1, by omega⟩ hz
    · by_contra hne
      have hlt := (hmode.mp hne).2
      omega
  rw [hfilter, filter_range' htwo (by omega), show 2 + (fs.ninodes - 1) = fs.ninodes + 1 by omega]

/-- The entries of `s_inode` are the numbers that `write_superblock` lists. -/
theorem s_inode_eq
    (hfield : ∀ f ∈ fs.superFields, ∃ w, f.2.1.pack f.2.2 = .ok w ∧
      slice (superblock d) f.1 f.2.1.width = w) :
    s_ninode d = fs.free_ino.length ∧ s_inode d = fs.free_ino := by
  have hcount : s_ninode d = fs.free_ino.length := by
    obtain ⟨w, hpack, hs⟩ := hfield (212, fmth, fs.free_ino.length) (by simp [Fs.superFields])
    change slice (superblock d) 212 2 = w at hs
    unfold s_ninode
    rw [hs, Format.value_pack hpack]
  refine ⟨hcount, ?_⟩
  unfold s_inode
  rw [hcount, Int.toNat_natCast]
  refine List.ext_getElem (by rw [List.length_map, List.length_range]) fun k hk hk' => ?_
  have hmem : (214 + k * 2, fmtH, (fs.free_ino[k] : ℤ)) ∈ fs.superFields := by
    have harr : (214 + k * 2, fmtH, (fs.free_ino[k] : ℤ)) ∈ arrayFields 214 fmtH fs.free_ino :=
      List.mem_mapIdx.mpr ⟨k, hk', rfl⟩
    rw [superFields_eq]
    simp [harr]
  obtain ⟨w, hpack, hs⟩ := hfield _ hmem
  rw [List.getElem_map, List.getElem_range]
  exact decode_field hpack hs rfl rfl

/-- The numbers of the superblock are those that `write_superblock` gives it. -/
theorem super_numbers
    (hfield : ∀ f ∈ fs.superFields, ∃ w, f.2.1.pack f.2.2 = .ok w ∧
      slice (superblock d) f.1 f.2.1.width = w) (hroom : fs.next_ino ≤ fs.ninodes) :
    s_isize d = fs.iblocks + 2 ∧ s_fsize d = fs.nblocks ∧
      s_tinode d = fs.ninodes + 1 - fs.next_ino := by
  refine ⟨?_, ?_, ?_⟩
  · obtain ⟨w, hpack, hs⟩ := hfield (0, fmtH, fs.iblocks + 2) (by simp [Fs.superFields])
    exact decode_field hpack hs rfl (x := fs.iblocks + 2) rfl
  · obtain ⟨w, hpack, hs⟩ := hfield (4, fmtI, fs.nblocks) (by simp [Fs.superFields])
    exact decode_field hpack hs rfl rfl
  · obtain ⟨w, hpack, hs⟩ := hfield (436, fmtH, fs.ninodes - fs.next_ino + 1)
      (by simp [Fs.superFields])
    refine decode_field hpack hs rfl (x := fs.ninodes + 1 - fs.next_ino) ?_
    dsimp only
    omega

/-- The counters of the image are those of the state that was written. -/
theorem Imaged.counters (h : Imaged b₀ b fs₁) :
    b.fs.next_ino = fs₁.next_ino ∧ Shaped fs₁ b.fs := by
  have hsame : b.fs = { b₀.fs with data := b.fs.data } := congrArg Build.fs h.header
  have hshape : Shaped b₀.fs b.fs := by
    rw [hsame]
    exact ⟨rfl, rfl, rfl, rfl, rfl, Nat.le_refl _⟩
  refine ⟨?_, h.same.shaped.trans hshape⟩
  rw [hsame]
  exact h.same.next_ino

/-- `main` refuses a negative number of blocks. -/
theorem main_nonneg {nblocks : ℤ} {disktab : Bool}
    (h : main limit now nblocks tree spec disktab = .ok b) : 0 ≤ nblocks := by
  unfold main at h
  split at h
  · cases h
  · next hneg => exact Int.not_lt.mp hneg

/-- The superblock agrees with the i-list on every image that `main` comes to
write. -/
theorem superblock_agrees {nblocks : ℤ} {disktab : Bool}
    (h : main limit now nblocks tree spec disktab = .ok b) : Agrees nblocks b := by
  have hfield := fun f hf => main_superblock (f := f) h hf
  obtain ⟨b₀, b₂, fs₁, ws, hbuild, hw, himage⟩ := main_imaged (allNames_true spec) h
  obtain ⟨hnext, hshape⟩ := Imaged.counters himage
  have hninodes := hshape.ninodes
  have hiblocks := hshape.iblocks
  have hfirst := hshape.first_data
  have hnblocks : b.fs.nblocks = nblocks.toNat := hshape.nblocks.trans hw.shape.1
  have hneg := main_nonneg h
  have hil := hw.ilist
  have hilist := hil.ninodes
  have hdata := hil.first_data
  have hI : INOPB = 16 := rfl
  have hB : BSIZE = 1024 := rfl
  rw [hI] at hilist
  have hfilled := Written.filled hw
  have hroom := Written.next_ino hw
  have hmoded : Moded fs₁ := (build_moded hbuild).congr fun n => by
    unfold modeOf
    rw [himage.same.inodes]
  have himg := himage.readable.image
  have hused := fun n h1 hn => diskMode_iff (n := n) himg hfilled hmoded h1 hn
  obtain ⟨hsuper, hfsize, htinode⟩ := super_numbers hfield
    (by rw [hnext, hninodes]; exact hroom)
  have hisize : s_isize b.fs.data = b.fs.first_data := by
    rw [hsuper, hiblocks, hfirst, hdata, Nat.add_comm]
  have hsize : 16 * (s_isize b.fs.data - 2) = b.fs.ninodes := by
    rw [hisize, hfirst, hninodes]
    omega
  have hfree : freeInodes b.fs.data =
      List.range' b.fs.next_ino (b.fs.ninodes + 1 - b.fs.next_ino) := by
    rw [hnext, hninodes]
    exact freeInodes_eq (hsize.trans hninodes) hfilled.two hroom hused
  have hlen : (freeInodes b.fs.data).length = b.fs.ninodes + 1 - b.fs.next_ino := by
    rw [hfree, List.length_range']
  have htaken : b.fs.free_ino = (freeInodes b.fs.data).take 100 := by
    rw [hfree]
    rfl
  obtain ⟨hcount, hlist⟩ := s_inode_eq hfield
  rw [htaken] at hcount hlist
  have htwo := hfilled.two
  refine ⟨?_, ⟨hisize, hsize.symm, ?_⟩, ⟨by omega, fun n h1 hn => ?_⟩, fun n h1 hn hnot => ?_, ?_,
    hlist, ?_, fun n hn => ?_, ?_⟩
  · rw [hfsize, hnblocks]
    omega
  · unfold slotOff
    rw [hisize, hfirst, hninodes, hB]
    omega
  · rw [hnext]
    exact hused n h1 (hninodes ▸ hn)
  · refine slot_none himg h1 (hninodes ▸ hn) (Option.not_isSome_iff_eq_none.mp fun hsome => hnot ?_)
    rw [hnext]
    exact (hfilled.isSome n).mp hsome
  · rw [hcount, List.length_take]
  · rw [hlist, hfree]
    exact (List.pairwise_lt_range' 1 Nat.zero_lt_one).sublist (List.take_sublist _ _)
  · rw [hlist, hfree] at hn
    have hmem := List.mem_range'_1.mp (List.mem_of_mem_take hn)
    omega
  · exact htinode.trans hlen.symm

/-- A small image with a directory from a spec line. -/
theorem superblock_agrees_small :
    ∃ b, main 9 0 40 none [str "dir /d 0755"] false = .ok b ∧ Agrees 40 b := by
  obtain ⟨b, hb⟩ := exists_of_isOk (x := main 9 0 40 none [str "dir /d 0755"] false)
    (by decide +kernel)
  exact ⟨b, hb, superblock_agrees hb⟩

end Sys16.MkfsFreeInodes
