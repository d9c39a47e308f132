import Mathlib.Data.List.TakeWhile
import Sys16.MkfsLinks
import Sys16.MkfsRead

/-!
# Reading a built image back

The image that `main` writes, read by `S5`: every directory lists the entries
that the build put in it, every inode has its fields, and every host file its
bytes. Block numbers fit their 24 bits because the superblock of a larger image
does not pack.
-/

namespace Sys16.MkfsRoundTrip

open ByteStore LittleEndian PyText PyStruct PyDict HostWalk Extents MkfsImage MkfsBlocks MkfsBuild
open MkfsActs MkfsWalk MkfsFinish MkfsLinks MkfsLedger MkfsInodes MkfsOwners S5Reader MkfsRead

variable {b b' : Build} {fs fs' fs₁ : Fs} {d blob : Bytes} {n k : ℕ} {name : Str}
  {ents : List Entry} {P : Rule}

/-! ## Directories -/

/-- A name up to its first zero, which is all that the reader sees of it. -/
def cut (name : Str) : Str := name.takeWhile (· ≠ 0)

/-- An entry as the reader sees it. -/
def cutEntry (e : Entry) : Entry := (e.1, cut e.2)

/-- A name without a NUL is read back whole. -/
theorem cut_of_notMem (h : 0 ∉ name) : cut name = name := by
  refine List.takeWhile_eq_self_iff.mpr fun c hc => ?_
  rw [decide_eq_true_eq]
  exact fun hzero => h (hzero ▸ hc)

/-- Entries without NULs are read back as they were. -/
theorem map_cutEntry (h : ∀ e ∈ ents, 0 ∉ e.2) : ents.map cutEntry = ents := by
  refine (List.map_congr_left fun e he => ?_).trans (List.map_id ents)
  exact Prod.ext rfl (cut_of_notMem (h e he))

/-- The name of an entry ends at its first zero byte. -/
theorem takeWhile_padded (nm : Bytes) (size : ℕ) :
    (pad size nm).takeWhile (· ≠ 0) = nm.takeWhile (· ≠ 0) := by
  unfold pad
  rw [List.takeWhile_append, List.takeWhile_replicate]
  split
  · next hlen =>
    rw [(List.takeWhile_prefix _).eq_of_length hlen]
    simp
  · rfl

/-- Cutting an encoded name cuts the name. -/
theorem decode_takeWhile {nm : Bytes} (h : encodeLatin1 name = .ok nm) :
    decodeLatin1 (nm.takeWhile (· ≠ 0)) = cut name := by
  have hdecode := decodeLatin1_encodeLatin1 h
  unfold decodeLatin1 at hdecode ⊢
  unfold cut
  rw [← hdecode, List.takeWhile_map]
  refine congrArg (List.map UInt8.toNat) (congrArg (List.takeWhile · nm) (funext fun c => ?_))
  refine decide_eq_decide.mpr (not_congr ⟨fun hc => ?_, fun hc => ?_⟩)
  · rw [hc]
    rfl
  · exact UInt8.toNat_inj.mp hc

/-- The reader undoes `dirent`, up to the first zero of the name. -/
theorem entryAt_dirent {e : Bytes} {o : ℕ} (h : dirent n name = .ok e)
    (hfit : o + 16 ≤ d.length) (hs : slice d o 16 = e) : entryAt d o = .ok (n, cut name) := by
  obtain ⟨num, nm, hnm, hlen, hnum, rfl⟩ := dirent_eq h
  have h2 : num.length = 2 := Format.length_pack hnum
  have hnum' : slice d o fmtH.width = num := by
    rw [show o = o + 0 from rfl, ← slice_slice d o 16 0 fmtH.width (by decide), hs]
    exact slice_head h2
  have hname : slice d (o + 2) 14 = pad DIRSIZ nm := by
    rw [← slice_slice d o 16 2 14 (by decide), hs, show (2 : ℕ) = 2 + 0 from rfl, slice_tail h2]
    exact slice_all (length_pad hlen)
  have hunpack := Format.unpack_of_slice hnum
    ((Nat.add_le_add_left (by decide) o).trans hfit) hnum'
  unfold entryAt
  rw [if_pos hfit, hunpack, hname, takeWhile_padded, decode_takeWhile hnm]
  rfl

/-- The entries of a directory read back from its contents. -/
theorem entries_of_blob (h : dirBlob ents = .ok blob) :
    (List.range (chunkCount 16 blob.length)).mapM (fun k => entryAt blob (k * 16)) =
      .ok (ents.map cutEntry) := by
  have hlen := length_dirBlob h
  have hcount : chunkCount 16 blob.length = ents.length := by
    unfold chunkCount
    omega
  obtain ⟨blobs, hall, hsizes, rfl⟩ := dirBlob_eq h
  have hvals : (List.range ents.length).map (fun k => cutEntry (ents.getD k (0, []))) =
      ents.map cutEntry := by
    refine List.ext_getElem (by simp) fun k hk hk' => ?_
    rw [List.length_map] at hk'
    rw [List.getElem_map, List.getElem_map, List.getElem_range, List.getD_eq_getElem _ _ hk']
  rw [hcount]
  refine (mapM_ok fun k hk => ?_).trans (congrArg Except.ok hvals)
  have hk' : k < ents.length := List.mem_range.mp hk
  have hkb : k < blobs.length := hall.length_eq ▸ hk'
  have hentry := List.forall₂_iff_get.mp hall |>.2 k hk' hkb
  rw [List.getD_eq_getElem _ _ hk']
  exact entryAt_dirent hentry (by omega) (slice_flatten hsizes hkb)

/-- Reading a directory gives the entries its blob was packed from, each name cut at its
NUL. -/
theorem readdir_eq {di : DiskInode} (hi : S5Reader.inode d n = .ok di)
    (hd : S5Reader.data d di = .ok blob) (h : dirBlob ents = .ok blob)
    (hpos : ∀ e ∈ ents, 0 < e.1) : readdir d n = .ok (ents.map cutEntry) := by
  have hfilter : (ents.map cutEntry).filter (fun e => e.1 ≠ 0) = ents.map cutEntry := by
    refine List.filter_eq_self.mpr fun x hx => ?_
    obtain ⟨e, he, rfl⟩ := List.mem_map.mp hx
    have hne : 0 < (cutEntry e).1 := hpos e he
    simp only [decide_eq_true_eq]
    omega
  unfold readdir
  rw [hi]
  change (S5Reader.data d di >>= fun b => _) = _
  rw [hd]
  change ((List.range (chunkCount 16 blob.length)).mapM (fun k => entryAt blob (k * 16)) >>=
    fun ents => _) = _
  rw [entries_of_blob h]
  exact congrArg Except.ok hfilter

/-! ## Inode numbers -/

/-- Inode numbers are positive and fit the i-list. -/
structure Numbered (b : Build) : Prop where
  tables : Tables b
  next_pos : 0 < b.fs.next_ino
  room : b.fs.next_ino ≤ b.fs.ninodes
  named_pos : ∀ m ∈ named b.entries, 0 < m

/-- One more entry with a number keeps the directories numbered. -/
theorem Numbered.append {path : Str} {e : Entry} (h : Numbered b)
    (hents : b.entries.get? path = some ents) (he : 0 < e.1) :
    ∀ m ∈ named (b.entries.set path (ents ++ [e])), 0 < m := by
  intro m hm
  rw [(perm_named_append hents).mem_iff, List.mem_cons] at hm
  rcases hm with rfl | hm
  · exact he
  · exact h.named_pos m hm

/-- Every act of the build keeps the directories numbered. -/
theorem Act.numbered (h : Numbered b) (ha : Act P b b') : Numbered b' := by
  have ht := ha.tables h.tables
  have hpos := h.next_pos
  cases ha with
  | @mkdir path parent_path name parent ents hnew hparent hents hroom hrule habove hname =>
    refine ⟨ht, Nat.succ_pos _, hroom, fun m hm => ?_⟩
    rw [(perm_named_mkdir _ _ h.tables hnew hents).mem_iff] at hm
    simp only [List.mem_cons] at hm
    rcases hm with rfl | rfl | rfl | hm
    · exact hpos
    · exact hpos
    · obtain ⟨dd, q, tail, hd, rfl⟩ := h.tables.dots parent_path ents hents
      rw [hparent] at hd
      obtain rfl := Option.some.inj hd
      exact h.named_pos _ (mem_named.mpr ⟨_, _, str ".", hents, List.mem_cons_self⟩)
    · exact h.named_pos m hm
  | @file here name mode content fs' ents hents hroom hstore hrule =>
    have hnext := store_data_next_ino hstore
    have hshape := store_data_shaped hstore
    have hsucc : (allocated b.fs mode).next_ino = b.fs.next_ino + 1 := rfl
    have hsame : (allocated b.fs mode).ninodes = b.fs.ninodes := rfl
    have hninodes := hshape.ninodes
    refine ⟨ht, ?_, ?_, h.append hents hpos⟩
    · dsimp only
      omega
    · dsimp only
      omega
  | node hents hroom hrule => exact ⟨ht, Nat.succ_pos _, hroom, h.append hents hpos⟩
  | link hents htarget hino hrule =>
    exact ⟨ht, hpos, h.room, h.append hents (h.named_pos _ htarget)⟩
  | chmod hd => exact ⟨ht, hpos, h.room, h.named_pos⟩

/-- The build starts with its directories numbered. -/
theorem rooted_numbered (hroot : fs.next_ino = ROOTINO) (hroom : fs.next_ino < fs.ninodes) :
    Numbered (rooted fs) := by
  refine ⟨rooted_tables hroot, Nat.succ_pos _, hroom, fun m hm => ?_⟩
  have hm' : m ∈ [ROOTINO, ROOTINO] := hm
  have hm'' : m = ROOTINO := by simpa using hm'
  rw [hm'']
  decide

/-! ## The image -/

/-- The header of `--disktab` covers the first 92 bytes only. -/
theorem putDisktab_eq {disktab : Bool} (h : putDisktab b disktab = .ok b')
    (hlen : 92 ≤ b.fs.data.length) :
    b' = { b with fs := { b.fs with data := b'.fs.data } } ∧
      b'.fs.data.length = b.fs.data.length ∧
      ∀ off n, 92 ≤ off → slice b'.fs.data off n = slice b.fs.data off n := by
  unfold putDisktab at h
  cases disktab with
  | false =>
    cases h
    exact ⟨rfl, rfl, fun _ _ _ => rfl⟩
  | true =>
    obtain ⟨header, hheader, h⟩ := bind_eq_ok.mp h
    have h92 := Mkdisk.length_disktab hheader
    obtain rfl := Except.ok.inj h
    refine ⟨rfl, ?_, fun off n hoff => ?_⟩
    · rw [List.length_append, List.length_drop, h92]
      omega
    · obtain ⟨k, rfl⟩ : ∃ k, off = 92 + k := ⟨off - 92, by omega⟩
      rw [slice_tail h92, slice, slice, List.drop_drop]

/-- An image agrees with another one past the disk header. -/
theorem Image.of_header {d' : Bytes} (h : Image fs₁ d) (hl : IList fs₁)
    (hlen : d'.length = d.length) (hs : ∀ off n, 92 ≤ off → slice d' off n = slice d off n) :
    Image fs₁ d' := by
  have h92 : 92 ≤ MkfsImage.SUPERBOFF + 512 := by decide
  refine ⟨hlen.trans h.length, fun n hn hle => ?_, fun k hk hlt => ?_⟩
  · have hslot : slot d' n = slot d n := hs _ _ (h92.trans (super_le_slot n))
    rw [hslot]
    exact h.slots n hn hle
  · have hblock : blockOf d' k = blockOf d k := hs _ _ (h92.trans (hl.super_le hk))
    rw [hblock]
    exact h.blocks k hk hlt

/-- What reading a file back needs of the state before the last writes. -/
structure Readable (fs₁ : Fs) (d : Bytes) : Prop where
  ledger : Ledger fs₁
  addressed : Addressed fs₁
  ilist : IList fs₁
  image : Image fs₁ d
  numbers : ∀ n i, fs₁.inodes n = some i → 1 ≤ n ∧ n ≤ fs₁.ninodes
  small : fs₁.nblocks < 2 ^ 24

/-- The reader finds each inode as the builder left it, addresses in the reader's width.
-/
theorem Readable.inode {i : Inode} (h : Readable fs₁ d) (hi : fs₁.inodes n = some i) :
    S5Reader.inode d n = .ok ⟨i.mode, i.nlink, i.uid, i.gid, i.size, i.addr.map readAddr⟩ := by
  obtain ⟨hpos, hle⟩ := h.numbers n i hi
  have hslot := h.image.slots n hpos hle
  unfold Fs.inodeWrite at hslot
  rw [hi] at hslot
  obtain ⟨blob, hblob, hpair⟩ := bind_eq_ok.mp hslot
  have hblob' : blob = slot d n := (Prod.mk.inj (Except.ok.inj hpair)).2
  rw [hblob'] at hblob
  exact inode_of_slot (h.addressed n i hi) hpos hblob

/-- Every address of a file is zero or one of the blocks it paid for. -/
theorem addrAt_lt (s : ℕ) (content : Bytes) (j : ℕ) :
    addrAt s (dataCount content) j = 0 ∨
      addrAt s (dataCount content) j < s + fileCost content := by
  have hdata : dataCount content ≤ fileCost content := Nat.le_add_right _ _
  unfold addrAt
  split
  · split
    · exact Or.inr (by omega)
    · exact Or.inl rfl
  · split
    · split
      · next h10 =>
        have hcost : dataCount content < fileCost content := by
          by_cases h266 : 10 + NINDIR < dataCount content
          · rw [fileCost_double h266]
            omega
          · rw [fileCost_single h10 (by omega)]
            omega
        exact Or.inr (by omega)
      · exact Or.inl rfl
    · split
      · split
        · next h266 =>
          rw [fileCost_double h266]
          exact Or.inr (by omega)
        · exact Or.inl rfl
      · exact Or.inl rfl

/-- A stored file reads back: the addresses of its inode and its bytes. -/
theorem Readable.file {ino : ℕ} {content : Bytes} (h : Readable fs₁ d)
    (hx : (ino, content) ∈ fs₁.stored) :
    ∃ i di, fs₁.inodes ino = some i ∧ S5Reader.inode d ino = .ok di ∧
      di.blk.map (fun k : ℕ => (k : ℤ)) = i.addr ∧ S5Reader.data d di = .ok content := by
  obtain ⟨s, hs⟩ := exists_mem_layout callCost hx fs₁.first_data
  obtain ⟨i, hi, hfile⟩ := h.ledger.inode s ino content hs
  obtain ⟨hfirst, hlast⟩ := layout_bounds hs
  have hlast' : s + fileCost content ≤ fs₁.next_block := by
    rw [h.ledger.next]
    exact hlast
  have hend := hlast'.trans h.ledger.fresh.room
  have hsmall := h.small
  have hheld := (h.ledger.held s ino content hs).congr fun k hk hk' =>
    h.image.blocks k (by omega) (by omega)
  have hne : s ≠ 0 := by
    have hdata := h.ilist.first_data
    omega
  have hfit : (s + fileCost content) * BSIZE ≤ d.length := by
    rw [h.image.length, h.ledger.fresh.size]
    exact Nat.mul_le_mul_right _ hend
  have hblk : i.addr.map readAddr = (List.range NADDR).map (addrAt s (dataCount content)) := by
    rw [hfile.2, fileAddr_eq, List.map_map]
    refine List.map_congr_left fun j _ => readAddr_nat ?_
    rcases addrAt_lt s content j with hzero | hlt
    · rw [hzero]
      decide
    · omega
  refine ⟨i, _, hi, h.inode hi, ?_, data_of_file hheld hne hfit ?_ hblk⟩
  · dsimp only
    rw [hblk, hfile.2, fileAddr_eq, List.map_map]
    rfl
  · dsimp only
    rw [hfile.1]

/-! ## The whole image -/

/-- An inode reads back with all its addresses. -/
def SameAddrs (b : Build) (n : ℕ) : Prop :=
  ∃ i di, b.fs.inodes n = some i ∧ S5Reader.inode b.fs.data n = .ok di ∧
    di.blk.map (fun k : ℕ => (k : ℤ)) = i.addr

/-- A host file reads back: the first entry with its name, in the directory it
is in, names an inode with its contents. -/
def FileReadsBack (b : Build) (here : List Str) (f : HostFile) : Prop :=
  ∃ ents ino di, b.entries.get? (imagePath here) = some ents ∧
    ents.find? (fun e => e.2 = f.name) = some (ino, f.name) ∧ SameAddrs b ino ∧
    S5Reader.inode b.fs.data ino = .ok di ∧ S5Reader.data b.fs.data di = .ok f.content

/-- Reading the image gives what the build put in. -/
structure ReadsBack (tree : Option HostTree) (b : Build) : Prop where
  sizes : ∃ s, S5Reader.sizes b.fs.data = .ok s
  entries : ∀ path ents, b.entries.get? path = some ents →
    ∃ d, b.dirs.get? path = some d ∧ SameAddrs b d ∧ readdir b.fs.data d = .ok ents
  inodes : ∀ n i, b.fs.inodes n = some i →
    ∃ di, S5Reader.inode b.fs.data n = .ok di ∧ di.mode = i.mode ∧ di.nlink = i.nlink ∧
      di.uid = i.uid ∧ di.gid = i.gid ∧ di.size = i.size
  files : ∀ here f, (here, f) ∈ treeFiles tree → f.islink = false → FileReadsBack b here f

/-- A name without zeros. -/
def NulFree (name : Str) : Prop := 0 ∉ name

/-- The parent of a path without NULs has none. -/
theorem parentPath_nulFree {path : Str} (h : NulFree path) : NulFree (parentPath path) := by
  have hsep : NulFree [sep] := (by decide : 0 ∉ [sep])
  unfold parentPath
  cases hr : rsplit path with
  | none =>
    dsimp only
    split
    · exact hsep
    · exact h
  | some r =>
    have hsplit := (rsplit_eq_some.mp hr).1
    dsimp only
    split
    · exact hsep
    · exact fun hmem => h (hsplit ▸ List.mem_append_left _ hmem)

/-- A path without NULs has no name with one. -/
theorem namesOn_nulFree {path : Str} (h : NulFree path) : NamesOn NulFree path := by
  intro k name hname
  induction k generalizing path with
  | zero =>
    obtain ⟨p, hp⟩ := lastName_eq_ok.mp hname
    have hsplit := (rsplit_eq_some.mp hp).1
    have hpath : path = p ++ sep :: name := hsplit
    exact fun hmem => h (hpath ▸ List.mem_append_right _ (List.mem_cons_of_mem _ hmem))
  | succ k ih => exact ih (parentPath_nulFree h) hname

/-- The paths of spec lines hold no zeros, so no name does. -/
theorem allNames_nulFree {spec : List Str}
    (h : ∀ line ∈ spec, ∀ path, part (specWords line) 1 = .ok path → NulFree path) :
    AllNames NulFree spec :=
  ⟨fun _ hname => hname.2.2.1, fun line hline path hpath => namesOn_nulFree (h line hline path hpath)⟩

/-- The build starts with no NUL in any name. -/
theorem rooted_nulFree : NamedWith NulFree (rooted fs) := by
  intro path ents e he hmem
  rcases rooted_names he hmem with hdot | hdot
  · exact Or.inl hdot
  · exact Or.inr (Or.inl hdot)

/-- In a build of such names no entry holds a NUL. -/
theorem NamedWith.nulFree (h : NamedWith NulFree b) {path : Str}
    (hents : b.entries.get? path = some ents) : ∀ e ∈ ents, 0 ∉ e.2 := by
  intro e he
  rcases h path ents e hents he with hdot | hdot | hname
  · rw [hdot]
    decide
  · rw [hdot]
    decide
  · exact hname

/-- The superblock of an image with more blocks than an address can say does not pack. -/
theorem nblocks_small {now : ℤ} {nblocks : ℕ}
    (h : (Fs.init now nblocks (inodeCount nblocks)).iblocks + 2 < 2 ^ 16) : nblocks < 2 ^ 24 := by
  have hiblocks : (Fs.init now nblocks (inodeCount nblocks)).iblocks =
      (inodeCount nblocks + 16 - 1) / 16 := rfl
  rw [hiblocks] at h
  have hle : (nblocks / 8 + 15) / 16 * 16 ≤ inodeCount nblocks := Nat.le_max_right _ _
  omega

section Written

variable {ws : List (ℕ × Bytes)} {b₂ : Build} {N : Str → Prop} {tree : Option HostTree}
  {now : ℤ} {nblocks ninodes : ℕ} {fs₀ : Fs}

/-- Whatever is written comes from numbered directories. -/
theorem Written.numbered (h : Written N fs₀ tree b₂ fs₁ ws b) : Numbered b₂ :=
  h.before.leads.invariant (fun _ _ hc ha => Act.numbered hc ha)
    (rooted_numbered h.before.root h.before.room)

/-- Inodes that a build has allocated are in the i-list. -/
theorem Written.numbers {i : Inode} (h : Written N (Fs.init now nblocks ninodes) tree b₂ fs₁ ws b)
    (hi : fs₁.inodes n = some i) : 1 ≤ n ∧ n ≤ fs₁.ninodes := by
  have hlinked : Linked b₂ :=
    Leads.linked h.before.leads (rooted_linked h.before.root fun _ => rfl)
  have hnum := Written.numbered h
  have hsome := (storeDir_links h.store).2 n
  rw [hi] at hsome
  have hnamed := (hlinked.allocated n).mp hsome.symm
  have hpos := hnum.named_pos n hnamed
  have hlt := h.before.tables.named_lt n hnamed
  have hroom := hnum.room
  have hninodes := (storeDirs_shaped h.store).ninodes
  exact ⟨hpos, by omega⟩

/-- A built image goes on past the superblock. -/
theorem Written.two_blocks (h : Written N fs₀ tree b₂ fs₁ ws b) :
    2 * BSIZE ≤ b.fs.data.length := by
  have hroom := h.ledger.fresh.room
  have hnext := h.ledger.next
  have hfirst := h.ilist.first_data
  rw [h.image.length, h.ledger.fresh.size]
  exact Nat.mul_le_mul_right _ (by omega)

/-- What `main` writes can be read. -/
theorem Written.readable
    (h : Written N (Fs.init now nblocks (inodeCount nblocks)) tree b₂ fs₁ ws b)
    (hlen : d.length = b.fs.data.length)
    (hs : ∀ off n, 92 ≤ off → slice d off n = slice b.fs.data off n) : Readable fs₁ d := by
  have hiblocks := h.isize
  rw [h.shape.2] at hiblocks
  have hsmall := nblocks_small hiblocks
  exact ⟨h.ledger, h.addressed, h.ilist, Image.of_header h.image h.ilist hlen hs,
    fun m i hi => Written.numbers h hi, by rw [h.shape.1]; exact hsmall⟩

end Written

/-- The constructor of the reader finds its two fields. -/
theorem sizes_ok (h : 2 * BSIZE ≤ d.length) : ∃ s, S5Reader.sizes d = .ok s := by
  have hH : S5Reader.SUPERBOFF + fmtH.width ≤ 2 * BSIZE := by decide
  have hI : S5Reader.SUPERBOFF + 4 + fmtI.width ≤ 2 * BSIZE := by decide
  unfold S5Reader.sizes
  rw [Format.unpack_nat rfl (hH.trans h), Format.unpack_nat rfl (hI.trans h)]
  exact ⟨_, rfl⟩

/-- The image that `main` comes to write, next to the build it is made from and
to the state in which the directories have been stored. -/
structure Imaged (b₀ b : Build) (fs₁ : Fs) : Prop where
  header : b = { b₀ with fs := { b₀.fs with data := b.fs.data } }
  same : SameTables fs₁ b₀.fs
  readable : Readable fs₁ b.fs.data
  long : 2 * BSIZE ≤ b.fs.data.length

/-- A completed `main` is a completed `build` whose filesystem was written and imaged. -/
theorem main_imaged {limit : ℕ} {now nblocks : ℤ} {tree : Option HostTree} {spec : List Str}
    {disktab : Bool} {N : Str → Prop} (hN : AllNames N spec)
    (h : main limit now nblocks tree spec disktab = .ok b) :
    ∃ b₀ b₂ fs₁ ws, build limit (Fs.init now nblocks.toNat (inodeCount nblocks.toNat)) tree spec =
        .ok b₀ ∧
      Written N (Fs.init now nblocks.toNat (inodeCount nblocks.toNat)) tree b₂ fs₁ ws b₀ ∧
      Imaged b₀ b fs₁ := by
  unfold main at h
  split at h
  · cases h
  obtain ⟨b₀, hbuild, hput⟩ := bind_eq_ok.mp h
  obtain ⟨b₂, fs₁, ws, hw⟩ := build_written hN hbuild
  have hlong := Written.two_blocks hw
  have htwo : 92 ≤ 2 * BSIZE := by decide
  obtain ⟨hb, hlen, hslices⟩ := putDisktab_eq hput (htwo.trans hlong)
  exact ⟨b₀, b₂, fs₁, ws, hbuild, hw, hb, hw.same, Written.readable hw hlen hslices, hlen ▸ hlong⟩

section Imaged

variable {b₀ b₂ : Build} {ws : List (ℕ × Bytes)} {tree : Option HostTree}

/-- Imaging leaves the inodes as the build wrote them. -/
theorem Imaged.inodes (h : Imaged b₀ b fs₁) : b.fs.inodes = fs₁.inodes := by
  rw [h.header]
  exact h.same.inodes

/-- Imaging leaves the record of stored files alone. -/
theorem Imaged.stored (h : Imaged b₀ b fs₁) : b.fs.stored = fs₁.stored := by
  rw [h.header]
  exact h.same.stored

/-- An inode reads back with its fields. -/
theorem Imaged.inode {i : Inode} (h : Imaged b₀ b fs₁) (hi : b.fs.inodes n = some i) :
    S5Reader.inode b.fs.data n =
      .ok ⟨i.mode, i.nlink, i.uid, i.gid, i.size, i.addr.map readAddr⟩ :=
  h.readable.inode (h.inodes ▸ hi)

/-- Stored contents read back, and so do the addresses of their inode. -/
theorem Imaged.file {content : Bytes} (h : Imaged b₀ b fs₁) (hx : (n, content) ∈ b.fs.stored) :
    SameAddrs b n ∧ ∃ di, S5Reader.inode b.fs.data n = .ok di ∧
      S5Reader.data b.fs.data di = .ok content := by
  obtain ⟨i, di, hi, hdi, haddr, hdata⟩ := h.readable.file (h.stored ▸ hx)
  exact ⟨⟨i, di, h.inodes ▸ hi, hdi, haddr⟩, di, hdi, hdata⟩

/-- The entries of a directory read back, each name up to its first zero. -/
theorem Imaged.cut_entries {N : Str → Prop} {path : Str} {fs₀ : Fs} (h : Imaged b₀ b fs₁)
    (hw : Written N fs₀ tree b₂ fs₁ ws b₀) (hents : b.entries.get? path = some ents) :
    ∃ m, b.dirs.get? path = some m ∧ SameAddrs b m ∧
      readdir b.fs.data m = .ok (ents.map cutEntry) := by
  have hdirs : b.dirs = b₂.dirs := by rw [h.header]; exact hw.tables.1
  have hentries : b.entries = b₂.entries := by rw [h.header]; exact hw.tables.2
  rw [hentries] at hents
  obtain ⟨⟨m, blob⟩, hmem, hd, hblob⟩ := exists_of_mem_left hw.dirs (Dict.get?_eq_some.mp hents)
  have hstored : (m, blob) ∈ b.fs.stored := by
    rw [h.stored, hw.stored]
    exact List.mem_append_right _ hmem
  obtain ⟨haddr, di, hdi, hdata⟩ := h.file hstored
  refine ⟨m, hdirs ▸ hd, haddr, readdir_eq hdi hdata hblob fun e he => ?_⟩
  exact (Written.numbered hw).named_pos e.1 (mem_named.mpr ⟨path, ents, e.2, hents, he⟩)

/-- The entries of a directory read back. -/
theorem Imaged.entries {path : Str} {fs₀ : Fs} (h : Imaged b₀ b fs₁)
    (hw : Written NulFree fs₀ tree b₂ fs₁ ws b₀) (hents : b.entries.get? path = some ents) :
    ∃ m, b.dirs.get? path = some m ∧ SameAddrs b m ∧ readdir b.fs.data m = .ok ents := by
  have hentries : b.entries = b₂.entries := by rw [h.header]; exact hw.tables.2
  have hnul := Leads.namedWith hw.before.leads (rooted_tables hw.before.root) rooted_nulFree
  obtain ⟨m, hd, haddr, hread⟩ := h.cut_entries hw hents
  rw [map_cutEntry (NamedWith.nulFree hnul (hentries ▸ hents))] at hread
  exact ⟨m, hd, haddr, hread⟩

end Imaged

/-- Decoding undoes encoding over the whole image: whenever `main` comes to
write the image, every directory, every inode and every host file reads back
from it as the build had it. -/
theorem image_reads_back {limit : ℕ} {now nblocks : ℤ} {tree : Option HostTree}
    {spec : List Str} {disktab : Bool}
    (hnames : ∀ line ∈ spec, ∀ path, part (specWords line) 1 = .ok path → NulFree path)
    (h : main limit now nblocks tree spec disktab = .ok b) : ReadsBack tree b := by
  obtain ⟨b₀, b₂, fs₁, ws, hbuild, hw, himage⟩ := main_imaged (allNames_nulFree hnames) h
  have hentries : b.entries = b₂.entries := by rw [himage.header]; exact hw.tables.2
  refine ⟨sizes_ok himage.long, fun path ents hents => himage.entries hw hents, fun n i hi => ?_,
    fun here f hf hlink => ?_⟩
  · exact ⟨_, himage.inode hi, rfl, rfl, rfl, rfl, rfl⟩
  · obtain ⟨ents, ino, hents, hfind, hmem⟩ := hw.before.files _ hf hlink
    have hstored : (ino, f.content) ∈ b.fs.stored := by
      rw [himage.stored, hw.stored]
      exact List.mem_append_left _ hmem
    obtain ⟨haddr, di, hdi, hdata⟩ := himage.file hstored
    exact ⟨ents, ino, di, hentries ▸ hents, hfind, haddr, hdi, hdata⟩

/-- A tree with a file of two blocks and a directory from a spec line, under a
disk header. -/
theorem image_reads_back_two_blocks :
    ∃ b, main 9 0 40 (some twoBlocks) [str "dir /d 0755"] true = .ok b ∧
      ReadsBack (some twoBlocks) b := by
  obtain ⟨b, hb⟩ := exists_of_isOk (x := main 9 0 40 (some twoBlocks) [str "dir /d 0755"] true)
    (by decide +kernel)
  refine ⟨b, hb, image_reads_back (fun line hline path hpath => ?_) hb⟩
  rw [List.mem_singleton.mp hline] at hpath
  have hword : part (specWords (str "dir /d 0755")) 1 = .ok (str "/d") := by decide
  rw [hword] at hpath
  rw [← Except.ok.inj hpath]
  exact (by decide : 0 ∉ str "/d")

end Sys16.MkfsRoundTrip
