import Sys16.Extents
import Sys16.MkfsFinish

/-!
# Where the files of a build are

The calls of `store_data` lay their files out one after the other from the
first data block on. Every act keeps the files on the image and their
addresses in the inodes, and a directory has no address before it is stored.
-/

namespace Sys16.MkfsLedger

open Function ByteStore PyText PyStruct PyDict HostWalk Extents MkfsImage MkfsBlocks MkfsFreeList
open MkfsBuild MkfsActs MkfsWalk MkfsFinish

variable {b b' : Build} {fs fs' : Fs} {n s ino : ℕ} {content : Bytes} {P : Rule}

/-- The addresses of an inode with no file. -/
def noAddr : List ℤ := List.replicate NADDR 0

/-- The blocks of one call of `store_data`. -/
def callCost (x : ℕ × Bytes) : ℕ := fileCost x.2

/-- The calls of `store_data`, each with the block it starts at. -/
def extents (fs : Fs) : List (ℕ × ℕ × Bytes) := layout callCost fs.first_data fs.stored

/-- The inode of a file at a block. -/
def FileInode (i : Inode) (s : ℕ) (content : Bytes) : Prop :=
  i.size = content.length ∧ i.addr = fileAddr s (dataCount content) noAddr

/-- The image and the inodes agree with the calls of `store_data` so far. -/
structure Ledger (fs : Fs) : Prop where
  fresh : Fresh fs
  next : fs.next_block = fs.first_data + total callCost fs.stored
  nodup : (fs.stored.map Prod.fst).Nodup
  lt : ∀ m ∈ fs.stored.map Prod.fst, m < fs.next_ino
  held : ∀ s ino content, (s, ino, content) ∈ extents fs → Holds fs.data s content
  inode : ∀ s ino content, (s, ino, content) ∈ extents fs →
    ∃ i, fs.inodes ino = some i ∧ FileInode i s content

/-- An inode with no file yet. -/
def Blank (fs : Fs) (n : ℕ) : Prop :=
  n ∉ fs.stored.map Prod.fst ∧ ∃ i, fs.inodes n = some i ∧ i.addr = noAddr

/-- An assignment that leaves the file of an inode alone. -/
def Keeps (f : Inode → Inode) : Prop := ∀ i, (f i).size = i.size ∧ (f i).addr = i.addr

/-- An extent belongs to a stored file. -/
theorem mem_stored_of_extents (h : (s, ino, content) ∈ extents fs) :
    ino ∈ fs.stored.map Prod.fst :=
  List.mem_map_of_mem (f := Prod.fst) (mem_of_mem_layout h)

/-- An assignment to an inode keeps the ledger when it keeps the file, or there is none. -/
theorem Ledger.modify {f : Inode → Inode} (h : Ledger fs)
    (hf : Keeps f ∨ n ∉ fs.stored.map Prod.fst) : Ledger (fs.modify n f) := by
  refine ⟨⟨h.fresh.size, h.fresh.room, h.fresh.clear⟩, h.next, h.nodup, h.lt, h.held, ?_⟩
  intro s ino content hx
  obtain ⟨i, hi, hfile⟩ := h.inode s ino content hx
  rw [inodes_modify]
  by_cases hn : ino = n
  · have hkeep : Keeps f := hf.resolve_right fun hnot => hnot (hn ▸ mem_stored_of_extents hx)
    rw [← hn, update_self, hi]
    refine ⟨f i, rfl, ?_, ?_⟩
    · rw [(hkeep i).1]
      exact hfile.1
    · rw [(hkeep i).2]
      exact hfile.2
  · rw [update_of_ne hn]
    exact ⟨i, hi, hfile⟩

/-- A new inode keeps the ledger. -/
theorem Ledger.allocated (h : Ledger fs) (mode : ℤ) : Ledger (allocated fs mode) := by
  refine ⟨⟨h.fresh.size, h.fresh.room, h.fresh.clear⟩, h.next, h.nodup,
    fun m hm => Nat.lt_succ_of_lt (h.lt m hm), h.held, ?_⟩
  intro s ino content hx
  have hlt := h.lt ino (mem_stored_of_extents hx)
  rw [inodes_allocated, update_of_ne (by omega)]
  exact h.inode s ino content hx

/-- A new inode is blank. -/
theorem blank_allocated (h : Ledger fs) (mode : ℤ) : Blank (allocated fs mode) fs.next_ino := by
  refine ⟨fun hm => Nat.lt_irrefl _ (h.lt _ hm), Inode.new mode 0 0, ?_, rfl⟩
  rw [inodes_allocated, update_self]

/-- Allocating an inode leaves the blank ones blank. -/
theorem Blank.allocated (h : Blank fs n) (hn : n ≠ fs.next_ino) (mode : ℤ) :
    Blank (allocated fs mode) n := by
  obtain ⟨hnot, i, hi, haddr⟩ := h
  refine ⟨hnot, i, ?_, haddr⟩
  rw [inodes_allocated, update_of_ne hn]
  exact hi

/-- A change to another inode, or one that keeps size and addresses, leaves a blank inode
blank. -/
theorem Blank.modify {f : Inode → Inode} {m : ℕ} (h : Blank fs n) (hf : Keeps f ∨ n ≠ m) :
    Blank (fs.modify m f) n := by
  obtain ⟨hnot, i, hi, haddr⟩ := h
  by_cases hn : n = m
  · have hkeep : Keeps f := hf.resolve_right fun hne => hne hn
    refine ⟨hnot, f i, ?_, (hkeep i).2.trans haddr⟩
    rw [inodes_modify, hn, update_self, ← hn, hi]
    rfl
  · refine ⟨hnot, i, ?_, haddr⟩
    rw [inodes_modify, update_of_ne hn]
    exact hi

/-- A file stored in an inode without one takes the next blocks. -/
theorem Ledger.store (h : Ledger fs) (hstore : fs.store_data ino content = .ok fs')
    (hblank : Blank fs ino) (hlt : ino < fs.next_ino) :
    Ledger fs' ∧ fs'.stored = fs.stored ++ [(ino, content)] := by
  obtain ⟨hnot, i, hi, haddr⟩ := hblank
  have hs := store_data_stores hstore h.fresh
  obtain ⟨hnb, _, hfirst, _, hnext, _⟩ := hs.shape
  have hext : extents fs' = extents fs ++ [(fs.next_block, ino, content)] := by
    unfold extents
    rw [hs.stored, hfirst, layout_concat, h.next]
  have hfst : fs'.stored.map Prod.fst = fs.stored.map Prod.fst ++ [ino] := by
    rw [hs.stored, List.map_append]
    rfl
  have hbefore : ∀ s m c, (s, m, c) ∈ extents fs → s + fileCost c ≤ fs.next_block := by
    intro s m c hx
    rw [h.next]
    exact (layout_bounds hx).2
  refine ⟨⟨hs.fresh, ?_, ?_, ?_, ?_, ?_⟩, hs.stored⟩
  · rw [hs.next, hs.stored, hfirst, total_append, total_cons, total_nil, h.next]
    simp only [callCost]
    omega
  · rw [hfst]
    refine List.nodup_append.mpr ⟨h.nodup, List.nodup_singleton _, fun a ha x hx => ?_⟩
    rw [List.mem_singleton.mp hx]
    exact fun he => hnot (he ▸ ha)
  · intro m hm
    rw [hfst, List.mem_append, List.mem_singleton] at hm
    rw [hnext]
    rcases hm with hm | rfl
    · exact h.lt m hm
    · exact hlt
  · intro s m c hx
    rw [hext, List.mem_append, List.mem_singleton] at hx
    rcases hx with hx | hx
    · have hle := hbefore s m c hx
      exact (h.held s m c hx).congr fun k _ hk => hs.blocks k (by omega)
    · cases hx
      exact hs.holds
  · intro s m c hx
    rw [hext, List.mem_append, List.mem_singleton] at hx
    rw [hs.inodes]
    rcases hx with hx | hx
    · have hne : m ≠ ino := fun he => hnot (he ▸ mem_stored_of_extents hx)
      rw [update_of_ne hne]
      exact h.inode s m c hx
    · cases hx
      rw [update_self, hi]
      refine ⟨storedInode fs.next_block content i, rfl, rfl, ?_⟩
      unfold storedInode
      rw [haddr]

/-- Other inodes without a file stay so. -/
theorem Blank.store (h : Blank fs n) (hfresh : Fresh fs)
    (hstore : fs.store_data ino content = .ok fs') (hne : n ≠ ino) : Blank fs' n := by
  obtain ⟨hnot, i, hi, haddr⟩ := h
  have hs := store_data_stores hstore hfresh
  refine ⟨?_, i, ?_, haddr⟩
  · rw [hs.stored, List.map_append, List.mem_append, not_or]
    exact ⟨hnot, by simpa using hne⟩
  · rw [hs.inodes, update_of_ne hne]
    exact hi

/-! ## The ledger of a build -/

/-- The files are in the ledger, and the directories have not been stored. -/
structure Booked (b : Build) : Prop where
  tables : Tables b
  ledger : Ledger b.fs
  dirs : ∀ path d, b.dirs.get? path = some d → Blank b.fs d

/-- A new link count keeps size and addresses. -/
theorem keeps_nlink (g : Inode → ℕ) : Keeps fun i => { i with nlink := g i } := fun _ => ⟨rfl, rfl⟩

/-- A new mode keeps size and addresses. -/
theorem keeps_mode (mode : ℤ) : Keeps fun i => { i with mode := mode } := fun _ => ⟨rfl, rfl⟩

/-- Every act keeps the ledger. -/
theorem Act.booked (h : Booked b) (ha : Act P b b') : Booked b' := by
  have ht := Act.tables h.tables ha
  have hne : ∀ path d, b.dirs.get? path = some d → d ≠ b.fs.next_ino := by
    intro path d hd he
    have hlt := h.tables.dirs_lt path d hd
    omega
  cases ha with
  | @mkdir path parent_path name parent ents hnew hparent hents hroom hrule habove hname =>
    have hledger := h.ledger.allocated (Int.lor S_IFDIR 0o755)
    have hkeep := keeps_nlink fun _ => 2
    have hkeep' := keeps_nlink fun i => i.nlink + 1
    refine ⟨ht, (hledger.modify (Or.inl hkeep)).modify (Or.inl hkeep'), fun p d hd => ?_⟩
    refine Blank.modify (Blank.modify ?_ (Or.inl hkeep)) (Or.inl hkeep')
    rcases Dict.get?_set_eq_some.mp hd with ⟨_, rfl⟩ | ⟨_, hold⟩
    · exact blank_allocated h.ledger _
    · exact (h.dirs p d hold).allocated (hne p d hold) _
  | @file here name mode content fs' ents hents hroom hstore hrule =>
    have hledger := h.ledger.allocated mode
    have hblank := blank_allocated h.ledger mode
    refine ⟨ht, (hledger.store hstore hblank (Nat.lt_succ_self _)).1, fun p d hd => ?_⟩
    exact ((h.dirs p d hd).allocated (hne p d hd) mode).store hledger.fresh hstore (hne p d hd)
  | @node parent_path name mode dev ents hents hroom hrule =>
    have hledger := h.ledger.allocated mode
    have hblank := blank_allocated h.ledger mode
    refine ⟨ht, hledger.modify (Or.inr hblank.1), fun p d hd => ?_⟩
    exact ((h.dirs p d hd).allocated (hne p d hd) mode).modify (Or.inr (hne p d hd))
  | link hents htarget hino hrule =>
    have hkeep := keeps_nlink fun i => i.nlink + 1
    exact ⟨ht, h.ledger.modify (Or.inl hkeep), fun p d hd => (h.dirs p d hd).modify (Or.inl hkeep)⟩
  | @chmod path d mode hd =>
    have hkeep := keeps_mode mode
    exact ⟨ht, h.ledger.modify (Or.inl hkeep), fun p d hd => (h.dirs p d hd).modify (Or.inl hkeep)⟩

/-- Every way the build goes on keeps it booked. -/
theorem Leads.booked (h : Leads P b b') (hb : Booked b) : Booked b' :=
  h.invariant (fun _ _ hk ha => Act.booked hk ha) hb

/-- Storing the directories adds them to the ledger, each with its contents. -/
theorem storeDirs_ledger {items : List (Str × List Entry)} (ht : Tables b)
    (hkeys : (items.map Prod.fst).Nodup) (hledger : Ledger fs)
    (hblank : ∀ p ∈ items, ∀ d, b.dirs.get? p.1 = some d → Blank fs d)
    (hnext : fs.next_ino = b.fs.next_ino) (h : items.foldlM b.storeDir fs = .ok fs') :
    Ledger fs' ∧ ∃ ws, List.Forall₂
        (fun p w => b.dirs.get? p.1 = some w.1 ∧ dirBlob p.2 = .ok w.2) items ws ∧
      fs'.stored = fs.stored ++ ws := by
  induction items generalizing fs with
  | nil =>
    cases h
    exact ⟨hledger, [], List.Forall₂.nil, (List.append_nil _).symm⟩
  | cons p items ih =>
    rw [List.foldlM_cons] at h
    obtain ⟨f, hone, hrest⟩ := bind_eq_ok.mp h
    obtain ⟨blob, d, hblob, hd, hstore⟩ := storeDir_eq hone
    obtain ⟨hp, hkeys'⟩ := List.nodup_cons.mp hkeys
    have hlt := ht.dirs_lt p.1 d hd
    obtain ⟨hledger', hstored⟩ :=
      hledger.store hstore (hblank p List.mem_cons_self d hd) (by omega)
    have hblank' : ∀ q ∈ items, ∀ m, b.dirs.get? q.1 = some m → Blank f m := by
      intro q hq m hm
      refine (hblank q (List.mem_cons_of_mem p hq) m hm).store hledger.fresh hstore ?_
      rintro rfl
      have he := Dict.key_unique ht.inj hm hd
      exact hp (he ▸ List.mem_map_of_mem (f := Prod.fst) hq)
    obtain ⟨hfinal, ws, hall, hws⟩ := ih hkeys' hledger' hblank'
      ((store_data_next_ino hstore).trans hnext) hrest
    refine ⟨hfinal, (d, blob) :: ws, hall.cons ⟨hd, hblob⟩, ?_⟩
    rw [hws, hstored, List.append_assoc]
    rfl

/-! ## The ledger at the end -/

/-- A filesystem just made has stored nothing. -/
theorem fresh_init {now : ℤ} {nblocks ninodes : ℕ}
    (hroom : (Fs.init now nblocks ninodes).first_data ≤ nblocks) :
    Fresh (Fs.init now nblocks ninodes) := by
  refine ⟨List.length_replicate, hroom, fun k _ hk => ?_⟩
  have hfit : k * BSIZE + BSIZE ≤ nblocks * BSIZE := block_fits hk
  have hdata : (Fs.init now nblocks ninodes).data = List.replicate (nblocks * BSIZE) 0 := rfl
  unfold blockOf slice
  rw [hdata, List.drop_replicate, List.take_replicate, Nat.min_eq_left (by omega)]

/-- A filesystem just made has its ledger in order. -/
theorem ledger_init (now : ℤ) {nblocks ninodes : ℕ}
    (hroom : (Fs.init now nblocks ninodes).first_data ≤ nblocks) :
    Ledger (Fs.init now nblocks ninodes) :=
  ⟨fresh_init hroom, rfl, List.nodup_nil, nofun, nofun, nofun⟩

/-- The build starts booked. -/
theorem rooted_booked (hroot : fs.next_ino = ROOTINO) (h : Ledger fs) : Booked (rooted fs) := by
  have hkeep := keeps_nlink fun _ => 2
  refine ⟨rooted_tables hroot, (h.allocated _).modify (Or.inl hkeep), fun path d hd => ?_⟩
  have hd' := List.mem_singleton.mp (Dict.get?_eq_some.mp hd)
  rw [(Prod.mk.inj hd').2, ← hroot]
  exact (blank_allocated h _).modify (Or.inl hkeep)

end Sys16.MkfsLedger
