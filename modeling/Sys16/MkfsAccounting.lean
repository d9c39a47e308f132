import Sys16.MkfsOwners

/-!
# What `store_data` costs, and when it succeeds

`store_data` succeeds exactly when the file needs no triple indirection, its
blocks are still there to be allocated, and the block numbers that go into its
indirect blocks are 32-bit numbers. On success the allocator has moved by
exactly the blocks of the file, and the inode and the indirect blocks give the
data blocks in order.
-/

namespace Sys16.MkfsAccounting

open Function ByteStore LittleEndian PyText PyStruct MkfsImage MkfsBlocks MkfsLedger MkfsOwners

variable {fs fs' : Fs} {bufs : List Bytes} {words : List ℕ} {ino c k n : ℕ} {content : Bytes}

/-! ## When the parts succeed -/

section Except

variable {ε : Type*} {α β : Type} {x : Except ε α} {f : α → Except ε β} {P Q : Prop}

/-- A sequence of two computations completes when the first does and the
second does on its result. -/
theorem bind_completes (hx : (∃ a, x = .ok a) ↔ P)
    (hf : ∀ a, x = .ok a → ((∃ r, f a = .ok r) ↔ Q)) : (∃ r, x >>= f = .ok r) ↔ P ∧ Q := by
  constructor
  · rintro ⟨r, h⟩
    obtain ⟨a, ha, hr⟩ := bind_eq_ok.mp h
    exact ⟨hx.mp ⟨a, ha⟩, (hf a ha).mp ⟨r, hr⟩⟩
  · rintro ⟨hp, hq⟩
    obtain ⟨a, ha⟩ := hx.mpr hp
    obtain ⟨r, hr⟩ := (hf a ha).mpr hq
    exact ⟨r, bind_eq_ok.mpr ⟨a, ha, hr⟩⟩

/-- What follows a computation and cannot fail does not matter. -/
theorem bind_completes_of_forall (hf : ∀ a, x = .ok a → ∃ r, f a = .ok r) :
    (∃ r, x >>= f = .ok r) ↔ ∃ a, x = .ok a := by
  rw [bind_completes Iff.rfl fun a ha => iff_true_intro (hf a ha)]
  exact and_iff_left trivial

/-- An early return leaves the rest to complete otherwise. -/
theorem ite_completes {c : Prop} [Decidable c] {a : α} :
    (∃ r, (if c then .ok a else x) = .ok r) ↔ (¬c → ∃ r, x = .ok r) := by
  split
  · next h => exact ⟨fun _ hc => absurd h hc, fun _ => ⟨a, rfl⟩⟩
  · next h => exact ⟨fun hr _ => hr, fun hr => hr h⟩

end Except

/-- Appending buffers moves the next block by their number and leaves the size alone. -/
theorem Appends.next_eq (h : Appends fs fs' bufs) :
    fs'.next_block = fs.next_block + bufs.length ∧ fs'.nblocks = fs.nblocks := by
  rw [h.eq]
  exact ⟨rfl, rfl⟩

/-- `put` of at most one block always completes. -/
theorem put_completes {buf : Bytes} (fs : Fs) (a : ℕ) (hb : buf.length ≤ BSIZE) :
    ∃ fs', fs.put a buf = .ok fs' := by
  unfold Fs.put
  rw [if_pos hb]
  exact ⟨_, rfl⟩

/-- `alloc_block` completes exactly when a block is left. -/
theorem alloc_block_completes :
    (∃ r, fs.alloc_block = .ok r) ↔ fs.next_block < fs.nblocks := by
  unfold Fs.alloc_block
  split
  · exact ⟨nofun, fun h => by omega⟩
  · exact ⟨fun _ => by omega, fun _ => ⟨_, rfl⟩⟩

/-- One block is put when there is one left. -/
theorem putNew_completes {buf : Bytes} (hb : buf.length ≤ BSIZE) :
    (∃ r, fs.putNew buf = .ok r) ↔ fs.next_block < fs.nblocks := by
  rw [← alloc_block_completes, Fs.putNew]
  refine bind_completes_of_forall fun p _ => ?_
  obtain ⟨fs₂, hput⟩ := put_completes p.1 p.2 hb
  exact ⟨_, bind_eq_ok.mpr ⟨fs₂, hput, rfl⟩⟩

/-- The data loop completes when there are blocks for all of its chunks. -/
theorem putAll_completes (hb : ∀ buf ∈ bufs, buf.length ≤ BSIZE) :
    (∃ r, fs.putAll bufs = .ok r) ↔ bufs.length ≤ fs.nblocks - fs.next_block := by
  induction bufs generalizing fs with
  | nil => exact ⟨fun _ => Nat.zero_le _, fun _ => ⟨_, rfl⟩⟩
  | cons buf bufs ih =>
    have hhead := hb buf List.mem_cons_self
    have htail : ∀ c ∈ bufs, c.length ≤ BSIZE := fun c hc => hb c (List.mem_cons_of_mem buf hc)
    have hstep : ∀ p, fs.putNew buf = .ok p →
        ((∃ r, p.1.putAll bufs = .ok r) ↔ bufs.length ≤ fs.nblocks - (fs.next_block + 1)) := by
      rintro ⟨fs₁, a⟩ hnew
      obtain ⟨hnext, hn⟩ := Appends.next_eq (putNew_eq hnew).2
      rw [ih htail, hnext, hn]
      rfl
    rw [Fs.putAll, List.length_cons]
    refine (bind_completes (putNew_completes hhead) fun p hp =>
      (bind_completes_of_forall fun q _ => ⟨_, rfl⟩).trans (hstep p hp)).trans ?_
    omega

/-- Numbers pack into words when they are 32-bit numbers. -/
theorem packWords_completes :
    (∃ b, packWords words = .ok b) ↔ ∀ w ∈ words, w < 2 ^ 32 := by
  constructor
  · rintro ⟨b, hb⟩
    exact (packWords_eq hb).2
  · intro hw
    refine ⟨_, map_eq_ok.mpr ⟨_, mapM_ok (g := encode 4) fun w hm => ?_, rfl⟩⟩
    have hlt : (w : ℤ) < 2 ^ 32 := by exact_mod_cast hw w hm
    have hlow : fmtI.low = 0 := rfl
    have hpow : (256 : ℤ) ^ fmtI.width = 2 ^ 32 := rfl
    unfold Format.pack
    rw [hlow, hpow, if_pos ⟨by omega, by omega⟩, Int.emod_eq_of_lt (by omega) hlt,
      Int.toNat_natCast]
    rfl

/-- An indirect block is put when there is a block left and its numbers fit. -/
theorem putWords_completes (hlen : words.length ≤ NINDIR) :
    (∃ r, fs.putWords words = .ok r) ↔
      fs.next_block < fs.nblocks ∧ ∀ w ∈ words, w < 2 ^ 32 := by
  have hN : NINDIR * 4 = BSIZE := rfl
  rw [Fs.putWords]
  refine bind_completes alloc_block_completes fun p _ => ?_
  rw [← packWords_completes]
  refine bind_completes_of_forall fun buf hbuf => ?_
  have hsmall : buf.length ≤ BSIZE := by
    rw [(packWords_eq hbuf).1, length_wordBytes]
    omega
  obtain ⟨fs₂, hput⟩ := put_completes p.1 p.2 hsmall
  exact ⟨_, bind_eq_ok.mpr ⟨fs₂, hput, rfl⟩⟩

/-- The loop under the double-indirect block completes when there are blocks
for its parts, all of them fit one block of addresses, and their numbers fit. -/
theorem putOuter_completes {parts : List (List ℕ)} {outer : List ℕ}
    (hp : ∀ ws ∈ parts, ws.length ≤ NINDIR) (hle : outer.length ≤ NINDIR) :
    (∃ r, fs.putOuter parts outer = .ok r) ↔ parts.length ≤ fs.nblocks - fs.next_block ∧
      outer.length + parts.length ≤ NINDIR ∧ Words32 parts := by
  induction parts generalizing fs outer with
  | nil => exact ⟨fun _ => ⟨Nat.zero_le _, hle, by simp [Words32]⟩, fun _ => ⟨_, rfl⟩⟩
  | cons ws parts ih =>
    have hhead := hp ws List.mem_cons_self
    have htail : ∀ vs ∈ parts, vs.length ≤ NINDIR := fun vs hv => hp vs (List.mem_cons_of_mem ws hv)
    have hcons : Words32 (ws :: parts) ↔ (∀ w ∈ ws, w < 2 ^ 32) ∧ Words32 parts :=
      List.forall_mem_cons
    have hstep : ∀ p, fs.putWords ws = .ok p →
        ((∃ r, (if NINDIR < (outer ++ [p.2]).length then
            .error (.exit (str "file needs triple indirection; not implemented"))
          else p.1.putOuter parts (outer ++ [p.2])) = .ok r) ↔
        parts.length ≤ fs.nblocks - (fs.next_block + 1) ∧
          outer.length + 1 + parts.length ≤ NINDIR ∧ Words32 parts) := by
      rintro ⟨fs₁, a⟩ hput
      obtain ⟨hnext, hn⟩ := Appends.next_eq (putWords_eq hput).2.2
      have hlen : (outer ++ [a]).length = outer.length + 1 := by
        rw [List.length_append, List.length_singleton]
      dsimp only
      split
      · exact ⟨nofun, fun ⟨_, h, _⟩ => by omega⟩
      · next hlt => rw [ih htail (Nat.not_lt.mp hlt), hnext, hn, hlen, List.length_singleton]
    rw [Fs.putOuter, List.length_cons, hcons]
    refine (bind_completes (putWords_completes hhead) hstep).trans ?_
    constructor
    · rintro ⟨⟨hlt, hw⟩, h1, h2, h3⟩
      exact ⟨by omega, by omega, hw, h3⟩
    · rintro ⟨h1, h2, hw, h3⟩
      exact ⟨⟨by omega, hw⟩, by omega, by omega, h3⟩

/-- No chunk is longer than the chunk size. -/
theorem length_of_mem_chunks {α : Type*} {l part : List α} (h : part ∈ chunks k l) :
    part.length ≤ k := by
  unfold chunks at h
  obtain ⟨i, _, rfl⟩ := List.mem_map.mp h
  exact List.length_take_le _ _

/-- The double indirect part takes one block for each chunk and one for their table. -/
theorem length_doubleWords (a c k : ℕ) :
    (doubleWords a c k).length = chunkCount NINDIR k + 1 := by
  rw [doubleWords, List.length_append, length_chunks, List.length_range', List.length_singleton]

/-- `store_double` completes exactly when the blocks are there, the table holds the chunks
and every number fits a word. -/
theorem store_double_completes :
    (∃ r, fs.store_double ino (List.range' c k) = .ok r) ↔
      (doubleWords fs.next_block c k).length ≤ fs.nblocks - fs.next_block ∧
        chunkCount NINDIR k ≤ NINDIR ∧ Words32 (doubleWords fs.next_block c k) := by
  have hlen : (chunks NINDIR (List.range' c k)).length = chunkCount NINDIR k := by
    rw [length_chunks, List.length_range']
  have hwords : Words32 (doubleWords fs.next_block c k) ↔ Words32 (chunks NINDIR (List.range' c k)) ∧
      ∀ w ∈ List.range' fs.next_block (chunkCount NINDIR k), w < 2 ^ 32 := by
    unfold Words32 doubleWords
    rw [List.forall_mem_append, List.forall_mem_singleton]
  have houter : (∃ r, fs.putOuter (chunks NINDIR (List.range' c k)) [] = .ok r) ↔
      chunkCount NINDIR k ≤ fs.nblocks - fs.next_block ∧ chunkCount NINDIR k ≤ NINDIR ∧
        Words32 (chunks NINDIR (List.range' c k)) := by
    rw [putOuter_completes (fun ws hws => length_of_mem_chunks hws) (Nat.zero_le _), hlen,
      List.length_nil, Nat.zero_add]
  -- the outer list holds the blocks that the loop has just put
  have hlast : ∀ p, fs.putOuter (chunks NINDIR (List.range' c k)) [] = .ok p →
      ((∃ r, p.1.putWords p.2 = .ok r) ↔ fs.next_block + chunkCount NINDIR k < fs.nblocks ∧
        ∀ w ∈ List.range' fs.next_block (chunkCount NINDIR k), w < 2 ^ 32) := by
    rintro ⟨fs₁, outer⟩ h
    obtain ⟨rfl, hle, _, happ⟩ := putOuter_eq h (Nat.zero_le _)
    obtain ⟨hnext, hn⟩ := Appends.next_eq happ
    rw [putWords_completes hle, hnext, hn, List.nil_append, List.length_map, hlen]
  rw [Fs.store_double, length_doubleWords, hwords]
  refine (bind_completes houter fun p hp =>
    (bind_completes_of_forall fun q _ => ⟨_, rfl⟩).trans (hlast p hp)).trans ?_
  constructor
  · rintro ⟨⟨h1, h2, h3⟩, h4, h5⟩
    exact ⟨by omega, h2, h3, h5⟩
  · rintro ⟨h1, h2, h3, h5⟩
    exact ⟨⟨by omega, h2, h3⟩, by omega, h5⟩

/-- `store_single` completes exactly when the blocks are there, the tables hold the rest
and every number fits a word. -/
theorem store_single_completes :
    (∃ r, fs.store_single ino (List.range' c k) = .ok r) ↔
      (singleWords fs.next_block c k).length ≤ fs.nblocks - fs.next_block ∧
        chunkCount NINDIR (k - NINDIR) ≤ NINDIR ∧ Words32 (singleWords fs.next_block c k) := by
  have hle : (List.range' c (min NINDIR k)).length ≤ NINDIR := by
    rw [List.length_range']
    exact Nat.min_le_left _ _
  have hdouble : ∀ p, fs.putWords (List.range' c (min NINDIR k)) = .ok p →
      ((∃ r, (p.1.modify ino fun i => { i with addr := i.addr.set 10 p.2 }).store_double ino
        (List.range' (c + NINDIR) (k - NINDIR)) = .ok r) ↔
      (doubleWords (fs.next_block + 1) (c + NINDIR) (k - NINDIR)).length ≤
          fs.nblocks - (fs.next_block + 1) ∧ chunkCount NINDIR (k - NINDIR) ≤ NINDIR ∧
        Words32 (doubleWords (fs.next_block + 1) (c + NINDIR) (k - NINDIR))) := by
    rintro ⟨fs₁, ib⟩ h
    obtain ⟨hnext, hn⟩ := Appends.next_eq (putWords_eq h).2.2
    rw [List.length_singleton] at hnext
    rw [store_double_completes, modify_next_block, hnext, ← hn]
    rfl
  rw [Fs.store_single, take_range', drop_range']
  refine (bind_completes (putWords_completes hle) fun p hp =>
    ite_completes.trans (imp_congr_right fun _ => hdouble p hp)).trans ?_
  unfold Words32
  by_cases hk : k - NINDIR = 0
  · rw [singleWords, if_pos hk, List.forall_mem_singleton, List.length_singleton, hk]
    constructor
    · rintro ⟨⟨hlt, hw⟩, _⟩
      exact ⟨by omega, Nat.zero_le _, hw⟩
    · rintro ⟨h1, _, hw⟩
      exact ⟨⟨by omega, hw⟩, fun hne => absurd List.range'_zero hne⟩
  · rw [singleWords, if_neg hk, List.forall_mem_cons, List.length_cons]
    constructor
    · rintro ⟨⟨hlt, hw⟩, hrest⟩
      obtain ⟨h1, h2, h3⟩ := hrest (mt range'_eq_nil.mp hk)
      exact ⟨by omega, h2, hw, h3⟩
    · rintro ⟨h1, h2, hw, h3⟩
      exact ⟨⟨by omega, hw⟩, fun _ => ⟨by omega, h2, h3⟩⟩

/-- A file is stored when there are blocks for all of it, it needs no triple
indirection, and the numbers in its indirect blocks fit. -/
theorem store_data_completes :
    (∃ r, fs.store_data ino content = .ok r) ↔
      fileCost content ≤ fs.nblocks - fs.next_block ∧
        outerCount (dataCount content) ≤ NINDIR ∧
        Words32 (indirectWords fs.next_block (dataCount content)) := by
  have hcost := length_fileBlocks fs.next_block content
  rw [fileBlocks, List.length_append, List.length_map, length_data] at hcost
  have hdata : (∃ r, ((Fs.logged fs ino content).modify ino
      fun i => { i with size := content.length }).putAll (chunks BSIZE content) = .ok r) ↔
      dataCount content ≤ fs.nblocks - fs.next_block := by
    rw [putAll_completes fun buf hb => length_of_mem_chunks hb, length_data]
    rfl
  have hrest : ∀ p, ((Fs.logged fs ino content).modify ino
      fun i => { i with size := content.length }).putAll (chunks BSIZE content) = .ok p →
      ((∃ r, (if p.2.drop 10 = [] then
          .ok (p.1.modify ino fun i => { i with addr := setAddrs i.addr (p.2.take 10) })
        else (p.1.modify ino fun i => { i with addr := setAddrs i.addr (p.2.take 10) }).store_single
          ino (p.2.drop 10)) = .ok r) ↔
      (dataCount content - 10 ≠ 0 →
        (indirectWords fs.next_block (dataCount content)).length ≤
            fs.nblocks - (fs.next_block + dataCount content) ∧
          outerCount (dataCount content) ≤ NINDIR ∧
          Words32 (indirectWords fs.next_block (dataCount content)))) := by
    rintro ⟨fs₁, blocks⟩ h
    obtain ⟨rfl, happ⟩ := putAll_eq h
    obtain ⟨hnext, hn⟩ := Appends.next_eq happ
    rw [length_data] at hnext ⊢
    dsimp only
    rw [drop_range']
    refine ite_completes.trans ((imp_congr (not_congr range'_eq_nil) Iff.rfl).trans
      (imp_congr_right fun hk => ?_))
    rw [store_single_completes, modify_next_block, hnext, indirectWords, if_neg hk]
    change _ ≤ fs₁.nblocks - _ ∧ _ ↔ _
    rw [hn]
    rfl
  rw [Fs.store_data]
  refine (bind_completes hdata hrest).trans ?_
  by_cases hk : dataCount content - 10 = 0
  · have hwords : indirectWords fs.next_block (dataCount content) = [] := by
      rw [indirectWords, if_pos hk]
    have houter : outerCount (dataCount content) = 0 := by
      rw [outerCount, hk]
      rfl
    rw [hwords, List.length_nil, Nat.add_zero] at hcost
    rw [hwords, houter, ← hcost]
    constructor
    · rintro ⟨h, _⟩
      exact ⟨h, Nat.zero_le _, List.forall_mem_nil _⟩
    · rintro ⟨h, _⟩
      exact ⟨h, absurd hk⟩
  · constructor
    · rintro ⟨h0, hsingle⟩
      obtain ⟨h1, h2, h3⟩ := hsingle hk
      exact ⟨by omega, h2, h3⟩
    · rintro ⟨h1, h2, h3⟩
      exact ⟨by omega, fun _ => ⟨by omega, h2, h3⟩⟩

/-! ## The states of an allocator -/

/-- The states an `Fs` can come to: it is made, inodes are allocated, files are
stored, and fields of inodes are assigned. -/
inductive Reached : Fs → Prop where
  | init (now : ℤ) (nblocks ninodes : ℕ) : Reached (Fs.init now nblocks ninodes)
  | alloc_inode {fs fs' : Fs} {mode : ℤ} {uid gid n : ℕ} :
    Reached fs → fs.alloc_inode mode uid gid = .ok (fs', n) → Reached fs'
  | store_data {fs fs' : Fs} {ino : ℕ} {content : Bytes} :
    Reached fs → fs.store_data ino content = .ok fs' → Reached fs'
  | modify {fs : Fs} (n : ℕ) (f : Inode → Inode) : Reached fs → Reached (fs.modify n f)

/-- What holds of the allocator all along: the image has all its blocks, those
not yet allocated are zero, and the first two are never given out. -/
structure Sound (fs : Fs) : Prop where
  size : fs.data.length = fs.nblocks * BSIZE
  clear : ∀ k, fs.next_block ≤ k → k < fs.nblocks → blockOf fs.data k = List.replicate BSIZE 0
  past : 2 ≤ fs.next_block

/-- A filesystem just made is sound. -/
theorem sound_init (now : ℤ) (nblocks ninodes : ℕ) : Sound (Fs.init now nblocks ninodes) := by
  refine ⟨List.length_replicate, fun k _ hk => ?_, Nat.le_add_right _ _⟩
  have hfit : k * BSIZE + BSIZE ≤ nblocks * BSIZE := block_fits hk
  have hdata : (Fs.init now nblocks ninodes).data = List.replicate (nblocks * BSIZE) 0 := rfl
  unfold blockOf slice
  rw [hdata, List.drop_replicate, List.take_replicate, Nat.min_eq_left (by omega)]

/-- A file without blocks leaves the image and the allocator as they were. -/
theorem store_data_nothing (h : fs.store_data ino content = .ok fs')
    (h0 : fileCost content = 0) : fs'.data = fs.data ∧ fs'.next_block = fs.next_block ∧
      fs'.nblocks = fs.nblocks := by
  obtain ⟨fs₁, happ, _, rfl⟩ := store_data_eq h
  have hnil : fileBlocks fs.next_block content = [] := by
    rw [← List.length_eq_zero_iff, length_fileBlocks, h0]
  rw [hnil] at happ
  rw [happ.eq]
  exact ⟨rfl, rfl, rfl⟩

/-- There is room for a file with blocks that has been stored. -/
theorem store_data_room (h : fs.store_data ino content = .ok fs') (h0 : fileCost content ≠ 0) :
    fs.next_block ≤ fs.nblocks := by
  have hle := (store_data_completes.mp ⟨fs', h⟩).1
  omega

/-- Storing a file keeps the filesystem sound. -/
theorem Sound.store_data (hs : Sound fs) (h : fs.store_data ino content = .ok fs') : Sound fs' := by
  by_cases h0 : fileCost content = 0
  · obtain ⟨hd, hnext, hn⟩ := store_data_nothing h h0
    refine ⟨by rw [hd, hn, hs.size], ?_, by rw [hnext]; exact hs.past⟩
    rw [hd, hnext, hn]
    exact hs.clear
  · have hst := store_data_stores h ⟨hs.size, store_data_room h h0, hs.clear⟩
    refine ⟨hst.fresh.size, hst.fresh.clear, ?_⟩
    have hpast := hs.past
    rw [hst.next]
    omega

/-- Every allocator state is sound. -/
theorem Reached.sound (h : Reached fs) : Sound fs := by
  induction h with
  | init now nblocks ninodes => exact sound_init now nblocks ninodes
  | alloc_inode _ h ih =>
    unfold Fs.alloc_inode at h
    split at h
    · cases h
    · cases h
      exact ⟨ih.size, ih.clear, ih.past⟩
  | store_data _ h ih => exact ih.store_data h
  | modify n f _ ih => exact ⟨ih.size, ih.clear, ih.past⟩

/-! ## The account of one file -/

/-- The blocks of a file of `n` data blocks. -/
def cost (n : ℕ) : ℕ :=
  n + (if 10 < n then 1 else 0) + (if 266 < n then (n - 266 + 255) / 256 + 1 else 0)

/-- The block numbers that go into the indirect blocks of a file of `n` data
blocks at block `a` are 32-bit numbers. -/
def Addressable (a n : ℕ) : Prop :=
  (10 < n → a + n ≤ 2 ^ 32) ∧ (266 < n → a + n + (n - 266 + 255) / 256 < 2 ^ 32)

/-- The number of outer chunks in arithmetic form. -/
theorem outerCount_eq (n : ℕ) : outerCount n = (n - 266 + 255) / 256 := by
  unfold outerCount chunkCount NINDIR BSIZE
  omega

/-- A file costs its data blocks and the indirect blocks over them. -/
theorem fileCost_eq (content : Bytes) : fileCost content = cost (dataCount content) := by
  have hN : NINDIR = 256 := rfl
  unfold fileCost cost
  dsimp only
  rw [outerCount_eq, hN]
  split_ifs <;> omega

/-- The double indirect table suffices exactly for files of up to 10 + 256 + 65536 blocks.
-/
theorem outerCount_le (n : ℕ) : outerCount n ≤ NINDIR ↔ n ≤ 10 + 256 + 256 * 256 := by
  have hN : NINDIR = 256 := rfl
  rw [outerCount_eq, hN]
  omega

/-- A nonempty range lies below a bound exactly when its end does. -/
theorem forall_range'_lt {a m b : ℕ} (hm : 0 < m) :
    (∀ w ∈ List.range' a m, w < b) ↔ a + m ≤ b := by
  constructor
  · intro h
    have hlast := h (a + (m - 1)) (List.mem_range'_1.mpr (by omega))
    omega
  · intro h w hw
    have hb := List.mem_range'_1.mp hw
    omega

/-- The chunks of a list hold its elements. -/
theorem forall_chunks {l : List ℕ} {b : ℕ} :
    (∀ part ∈ chunks NINDIR l, ∀ w ∈ part, w < b) ↔ ∀ w ∈ l, w < b := by
  have hflat : (chunks NINDIR l).flatten = l := by
    rw [chunks, ← List.flatMap_def, flatMap_slices,
      List.take_of_length_le (chunkCount_mul_ge (by decide) l.length)]
  conv_rhs => rw [← hflat]
  constructor
  · intro h w hw
    obtain ⟨part, hpart, hmem⟩ := List.mem_flatten.mp hw
    exact h part hpart w hmem
  · intro h part hpart w hw
    exact h w (List.mem_flatten.mpr ⟨part, hpart, hw⟩)

/-- The numbers in the indirect blocks are consecutive, so the last ones decide. -/
theorem words32_indirectWords (a n : ℕ) : Words32 (indirectWords a n) ↔ Addressable a n := by
  have hN : NINDIR = 256 := rfl
  unfold Words32 indirectWords Addressable
  by_cases h1 : n - 10 = 0
  · rw [if_pos h1]
    exact ⟨fun _ => ⟨fun _ => by omega, fun _ => by omega⟩, fun _ => by simp⟩
  · rw [if_neg h1, singleWords, List.forall_mem_cons, forall_range'_lt (by omega)]
    by_cases h2 : n - 10 - NINDIR = 0
    · rw [if_pos h2, hN]
      exact ⟨fun h => ⟨fun _ => by omega, fun _ => by omega⟩,
        fun h => ⟨by omega, by simp⟩⟩
    · have ho : chunkCount NINDIR (n - 10 - NINDIR) = (n - 266 + 255) / 256 := outerCount_eq n
      rw [if_neg h2, doubleWords, List.forall_mem_append, List.forall_mem_singleton, forall_chunks,
        ho, forall_range'_lt (by omega), forall_range'_lt (by omega), hN]
      exact ⟨fun h => ⟨fun _ => by omega, fun _ => by omega⟩,
        fun h => ⟨by omega, by omega, by omega⟩⟩

/-- The addresses of a file of `n` data blocks at block `a`, and what the
indirect blocks on the image hold. -/
structure Addressed (d : Bytes) (a n : ℕ) (i : Inode) : Prop where
  length : i.addr.length = 13
  /-- The levels in use. -/
  levels : ∀ k < 13, i.addr.getD k 0 ≠ 0 ↔
    k < min n 10 ∨ (k = 10 ∧ 10 < n) ∨ (k = 11 ∧ 266 < n)
  direct : ∀ k < min n 10, addrOf i k = a + k
  /-- The single-indirect block: the data blocks from the tenth on, then zeros. -/
  single : 10 < n → ∀ k < 256,
    word d (addrOf i 10) k = if 10 + k < n then a + (10 + k) else 0
  /-- The double-indirect block: the blocks under it, then zeros. -/
  double : 266 < n → ∀ k < 256,
    word d (addrOf i 11) k = if 266 + 256 * k < n then a + n + 1 + k else 0
  /-- The blocks under it: the data blocks that follow, then zeros. -/
  outer : ∀ k, 266 + 256 * k < n → ∀ j < 256,
    word d (word d (addrOf i 11) k) j =
      if 266 + (256 * k + j) < n then a + (266 + (256 * k + j)) else 0

/-- The account of a call of `store_data`. -/
structure Accounted (fs fs' : Fs) (ino : ℕ) (content : Bytes) : Prop where
  next : fs'.next_block = fs.next_block + cost (dataCount content)
  inode : ∃ i, fs'.inodes ino = some i ∧ i.size = content.length ∧
    Addressed fs'.data fs.next_block (dataCount content) i
  /-- The data block of each number holds its part of the content. -/
  data : ∀ k < dataCount content,
    blockOf fs'.data (fs.next_block + k) = pad BSIZE (slice content (k * BSIZE) BSIZE)

/-- The inode of a stored file, whether or not it has blocks. -/
theorem store_data_inode (hb : Blank fs ino) (h : fs.store_data ino content = .ok fs') :
    ∃ i, fs'.inodes ino = some i ∧ FileInode i fs.next_block content := by
  obtain ⟨_, i, hi, haddr⟩ := hb
  obtain ⟨fs₁, happ, _, rfl⟩ := store_data_eq h
  refine ⟨storedInode fs.next_block content i, ?_, rfl, ?_⟩
  · rw [happ.eq]
    show update fs.inodes ino ((fs.inodes ino).map _) ino = _
    rw [update_self, hi]
    rfl
  · unfold storedInode
    rw [haddr]

/-- An address slot is used exactly where the file reaches it. -/
theorem addrAt_ne_zero {a : ℕ} (ha : 2 ≤ a) (n k : ℕ) :
    addrAt a n k ≠ 0 ↔ k < min n 10 ∨ (k = 10 ∧ 10 < n) ∨ (k = 11 ∧ 266 < n) := by
  have hN : NINDIR = 256 := rfl
  unfold addrAt
  split_ifs <;> omega

/-- An inode of a file whose blocks are on the image is addressed level by level. -/
theorem addressed {d : Bytes} {a : ℕ} {i : Inode} (ha : 2 ≤ a) (hi : FileInode i a content)
    (hh : dataCount content = 0 ∨ Holds d a content) : Addressed d a (dataCount content) i := by
  have hN : NINDIR = 256 := rfl
  have haddr := hi.2.trans (fileAddr_eq a (dataCount content))
  have hlevel : ∀ k < 13, i.addr.getD k 0 = (addrAt a (dataCount content) k : ℤ) := by
    intro k hk
    have hrange : (List.range NADDR)[k]? = some k := List.getElem?_range hk
    rw [haddr, List.getD_eq_getElem?_getD, List.getElem?_map, hrange]
    rfl
  have hten : 10 < dataCount content → addrOf i 10 = a + dataCount content := by
    intro hn
    rw [addrOf_eq hi (by decide), addrAt_single, if_pos hn]
  refine ⟨?_, ?_, ?_, ?_, ?_, ?_⟩
  · rw [haddr, List.length_map, List.length_range]
    rfl
  · intro k hk
    rw [hlevel k hk, Nat.cast_ne_zero]
    exact addrAt_ne_zero ha _ k
  · intro k hk
    have hk13 : k < NADDR := Nat.lt_of_lt_of_le hk (Nat.le_trans (Nat.min_le_right _ _) (by decide))
    rw [addrOf_eq hi hk13, addrAt_direct _ _ (by omega), if_pos (by omega)]
  · intro hn k hk
    obtain hz | hh := hh
    · omega
    rw [hten hn, hh.single hn k (by omega)]
    split_ifs <;> omega
  · intro hn k hk
    obtain hz | hh := hh
    · omega
    have heleven : addrOf i 11 = a + dataCount content + 1 + outerCount (dataCount content) := by
      rw [addrOf_eq hi (by decide), addrAt_double, if_pos (by omega)]
    rw [heleven, hh.double (by omega) k (by omega), outerCount_eq]
    split_ifs <;> omega
  · intro k hk j hj
    obtain hz | hh := hh
    · omega
    have ho : k < outerCount (dataCount content) := by
      rw [outerCount_eq]
      omega
    rw [outer_word hh hi ho, hh.outer k ho j (by omega), hN]
    split_ifs <;> omega

/-- A completed `store_data` leaves the file accounted for, block by block. -/
theorem accounted (hs : Sound fs) (hb : Blank fs ino) (h : fs.store_data ino content = .ok fs') :
    Accounted fs fs' ino content := by
  obtain ⟨i, hi, hfile⟩ := store_data_inode hb h
  by_cases h0 : fileCost content = 0
  · have hn : dataCount content = 0 := by
      rw [fileCost_eq] at h0
      unfold cost at h0
      omega
    refine ⟨?_, ⟨i, hi, hfile.1, addressed hs.past hfile (Or.inl hn)⟩, fun k hk => by omega⟩
    rw [(store_data_nothing h h0).2.1, ← fileCost_eq, h0]
    rfl
  · have hst := store_data_stores h ⟨hs.size, store_data_room h h0, hs.clear⟩
    refine ⟨?_, ⟨i, hi, hfile.1, addressed hs.past hfile (Or.inr hst.holds)⟩, hst.holds.data⟩
    rw [hst.next, fileCost_eq]

/-- From every state of the allocator, for an inode without a file and every
content: `store_data` succeeds exactly when the content needs no triple
indirection, its blocks remain, and the numbers in its indirect blocks are
32-bit numbers; and what it leaves is accounted for. -/
theorem store_data_exact (hr : Reached fs) (hb : Blank fs ino) (content : Bytes) :
    ((∃ fs', fs.store_data ino content = .ok fs') ↔
      dataCount content ≤ 10 + 256 + 256 * 256 ∧
        cost (dataCount content) ≤ fs.nblocks - fs.next_block ∧
        Addressable fs.next_block (dataCount content)) ∧
    ∀ fs', fs.store_data ino content = .ok fs' → Accounted fs fs' ino content := by
  refine ⟨?_, fun fs' h => accounted hr.sound hb h⟩
  rw [store_data_completes, fileCost_eq, outerCount_le, words32_indirectWords]
  exact and_left_comm

/-! ## Two allocators -/

/-- The first inode of an image. -/
def firstInode (nblocks ninodes : ℕ) : Fs :=
  { Fs.init 0 nblocks ninodes with
    next_ino := 3
    inodes := update (fun _ => none) 2 (some (.new 0 0 0)) }

/-- The filesystem after its first allocation is reached, and its inode is blank. -/
theorem firstInode_reached (nblocks ninodes : ℕ) (h : 32 < ninodes) :
    Reached (firstInode nblocks ninodes) ∧ Blank (firstInode nblocks ninodes) 2 := by
  have hlt : ¬(Fs.init 0 nblocks ninodes).ninodes ≤ (Fs.init 0 nblocks ninodes).next_ino := by
    show ¬(ninodes + 16 - 1) / 16 * 16 ≤ 2
    omega
  have halloc : (Fs.init 0 nblocks ninodes).alloc_inode 0 0 0 =
      .ok (firstInode nblocks ninodes, 2) := by
    unfold Fs.alloc_inode
    rw [if_neg hlt]
    rfl
  exact ⟨.alloc_inode (.init 0 nblocks ninodes) halloc, List.not_mem_nil, .new 0 0 0, rfl, rfl⟩

/-- A file of 267 blocks, the first of the image: three more blocks go into its
single-indirect block and the two levels of its double-indirect block. -/
theorem store_data_exact_indirect :
    ∃ fs', (firstInode 400 64).store_data 2 (List.replicate 272385 7) = .ok fs' ∧
      fs'.next_block = (firstInode 400 64).next_block + 270 ∧
      Accounted (firstInode 400 64) fs' 2 (List.replicate 272385 7) := by
  have hn : dataCount (List.replicate 272385 7) = 267 := by
    unfold dataCount
    rw [List.length_replicate]
    rfl
  have hnext : (firstInode 400 64).next_block = 6 := rfl
  have hblocks : (firstInode 400 64).nblocks = 400 := rfl
  obtain ⟨hr, hb⟩ := firstInode_reached 400 64 (by decide)
  obtain ⟨hiff, hacc⟩ := store_data_exact hr hb (List.replicate 272385 7)
  obtain ⟨fs', hfs⟩ := hiff.mpr (by
    rw [hn, hnext, hblocks]
    exact ⟨by decide, by decide, fun _ => by decide, fun _ => by decide⟩)
  have hcount := (hacc fs' hfs).next
  rw [hn] at hcount
  exact ⟨fs', hfs, hcount, hacc fs' hfs⟩

/-- Past block 2^32 an indirect block cannot be packed, although the file needs
only twelve of the twenty blocks that remain. -/
theorem store_data_not_exact :
    ¬∀ fs ino content, Reached fs → Blank fs ino →
      ((∃ fs', fs.store_data ino content = .ok fs') ↔
        dataCount content ≤ 10 + 256 + 256 * 256 ∧
          cost (dataCount content) ≤ fs.nblocks - fs.next_block) := by
  intro h
  have hn : dataCount (List.replicate 10241 0) = 11 := by
    unfold dataCount
    rw [List.length_replicate]
    rfl
  obtain ⟨hr, hb⟩ := firstInode_reached (2 ^ 32 + 20) (16 * (2 ^ 32 - 2)) (by decide)
  have hnext : (firstInode (2 ^ 32 + 20) (16 * (2 ^ 32 - 2))).next_block = 2 ^ 32 := rfl
  have hblocks : (firstInode (2 ^ 32 + 20) (16 * (2 ^ 32 - 2))).nblocks = 2 ^ 32 + 20 := rfl
  have hstored := (h _ 2 (List.replicate 10241 0) hr hb).mpr
    ⟨by rw [hn]; decide, by rw [hn, hblocks, hnext]; decide⟩
  have hw := (words32_indirectWords _ _).mp (store_data_completes.mp hstored).2.2
  rw [hn, hnext] at hw
  exact absurd (hw.1 (by decide)) (by decide)

end Sys16.MkfsAccounting
