import Sys16.MkfsImage

/-!
# Blocks that `store_data` allocates

Every allocation of `store_data` takes the next block and puts one buffer
there, so a call appends a list of buffers to the allocated part of the image:
the chunks of the file, then its indirect blocks. The addresses in the inode
and in the indirect blocks are the consecutive numbers of those buffers.
-/

namespace Sys16.MkfsBlocks

open Function ByteStore LittleEndian PyText PyStruct MkfsImage

variable {fs fs' : Fs} {b : Bytes} {bs words : List ℕ} {bufs : List Bytes} {a n k : ℕ}

/-! ## Words -/

/-- The little-endian bytes of addresses. -/
def wordBytes (words : List ℕ) : Bytes := words.flatMap (encode 4)

/-- A word takes four bytes. -/
@[simp] theorem length_wordBytes (words : List ℕ) : (wordBytes words).length = words.length * 4 := by
  induction words with
  | nil => rfl
  | cons w words ih =>
    rw [wordBytes, List.flatMap_cons, List.length_append, length_encode, List.length_cons]
    rw [wordBytes] at ih
    omega

/-- Packing an unsigned format is encoding, within its range. -/
theorem pack_nat {f : Format} (hf : f.signed = false) {x : ℕ} (h : f.pack x = .ok b) :
    b = encode f.width x ∧ x < 256 ^ f.width := by
  have hlow : f.low = 0 := by
    unfold Format.low
    rw [hf, if_neg (by simp)]
  have hr := (Format.pack_range h).2
  rw [hlow, zero_add] at hr
  have hx : x < 256 ^ f.width := by
    zify
    exact hr
  refine ⟨?_, hx⟩
  unfold Format.pack at h
  rw [if_pos (Format.pack_range (b := b) h)] at h
  cases h
  rw [Int.emod_eq_of_lt (by omega) hr, Int.toNat_natCast]

/-- Addresses pack to their bytes, each within 32 bits. -/
theorem packWords_eq (h : packWords words = .ok b) :
    b = wordBytes words ∧ ∀ w ∈ words, w < 2 ^ 32 := by
  obtain ⟨l, hl, rfl⟩ := map_eq_ok.mp h
  have hall := mapM_eq_ok.mp hl
  clear h hl
  induction hall with
  | nil => exact ⟨rfl, by simp⟩
  | @cons w v words l hw hall ih =>
    obtain ⟨rfl, hlt⟩ := pack_nat (rfl : fmtI.signed = false) hw
    refine ⟨?_, ?_⟩
    · rw [wordBytes, List.flatMap_cons, List.flatten_cons, ih.1]
      rfl
    · intro x hx
      rcases List.mem_cons.mp hx with rfl | hx
      · exact hlt
      · exact ih.2 x hx

/-- Each address reads back from its four bytes. -/
theorem decode_wordBytes (hw : ∀ w ∈ words, w < 2 ^ 32) (hk : k < words.length) :
    decode (slice (wordBytes words) (k * 4) 4) = words[k] := by
  induction words generalizing k with
  | nil => simp at hk
  | cons w words ih =>
    have hcons : wordBytes (w :: words) = encode 4 w ++ wordBytes words := rfl
    cases k with
    | zero =>
      rw [hcons, slice, Nat.zero_mul, List.drop_zero, List.take_left' (length_encode 4 w)]
      exact decode_encode_of_lt (hw w List.mem_cons_self)
    | succ k =>
      have hdrop : slice (wordBytes (w :: words)) ((k + 1) * 4) 4 =
          slice (wordBytes words) (k * 4) 4 := by
        unfold slice
        rw [hcons, List.drop_append, List.drop_of_length_le (by rw [length_encode]; omega),
          List.nil_append, length_encode]
        congr 2
        omega
      rw [hdrop, List.getElem_cons_succ]
      exact ih (fun v hv => hw v (List.mem_cons_of_mem w hv)) (by simpa using hk)

/-! ## Appending buffers -/

/-- Buffers as writes to consecutive blocks. -/
def placed : ℕ → List Bytes → List (ℕ × Bytes)
  | _, [] => []
  | a, buf :: bufs => (a * BSIZE, buf) :: placed (a + 1) bufs

/-- Each buffer put into the next block. -/
def Fs.append (fs : Fs) (bufs : List Bytes) : Fs :=
  { fs with
    next_block := fs.next_block + bufs.length
    data := writeAll fs.data (placed fs.next_block bufs) }

/-- Buffers placed one after the other keep their places when there are more. -/
theorem placed_append (a : ℕ) (xs ys : List Bytes) :
    placed a (xs ++ ys) = placed a xs ++ placed (a + xs.length) ys := by
  induction xs generalizing a with
  | nil => rfl
  | cons x xs ih =>
    rw [List.cons_append, placed, placed, ih, List.cons_append, List.length_cons]
    congr 3
    omega

theorem append_nil (fs : Fs) : Fs.append fs [] = fs := rfl

/-- Appending twice is appending both. -/
theorem append_append (fs : Fs) (xs ys : List Bytes) :
    Fs.append (Fs.append fs xs) ys = Fs.append fs (xs ++ ys) := by
  unfold Fs.append
  rw [placed_append, List.length_append]
  simp only [writeAll, List.foldl_append, Nat.add_assoc]

/-- A block that is allocated is the next one, which the image has room for. -/
theorem alloc_block_eq (h : fs.alloc_block = .ok (fs', a)) :
    fs.next_block < fs.nblocks ∧ a = fs.next_block ∧
      fs' = { fs with next_block := fs.next_block + 1 } := by
  unfold Fs.alloc_block at h
  split at h
  · cases h
  · cases h
    exact ⟨by omega, rfl, rfl⟩

/-- A buffer goes to the start of its block, and is no longer than that. -/
theorem put_eq {buf : Bytes} (h : fs.put k buf = .ok fs') :
    buf.length ≤ BSIZE ∧ fs' = { fs with data := setSlice fs.data (k * BSIZE) buf } := by
  unfold Fs.put at h
  split at h
  · cases h
    exact ⟨by assumption, rfl⟩
  · cases h

/-- What an allocating step leaves: it has room, its buffers fit blocks, and
they are appended. -/
structure Appends (fs fs' : Fs) (bufs : List Bytes) : Prop where
  room : fs.next_block ≤ fs.nblocks → fs.next_block + bufs.length ≤ fs.nblocks
  small : ∀ buf ∈ bufs, buf.length ≤ BSIZE
  eq : fs' = Fs.append fs bufs

/-- Nothing has been appended yet. -/
theorem Appends.nil (fs : Fs) : Appends fs fs [] := ⟨fun h => h, by simp, rfl⟩

/-- What is appended next goes behind it. -/
theorem Appends.trans {fs'' : Fs} {xs ys : List Bytes} (h : Appends fs fs' xs)
    (k : Appends fs' fs'' ys) : Appends fs fs'' (xs ++ ys) := by
  obtain ⟨hroom, hsmall, rfl⟩ := h
  obtain ⟨kroom, ksmall, rfl⟩ := k
  refine ⟨?_, ?_, append_append fs xs ys⟩
  · intro hle
    have hr := kroom (hroom hle)
    change fs.next_block + xs.length + ys.length ≤ fs.nblocks at hr
    rw [List.length_append]
    omega
  · intro buf hb
    rcases List.mem_append.mp hb with hb | hb
    · exact hsmall buf hb
    · exact ksmall buf hb

/-- An allocation followed by a put appends one buffer at the block it returns. -/
theorem alloc_put {fs₁ : Fs} {buf : Bytes} (ha : fs.alloc_block = .ok (fs₁, a))
    (hp : fs₁.put a buf = .ok fs') : a = fs.next_block ∧ Appends fs fs' [buf] := by
  obtain ⟨hroom, rfl, rfl⟩ := alloc_block_eq ha
  obtain ⟨hsmall, rfl⟩ := put_eq hp
  refine ⟨rfl, ⟨fun _ => hroom, ?_, rfl⟩⟩
  intro c hc
  rw [List.mem_singleton.mp hc]
  exact hsmall

/-- A buffer that gets a new block is appended. -/
theorem putNew_eq {buf : Bytes} (h : fs.putNew buf = .ok (fs', a)) :
    a = fs.next_block ∧ Appends fs fs' [buf] := by
  unfold Fs.putNew at h
  obtain ⟨⟨fs₁, c⟩, halloc, h⟩ := bind_eq_ok.mp h
  obtain ⟨fs₂, hput, h⟩ := bind_eq_ok.mp h
  cases h
  exact alloc_put halloc hput

/-- Buffers get consecutive blocks, in order. -/
theorem putAll_eq (h : fs.putAll bufs = .ok (fs', bs)) :
    bs = List.range' fs.next_block bufs.length ∧ Appends fs fs' bufs := by
  induction bufs generalizing fs bs with
  | nil =>
    cases h
    exact ⟨rfl, .nil _⟩
  | cons buf bufs ih =>
    unfold Fs.putAll at h
    obtain ⟨⟨fs₁, c⟩, hnew, h⟩ := bind_eq_ok.mp h
    obtain ⟨⟨fs₂, cs⟩, hall, h⟩ := bind_eq_ok.mp h
    cases h
    obtain ⟨rfl, happ⟩ := putNew_eq hnew
    obtain ⟨rfl, hrest⟩ := ih hall
    refine ⟨?_, happ.trans hrest⟩
    rw [List.length_cons, List.range'_succ, happ.eq]
    rfl

/-- An indirect block is appended, and its words have thirty-two bits. -/
theorem putWords_eq (h : fs.putWords words = .ok (fs', a)) :
    a = fs.next_block ∧ (∀ w ∈ words, w < 2 ^ 32) ∧ Appends fs fs' [wordBytes words] := by
  unfold Fs.putWords at h
  obtain ⟨⟨fs₁, c⟩, halloc, h⟩ := bind_eq_ok.mp h
  obtain ⟨buf, hbuf, h⟩ := bind_eq_ok.mp h
  obtain ⟨fs₂, hput, h⟩ := bind_eq_ok.mp h
  cases h
  obtain ⟨rfl, hlt⟩ := packWords_eq hbuf
  obtain ⟨rfl, happ⟩ := alloc_put halloc hput
  exact ⟨rfl, hlt, happ⟩

/-- The blocks under a double-indirect block get consecutive blocks, of which it can name
so many only. -/
theorem putOuter_eq {parts : List (List ℕ)} {outer : List ℕ}
    (h : fs.putOuter parts outer = .ok (fs', bs)) (hle : outer.length ≤ NINDIR) :
    bs = outer ++ List.range' fs.next_block parts.length ∧ bs.length ≤ NINDIR ∧
      (∀ ws ∈ parts, ∀ w ∈ ws, w < 2 ^ 32) ∧ Appends fs fs' (parts.map wordBytes) := by
  induction parts generalizing fs outer with
  | nil =>
    cases h
    exact ⟨by simp, hle, by simp, .nil _⟩
  | cons ws parts ih =>
    unfold Fs.putOuter at h
    obtain ⟨⟨fs₁, c⟩, hput, h⟩ := bind_eq_ok.mp h
    dsimp only at h
    split at h
    · cases h
    · next hlen =>
      obtain ⟨rfl, hlt, happ⟩ := putWords_eq hput
      obtain ⟨hbs, hbl, hrest, hall⟩ := ih h (Nat.not_lt.mp hlen)
      refine ⟨?_, hbl, ?_, happ.trans hall⟩
      · rw [hbs, List.length_cons, List.range'_succ, List.append_assoc, happ.eq]
        rfl
      · intro vs hvs
        rcases List.mem_cons.mp hvs with rfl | hvs
        · exact hlt
        · exact hrest vs hvs

/-- An assignment to an inode does not take part in appending blocks. -/
theorem Appends.of_modify {f : Inode → Inode} (h : Appends (fs.modify n f) fs' bufs) :
    ∃ fs₁, fs' = fs₁.modify n f ∧ Appends fs fs₁ bufs :=
  ⟨Fs.append fs bufs, h.eq, ⟨h.room, h.small, rfl⟩⟩

/-- A change of an inode allocates no block. -/
theorem modify_next_block (fs : Fs) (ino : ℕ) (f : Inode → Inode) :
    (fs.modify ino f).next_block = fs.next_block := rfl

/-- Two changes of an inode are one. -/
theorem modify_modify (fs : Fs) (ino : ℕ) (f g : Inode → Inode) :
    (fs.modify ino f).modify ino g = fs.modify ino fun i => g (f i) := by
  unfold Fs.modify
  simp only [update_self, update_idem, Option.map_map]
  rfl

/-! ## One file -/

/-- The first numbers of a range. -/
theorem take_range' (a n k : ℕ) : (List.range' a n).take k = List.range' a (min k n) := by
  rcases Nat.le_total k n with hk | hk
  · rw [List.take_range'_of_length_ge hk, Nat.min_eq_left hk]
  · rw [List.take_range'_of_length_le hk, Nat.min_eq_right hk]

/-- And those after them. -/
theorem drop_range' (a n k : ℕ) : (List.range' a n).drop k = List.range' (a + k) (n - k) := by
  rw [List.drop_range', mul_one]

theorem range'_eq_nil {a n : ℕ} : List.range' a n = [] ↔ n = 0 := by
  rw [← List.length_eq_zero_iff, List.length_range']

/-- The data blocks of a file. -/
def dataCount (content : Bytes) : ℕ := chunkCount BSIZE content.length

/-- The blocks under the double-indirect block of a file of `n` data blocks. -/
def outerCount (n : ℕ) : ℕ := chunkCount NINDIR (n - 10 - NINDIR)

/-- A file has as many chunks as data blocks. -/
theorem length_data (content : Bytes) : (chunks BSIZE content).length = dataCount content :=
  length_chunks BSIZE content

/-- The double-indirect level over `k` data blocks from block `c` on, at block `a`. -/
def doubleWords (a c k : ℕ) : List (List ℕ) :=
  chunks NINDIR (List.range' c k) ++ [List.range' a (chunkCount NINDIR k)]

/-- The indirect levels over `k` data blocks from block `c` on, at block `a`. -/
def singleWords (a c k : ℕ) : List (List ℕ) :=
  List.range' c (min NINDIR k) ::
    if k - NINDIR = 0 then [] else doubleWords (a + 1) (c + NINDIR) (k - NINDIR)

/-- The indirect blocks of a file of `n` data blocks at block `a`. -/
def indirectWords (a n : ℕ) : List (List ℕ) :=
  if n - 10 = 0 then [] else singleWords (a + n) (a + 10) (n - 10)

/-- Everything a file at block `a` puts on the image: its data, then its indirect blocks. -/
def fileBlocks (a : ℕ) (content : Bytes) : List Bytes :=
  chunks BSIZE content ++ (indirectWords a (dataCount content)).map wordBytes

/-- The addresses of a file of `n` data blocks at block `a`. -/
def fileAddr (a n : ℕ) (addr : List ℤ) : List ℤ :=
  let addr := setAddrs addr (List.range' a (min 10 n))
  if n - 10 = 0 then addr
  else
    let addr := addr.set 10 ↑(a + n)
    if n - 10 - NINDIR = 0 then addr
    else addr.set 11 ↑(a + n + 1 + outerCount n)

/-- Every address of a list of indirect blocks is a 32-bit number. -/
def Words32 (l : List (List ℕ)) : Prop := ∀ ws ∈ l, ∀ w ∈ ws, w < 2 ^ 32

/-- The double-indirect part of a file: its blocks, its words, and the address of the
outer one. -/
theorem store_double_eq {c : ℕ} (h : fs.store_double n (List.range' c k) = .ok fs') :
    ∃ fs₁, Appends fs fs₁ ((doubleWords fs.next_block c k).map wordBytes) ∧
      Words32 (doubleWords fs.next_block c k) ∧
      fs' = fs₁.modify n fun i =>
        { i with addr := i.addr.set 11 ↑(fs.next_block + chunkCount NINDIR k) } := by
  unfold Fs.store_double at h
  obtain ⟨⟨fs₁, outer⟩, houter, h⟩ := bind_eq_ok.mp h
  obtain ⟨⟨fs₂, db⟩, hdb, h⟩ := bind_eq_ok.mp h
  cases h
  obtain ⟨rfl, _, hlt, happ⟩ := putOuter_eq houter (Nat.zero_le _)
  obtain ⟨rfl, hlt', happ'⟩ := putWords_eq hdb
  have hlen : (chunks NINDIR (List.range' c k)).length = chunkCount NINDIR k := by
    rw [length_chunks, List.length_range']
  have hnext : fs₁.next_block = fs.next_block + chunkCount NINDIR k := by
    rw [happ.eq, Fs.append, List.length_map, hlen]
  rw [List.nil_append, hlen] at hlt' happ'
  refine ⟨fs₂, ?_, ?_, by rw [hnext]⟩
  · rw [doubleWords, List.map_append]
    exact happ.trans happ'
  · intro ws hws
    rcases List.mem_append.mp hws with hws | hws
    · exact hlt ws hws
    · rw [List.mem_singleton.mp hws]
      exact hlt'

/-- The indirect part of a file, with the double-indirect part where the single-indirect
block is full. -/
theorem store_single_eq {c : ℕ} (h : fs.store_single n (List.range' c k) = .ok fs') :
    ∃ fs₁, Appends fs fs₁ ((singleWords fs.next_block c k).map wordBytes) ∧
      Words32 (singleWords fs.next_block c k) ∧
      fs' = fs₁.modify n fun i =>
        { i with
          addr := if k - NINDIR = 0 then i.addr.set 10 ↑fs.next_block
            else (i.addr.set 10 ↑fs.next_block).set 11
              ↑(fs.next_block + 1 + chunkCount NINDIR (k - NINDIR)) } := by
  unfold Fs.store_single at h
  obtain ⟨⟨fs₁, ib⟩, hib, h⟩ := bind_eq_ok.mp h
  dsimp only at h
  rw [take_range'] at hib
  rw [drop_range'] at h
  obtain ⟨rfl, hlt, happ⟩ := putWords_eq hib
  have hnext : fs₁.next_block = fs.next_block + 1 := by
    rw [happ.eq, Fs.append, List.length_singleton]
  unfold singleWords
  by_cases hk : k - NINDIR = 0
  · rw [if_pos (range'_eq_nil.mpr hk)] at h
    cases h
    simp only [if_pos hk]
    refine ⟨fs₁, happ, ?_, rfl⟩
    intro ws hws
    rw [List.mem_singleton.mp hws]
    exact hlt
  · rw [if_neg (mt range'_eq_nil.mp hk)] at h
    obtain ⟨fs₂, happ', hlt', rfl⟩ := store_double_eq h
    obtain ⟨fs₃, rfl, hdouble⟩ := happ'.of_modify
    have hnext' : (fs₁.modify n fun i =>
        { i with addr := i.addr.set 10 ↑fs.next_block }).next_block = fs.next_block + 1 := hnext
    rw [hnext'] at hdouble hlt' ⊢
    simp only [if_neg hk]
    refine ⟨fs₃, happ.trans hdouble, ?_, modify_modify _ _ _ _⟩
    intro ws hws
    rcases List.mem_cons.mp hws with rfl | hws
    · exact hlt
    · exact hlt' ws hws

/-- The state in which a call of `store_data` is recorded. -/
def Fs.logged (fs : Fs) (ino : ℕ) (content : Bytes) : Fs :=
  { fs with stored := fs.stored ++ [(ino, content)] }

/-- The inode after its file has been stored at block `a`. -/
def storedInode (a : ℕ) (content : Bytes) (i : Inode) : Inode :=
  { i with
    size := content.length
    addr := fileAddr a (dataCount content) i.addr }

/-- `store_data` appends the blocks of the file and fills in the inode. -/
theorem store_data_eq {content : Bytes} (h : fs.store_data n content = .ok fs') :
    ∃ fs₁, Appends (Fs.logged fs n content) fs₁ (fileBlocks fs.next_block content) ∧
      Words32 (indirectWords fs.next_block (dataCount content)) ∧
      fs' = fs₁.modify n (storedInode fs.next_block content) := by
  unfold Fs.store_data at h
  obtain ⟨⟨fs₁, blocks⟩, hall, h⟩ := bind_eq_ok.mp h
  dsimp only at h
  obtain ⟨rfl, happ⟩ := putAll_eq hall
  obtain ⟨fs₂, rfl, hdata⟩ := happ.of_modify
  have hnext : fs₂.next_block = fs.next_block + dataCount content := by
    rw [hdata.eq, Fs.append, length_data]
  rw [length_data, modify_modify, take_range', drop_range'] at h
  unfold fileBlocks storedInode indirectWords fileAddr
  generalize dataCount content = nblk at h hnext
  by_cases hk : nblk - 10 = 0
  · rw [if_pos (range'_eq_nil.mpr hk)] at h
    cases h
    simp only [if_pos hk, List.map_nil, List.append_nil]
    exact ⟨fs₂, hdata, fun ws hws => by simp at hws, rfl⟩
  · rw [if_neg (mt range'_eq_nil.mp hk)] at h
    obtain ⟨fs₃, happ', hlt, rfl⟩ := store_single_eq h
    obtain ⟨fs₄, rfl, hsingle⟩ := happ'.of_modify
    rw [modify_next_block, hnext] at hsingle hlt
    simp only [if_neg hk]
    refine ⟨fs₄, hdata.trans hsingle, hlt, ?_⟩
    rw [modify_modify]
    simp only [modify_next_block, hnext, outerCount]

/-! ## Blocks of the image -/

variable {d : Bytes} {content : Bytes}

/-- The bytes of one block. -/
def blockOf (d : Bytes) (k : ℕ) : Bytes := slice d (k * BSIZE) BSIZE

/-- One word of a block. -/
def word (d : Bytes) (b k : ℕ) : ℕ := decode (slice d (b * BSIZE + k * 4) 4)

/-- The image has all its blocks, and those not yet allocated are zero. -/
structure Fresh (fs : Fs) : Prop where
  size : fs.data.length = fs.nblocks * BSIZE
  room : fs.next_block ≤ fs.nblocks
  clear : ∀ k, fs.next_block ≤ k → k < fs.nblocks → blockOf fs.data k = List.replicate BSIZE 0

/-- A block of the image ends inside it. -/
theorem block_fits (hk : k < n) : k * BSIZE + BSIZE ≤ n * BSIZE := by
  have h : (k + 1) * BSIZE ≤ n * BSIZE := Nat.mul_le_mul_right BSIZE hk
  rwa [Nat.add_mul, Nat.one_mul] at h

/-- A put changes its own block only. -/
theorem blockOf_setSlice {buf : Bytes} (hd : d.length = n * BSIZE) (hk : k < n)
    (hb : buf.length ≤ BSIZE) {j : ℕ} (hj : j ≠ k) :
    blockOf (setSlice d (k * BSIZE) buf) j = blockOf d j := by
  have hfit := block_fits hk
  refine slice_setSlice_of_disjoint (by omega) ?_
  rcases Nat.lt_or_gt_of_ne hj with hlt | hgt
  · exact Or.inl (block_fits hlt)
  · have := block_fits hgt
    exact Or.inr (by omega)

/-- A buffer put into a cleared block stands there, followed by zeros. -/
theorem blockOf_setSlice_self {buf : Bytes} (hd : d.length = n * BSIZE) (hk : k < n)
    (hb : buf.length ≤ BSIZE) (hz : blockOf d k = List.replicate BSIZE 0) :
    blockOf (setSlice d (k * BSIZE) buf) k = pad BSIZE buf :=
  slice_setSlice_zero (by rw [hd]; exact block_fits hk) hb hz

/-- A buffer of a whole block needs no cleared one. -/
theorem blockOf_setSlice_full {buf : Bytes} (hd : d.length = n * BSIZE) (hk : k < n)
    (hb : buf.length = BSIZE) : blockOf (setSlice d (k * BSIZE) buf) k = buf := by
  have hfit : k * BSIZE + buf.length ≤ d.length := by
    rw [hd, hb]
    exact block_fits hk
  have hself := slice_setSlice_self hfit
  rwa [hb] at hself

/-- Appending buffers to a fresh image fills the next blocks with them and
leaves the other blocks alone. -/
theorem Appends.blocks (h : Appends fs fs' bufs) (hf : Fresh fs) :
    Fresh fs' ∧ (∀ j buf, bufs[j]? = some buf →
        blockOf fs'.data (fs.next_block + j) = pad BSIZE buf) ∧
      ∀ k, k < fs.next_block → blockOf fs'.data k = blockOf fs.data k := by
  obtain ⟨hroom, hsmall, rfl⟩ := h
  replace hroom := hroom hf.room
  induction bufs generalizing fs with
  | nil => exact ⟨hf, by simp, fun _ _ => rfl⟩
  | cons buf bufs ih =>
    rw [List.length_cons] at hroom
    have hk : fs.next_block < fs.nblocks := by omega
    have hb := hsmall buf List.mem_cons_self
    have hfit := block_fits hk
    have hself := blockOf_setSlice_self hf.size hk hb (hf.clear _ (Nat.le_refl _) hk)
    have hother := fun j => blockOf_setSlice (j := j) hf.size hk hb
    have hf₁ : Fresh (Fs.append fs [buf]) := by
      refine ⟨?_, hk, ?_⟩
      · have hin : fs.next_block * BSIZE + buf.length ≤ fs.data.length := by
          rw [hf.size]
          omega
        exact (length_setSlice hin).trans hf.size
      · intro j hj hjn
        have hj' : fs.next_block + 1 ≤ j := hj
        exact (hother j (by omega)).trans (hf.clear j (by omega) hjn)
    obtain ⟨hfresh, hnew, hold⟩ := ih hf₁ (fun c hc => hsmall c (List.mem_cons_of_mem buf hc))
      (show fs.next_block + 1 + bufs.length ≤ fs.nblocks by omega)
    rw [append_append] at hfresh hnew hold
    refine ⟨hfresh, ?_, ?_⟩
    · intro j c hj
      cases j with
      | zero =>
        cases hj
        exact (hold fs.next_block (Nat.lt_succ_self _)).trans hself
      | succ j =>
        have hblock := hnew j c hj
        rw [show (Fs.append fs [buf]).next_block + j = fs.next_block + (j + 1) by
          simp only [Fs.append, List.length_singleton]; omega] at hblock
        exact hblock
    · intro k hkk
      exact (hold k (show k < fs.next_block + 1 by omega)).trans (hother k (by omega))

/-- A word of an indirect block is its address, or zero past the last one. -/
theorem word_eq {ws : List ℕ} {j : ℕ} (hb : blockOf d k = pad BSIZE (wordBytes ws))
    (hw : ∀ w ∈ ws, w < 2 ^ 32) (hj : j < NINDIR) : word d k j = ws.getD j 0 := by
  have hfit : j * 4 + 4 ≤ BSIZE := by
    have hN : NINDIR = 256 := rfl
    have hB : BSIZE = 1024 := rfl
    omega
  unfold word
  rw [← slice_slice d (k * BSIZE) BSIZE (j * 4) 4 hfit]
  change decode (slice (blockOf d k) (j * 4) 4) = _
  rw [hb, slice_pad _ hfit]
  by_cases hlen : j < ws.length
  · have hfull : (slice (wordBytes ws) (j * 4) 4).length = 4 :=
      length_slice (by rw [length_wordBytes]; omega)
    rw [pad, hfull, Nat.sub_self, List.replicate_zero, List.append_nil,
      decode_wordBytes hw hlen, List.getD_eq_getElem _ _ hlen]
  · have hnil : slice (wordBytes ws) (j * 4) 4 = [] := by
      rw [slice, List.drop_of_length_le (by rw [length_wordBytes]; omega), List.take_nil]
    rw [hnil, pad, List.nil_append, decode_replicate_zero, List.getD_eq_default _ _ (by omega)]

/-- A number of a range, or zero behind its end. -/
theorem getD_range' (s m j : ℕ) : (List.range' s m).getD j 0 = if j < m then s + j else 0 := by
  by_cases hj : j < m
  · rw [List.getD_eq_getElem _ _ (by simpa using hj), if_pos hj, List.getElem_range', one_mul]
  · rw [List.getD_eq_default _ _ (by simpa using hj), if_neg hj]

/-! ## A stored file on the image -/

/-- The image holds a file at block `a`: its data block after block, then its
single-indirect block, the blocks under the double-indirect one, and that one. -/
structure Holds (d : Bytes) (a : ℕ) (content : Bytes) : Prop where
  data : ∀ j < dataCount content,
    blockOf d (a + j) = pad BSIZE (slice content (j * BSIZE) BSIZE)
  single : 10 < dataCount content → ∀ k < NINDIR,
    word d (a + dataCount content) k = if k < dataCount content - 10 then a + 10 + k else 0
  outer : ∀ k < outerCount (dataCount content), ∀ j < NINDIR,
    word d (a + dataCount content + 1 + k) j =
      if k * NINDIR + j < dataCount content - 10 - NINDIR then
        a + 10 + NINDIR + (k * NINDIR + j)
      else 0
  double : 0 < dataCount content - 10 - NINDIR → ∀ k < NINDIR,
    word d (a + dataCount content + 1 + outerCount (dataCount content)) k =
      if k < outerCount (dataCount content) then a + dataCount content + 1 + k else 0
  outer_le : outerCount (dataCount content) ≤ NINDIR

/-- All the blocks of a file. -/
def fileCost (content : Bytes) : ℕ :=
  let n := dataCount content
  n + if n - 10 = 0 then 0 else 1 + if n - 10 - NINDIR = 0 then 0 else outerCount n + 1

/-- A file takes its data blocks and its indirect ones. -/
theorem length_fileBlocks (a : ℕ) (content : Bytes) :
    (fileBlocks a content).length = fileCost content := by
  have hdata := length_data content
  unfold fileBlocks fileCost indirectWords singleWords doubleWords outerCount
  by_cases h1 : dataCount content - 10 = 0
  · simp [h1, hdata]
  · by_cases h2 : dataCount content - 10 - NINDIR = 0
    · simp [h1, h2, hdata]
    · simp only [if_neg h1, if_neg h2, List.length_append, List.length_map, List.length_cons,
        List.length_nil, length_chunks, List.length_range', hdata]
      omega

/-- A chunk of consecutive numbers is consecutive. -/
theorem chunks_range' (c m j : ℕ) :
    slice (List.range' c m) (j * NINDIR) NINDIR =
      List.range' (c + j * NINDIR) (min NINDIR (m - j * NINDIR)) := by
  rw [slice, drop_range', take_range']

/-- The single-indirect block comes first among the indirect blocks. -/
theorem indirectWords_single (a : ℕ) (h : 10 < n) :
    (indirectWords a n)[0]? = some (List.range' (a + 10) (min NINDIR (n - 10))) := by
  rw [indirectWords, if_neg (by omega), singleWords]
  rfl

/-- After it come the blocks under the double-indirect one, then that one. -/
theorem indirectWords_double (a : ℕ) (h : 0 < n - 10 - NINDIR) (k : ℕ) :
    (indirectWords a n)[k + 1]? =
      (doubleWords (a + n + 1) (a + 10 + NINDIR) (n - 10 - NINDIR))[k]? := by
  rw [indirectWords, if_neg (by omega), singleWords, if_neg (by omega)]
  rfl

/-- The inner indirect blocks of a file, counted. -/
theorem length_outer (c n : ℕ) :
    (chunks NINDIR (List.range' c (n - 10 - NINDIR))).length = outerCount n := by
  rw [length_chunks, List.length_range']
  rfl

/-- An inner indirect block names the data blocks of its part. -/
theorem doubleWords_outer (a c : ℕ) {n k : ℕ} (hk : k < outerCount n) :
    (doubleWords a c (n - 10 - NINDIR))[k]? =
      some (List.range' (c + k * NINDIR) (min NINDIR (n - 10 - NINDIR - k * NINDIR))) := by
  have hrange : (List.range (chunkCount NINDIR (n - 10 - NINDIR)))[k]? = some k :=
    List.getElem?_range hk
  rw [doubleWords, List.getElem?_append_left (by rw [length_outer]; exact hk), chunks,
    List.getElem?_map, List.length_range', hrange, Option.map_some, chunks_range']

/-- The outer block comes last and names the inner ones. -/
theorem doubleWords_last (a c n : ℕ) :
    (doubleWords a c (n - 10 - NINDIR))[outerCount n]? =
      some (List.range' a (outerCount n)) := by
  rw [doubleWords, List.getElem?_append_right (by rw [length_outer]), length_outer, Nat.sub_self]
  rfl

/-- What the words of the indirect blocks are, level by level. -/
theorem indirect_words {W : ℕ → ℕ → ℕ}
    (hW : ∀ k ws j, (indirectWords a n)[k]? = some ws → j < NINDIR → W k j = ws.getD j 0) :
    (10 < n → ∀ k < NINDIR, W 0 k = if k < n - 10 then a + 10 + k else 0) ∧
      (∀ k < outerCount n, ∀ j < NINDIR, W (k + 1) j =
        if k * NINDIR + j < n - 10 - NINDIR then a + 10 + NINDIR + (k * NINDIR + j) else 0) ∧
      (0 < n - 10 - NINDIR → ∀ k < NINDIR, W (outerCount n + 1) k =
        if k < outerCount n then a + n + 1 + k else 0) := by
  have hpos : ∀ {k}, k < outerCount n → 0 < n - 10 - NINDIR := fun hk =>
    (chunkCount_pos (show 0 < NINDIR by decide)).mp (Nat.lt_of_le_of_lt (Nat.zero_le _) hk)
  refine ⟨?_, ?_, ?_⟩
  · intro hn k hk
    rw [hW 0 _ k (indirectWords_single a hn) hk, getD_range']
    exact if_congr (by omega) rfl rfl
  · intro k hk j hj
    have hget := (indirectWords_double a (hpos hk) k).trans (doubleWords_outer _ _ hk)
    rw [hW (k + 1) _ j hget hj, getD_range']
    exact if_congr (by omega) (by omega) rfl
  · intro hn k hk
    have hget := (indirectWords_double a hn _).trans (doubleWords_last _ _ n)
    rw [hW _ _ k hget hk, getD_range']

/-- An image whose blocks are the buffers of a file holds the file. -/
theorem holds_of_blocks
    (hb : ∀ j buf, (fileBlocks a content)[j]? = some buf → blockOf d (a + j) = pad BSIZE buf)
    (hs : ∀ buf ∈ fileBlocks a content, buf.length ≤ BSIZE)
    (hw : Words32 (indirectWords a (dataCount content))) : Holds d a content := by
  have hdata : ∀ j < dataCount content,
      (fileBlocks a content)[j]? = some (slice content (j * BSIZE) BSIZE) := by
    intro j hj
    have hlen : j < (chunks BSIZE content).length := by rwa [length_data]
    have hrange : (List.range (chunkCount BSIZE content.length))[j]? = some j :=
      List.getElem?_range hj
    rw [fileBlocks, List.getElem?_append_left hlen, chunks, List.getElem?_map, hrange]
    rfl
  have hindirect : ∀ k ws, (indirectWords a (dataCount content))[k]? = some ws →
      blockOf d (a + dataCount content + k) = pad BSIZE (wordBytes ws) ∧ ∀ w ∈ ws, w < 2 ^ 32 := by
    intro k ws hk
    have hget : (fileBlocks a content)[dataCount content + k]? = some (wordBytes ws) := by
      rw [fileBlocks, List.getElem?_append_right (by rw [length_data]; omega), length_data,
        Nat.add_sub_cancel_left, List.getElem?_map, hk]
      rfl
    exact ⟨by rw [Nat.add_assoc]; exact hb _ _ hget, hw ws (List.mem_of_getElem? hk)⟩
  have hword : ∀ k ws j, (indirectWords a (dataCount content))[k]? = some ws → j < NINDIR →
      word d (a + dataCount content + k) j = ws.getD j 0 := by
    intro k ws j hk hj
    obtain ⟨hblock, hlt⟩ := hindirect k ws hk
    exact word_eq hblock hlt hj
  obtain ⟨hsingle, houter, hdouble⟩ := indirect_words hword
  refine ⟨fun j hj => hb j _ (hdata j hj), hsingle, ?_, ?_, ?_⟩
  · intro k hk j hj
    rw [Nat.add_assoc _ 1 k, Nat.add_comm 1 k]
    exact houter k hk j hj
  · intro hpos k hk
    rw [Nat.add_assoc _ 1, Nat.add_comm 1]
    exact hdouble hpos k hk
  · by_cases hpos : 0 < dataCount content - 10 - NINDIR
    · have hget := (indirectWords_double a hpos _).trans (doubleWords_last _ _ _)
      have hbuf := hs _ (List.mem_append_right _
        (List.mem_map_of_mem (List.mem_of_getElem? hget)))
      rw [length_wordBytes, List.length_range'] at hbuf
      have hN : NINDIR * 4 = BSIZE := rfl
      omega
    · rw [outerCount, Nat.eq_zero_of_not_pos hpos]
      exact Nat.zero_le _

/-- A file stays on the image while its blocks do. -/
theorem Holds.congr {d' : Bytes} (h : Holds d a content)
    (hb : ∀ k, a ≤ k → k < a + fileCost content → blockOf d' k = blockOf d k) :
    Holds d' a content := by
  have hword : ∀ b j, a ≤ b → b < a + fileCost content → j < NINDIR →
      word d' b j = word d b j := by
    intro b j h1 h2 hj
    have hN : NINDIR * 4 = BSIZE := rfl
    have hfit : j * 4 + 4 ≤ BSIZE := by omega
    unfold word
    rw [← slice_slice d' (b * BSIZE) BSIZE (j * 4) 4 hfit,
      ← slice_slice d (b * BSIZE) BSIZE (j * 4) 4 hfit]
    exact congrArg (fun l => decode (slice l (j * 4) 4)) (hb b h1 h2)
  have hcost : fileCost content = dataCount content + if dataCount content - 10 = 0 then 0
      else 1 + if dataCount content - 10 - NINDIR = 0 then 0
        else outerCount (dataCount content) + 1 := rfl
  have hpos : ∀ {k}, k < outerCount (dataCount content) → 0 < dataCount content - 10 - NINDIR :=
    fun hk => (chunkCount_pos (show 0 < NINDIR by decide)).mp
      (Nat.lt_of_le_of_lt (Nat.zero_le _) hk)
  refine ⟨?_, ?_, ?_, ?_, h.outer_le⟩
  · intro j hj
    rw [hb (a + j) (by omega) (by omega)]
    exact h.data j hj
  · intro hn k hk
    rw [if_neg (by omega)] at hcost
    rw [hword _ _ (by omega) (by omega) hk]
    exact h.single hn k hk
  · intro k hk j hj
    have hp := hpos hk
    rw [if_neg (by omega), if_neg (by omega)] at hcost
    rw [hword _ _ (by omega) (by omega) hj]
    exact h.outer k hk j hj
  · intro hp k hk
    rw [if_neg (by omega), if_neg (by omega)] at hcost
    rw [hword _ _ (by omega) (by omega) hk]
    exact h.double hp k hk

/-- What a call of `store_data` changes. -/
structure Stores (fs fs' : Fs) (ino : ℕ) (content : Bytes) : Prop where
  fresh : Fresh fs'
  holds : Holds fs'.data fs.next_block content
  next : fs'.next_block = fs.next_block + fileCost content
  blocks : ∀ k, k < fs.next_block → blockOf fs'.data k = blockOf fs.data k
  inodes : fs'.inodes =
    update fs.inodes ino ((fs.inodes ino).map (storedInode fs.next_block content))
  stored : fs'.stored = fs.stored ++ [(ino, content)]
  shape : fs'.nblocks = fs.nblocks ∧ fs'.iblocks = fs.iblocks ∧ fs'.first_data = fs.first_data ∧
    fs'.ninodes = fs.ninodes ∧ fs'.next_ino = fs.next_ino ∧ fs'.now = fs.now

/-- A call of `store_data` that returns has stored the file, block by block. -/
theorem store_data_stores {ino : ℕ} (h : fs.store_data ino content = .ok fs') (hf : Fresh fs) :
    Stores fs fs' ino content := by
  obtain ⟨fs₁, happ, hwords, rfl⟩ := store_data_eq h
  obtain ⟨hfresh, hnew, hold⟩ := happ.blocks ⟨hf.size, hf.room, hf.clear⟩
  have heq := happ.eq
  refine ⟨⟨hfresh.size, hfresh.room, hfresh.clear⟩, holds_of_blocks hnew happ.small hwords, ?_,
    hold, ?_, ?_, ?_⟩
  · rw [← length_fileBlocks fs.next_block content, heq]
    rfl
  · rw [heq]
    rfl
  · rw [heq]
    rfl
  · rw [heq]
    exact ⟨rfl, rfl, rfl, rfl, rfl, rfl⟩

end Sys16.MkfsBlocks
