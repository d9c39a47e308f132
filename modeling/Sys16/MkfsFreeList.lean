import Sys16.MkfsSuperblock

/-!
# The free list under the kernel's walk

The kernel takes a free block off the stack in the superblock, and when the
stack is used up it reloads it from the block it has just taken. The list that
`build_free_list` leaves yields every free block in ascending order, each
group reloaded from the block that heads it, and ends at the zero entry that
was pushed first.
-/

namespace Sys16.MkfsFreeList

open Function ByteStore LittleEndian PyText PyStruct MkfsImage MkfsBlocks MkfsSuperblock

/-! ## The kernel's walk -/

/-- A stack of free blocks: `s_nfree` and `s_free` of the superblock, or
`df_nfree` and `df_free` of a free block. -/
structure Stack where
  nfree : ℤ
  free : List ℕ

/-- A stack laid out in bytes: its count in a format, then its words. -/
def stackAt (count : Format) (b : Bytes) (off words : ℕ) : Stack where
  nfree := count.value (slice b off count.width)
  free := (List.range NICFREE).map fun k => decode (slice b (words + k * 4) 4)

/-- The stack in the superblock. -/
def superStack (d : Bytes) : Stack := stackAt fmth (superblock d) 8 12

/-- The stack in a free block. -/
def freeStack (d : Bytes) (b : ℕ) : Stack := stackAt fmti (blockOf d b) 0 4

/-- One `alloc()`: the block it returns, the count it finds when it reloads
the stack, and the stack it leaves. No result is "no space". -/
def alloc (d : Bytes) (s : Stack) : Option (ℕ × Option ℤ × Stack) :=
  let nfree := s.nfree - 1
  let b := s.free.getD nfree.toNat 0
  if b = 0 then none
  else if nfree = 0 then some (b, some (freeStack d b).nfree, freeStack d b)
  else some (b, none, { s with nfree := nfree })

/-- Repeated `alloc()`: the blocks returned with the counts found, and whether
the walk ended with no space. -/
def allocAll (d : Bytes) : ℕ → Stack → List (ℕ × Option ℤ) × Bool
  | 0, _ => ([], false)
  | fuel + 1, s =>
    match alloc d s with
    | none => ([], true)
    | some (b, count, s) => ((b, count) :: (allocAll d fuel s).1, (allocAll d fuel s).2)

/-! ## Stacks that yield a list -/

variable {d d' : Bytes} {s s' : Stack} {l bs : List ℕ} {b : ℕ} {fs fs' : Fs}

/-- The stack after its top has been taken. -/
def rest (d : Bytes) (s : Stack) (b : ℕ) : Stack :=
  if s.nfree = 1 then freeStack d b else { s with nfree := s.nfree - 1 }

/-- The count of a stack is between 1 and NICFREE and its top is `b`. -/
def Top (s : Stack) (b : ℕ) : Prop :=
  1 ≤ s.nfree ∧ s.nfree ≤ NICFREE ∧ s.free.getD (s.nfree - 1).toNat 0 = b

/-- A stack and the chain of free blocks under it yield a list of blocks. -/
def Yields (d : Bytes) : Stack → List ℕ → Prop
  | s, [] => Top s 0
  | s, b :: l => Top s b ∧ b ≠ 0 ∧ Yields d (rest d s b) l

/-- Two stacks that agree up to the same count. -/
def Agree (s s' : Stack) : Prop :=
  s'.nfree = s.nfree ∧ ∀ k : ℕ, (k : ℤ) < s.nfree → s'.free.getD k 0 = s.free.getD k 0

theorem Agree.refl (s : Stack) : Agree s s := ⟨rfl, fun _ _ => rfl⟩

theorem Agree.top (h : Agree s s') (ht : Top s b) : Top s' b := by
  obtain ⟨h1, h2, h3⟩ := ht
  refine ⟨by rw [h.1]; exact h1, by rw [h.1]; exact h2, ?_⟩
  rw [h.1, h.2 _ (by omega), h3]

/-- What a stack yields depends on its entries in use and on the blocks it yields. -/
theorem Yields.congr (h : Yields d s l) (hs : Agree s s')
    (hb : ∀ b ∈ l, blockOf d' b = blockOf d b) : Yields d' s' l := by
  induction l generalizing s s' with
  | nil => exact hs.top h
  | cons b l ih =>
    obtain ⟨htop, hne, hrest⟩ := h
    refine ⟨hs.top htop, hne, ih hrest ?_ fun c hc => hb c (List.mem_cons_of_mem b hc)⟩
    unfold rest
    rw [hs.1]
    split
    · rw [freeStack, freeStack, hb b List.mem_cons_self]
      exact Agree.refl _
    · refine ⟨rfl, fun k hk => hs.2 k ?_⟩
      dsimp only at hk
      omega

theorem Yields.bounds (h : Yields d s l) : 1 ≤ s.nfree ∧ s.nfree ≤ NICFREE := by
  cases l with
  | nil => exact ⟨h.1, h.2.1⟩
  | cons b l => exact ⟨h.1.1, h.1.2.1⟩

/-- The walk returns what the stack yields and then reports no space, and
every reload finds a count between 1 and NICFREE in a block of the list. -/
theorem allocAll_of_yields (h : Yields d s l) {fuel : ℕ} (hf : l.length < fuel) :
    (allocAll d fuel s).1.map Prod.fst = l ∧ (allocAll d fuel s).2 = true ∧
      ∀ b c, (b, some c) ∈ (allocAll d fuel s).1 → 1 ≤ c ∧ c ≤ NICFREE ∧ b ∈ l := by
  induction l generalizing s fuel with
  | nil =>
    obtain ⟨fuel, rfl⟩ : ∃ n, fuel = n + 1 := ⟨fuel - 1, by simp at hf; omega⟩
    have ha : alloc d s = none := if_pos h.2.2
    unfold allocAll
    rw [ha]
    exact ⟨rfl, rfl, fun b c hc => by simp at hc⟩
  | cons b l ih =>
    obtain ⟨fuel, rfl⟩ : ∃ n, fuel = n + 1 := ⟨fuel - 1, by simp at hf; omega⟩
    obtain ⟨⟨h1, h2, htop⟩, hne, hrest⟩ := h
    obtain ⟨hl, hend, hcounts⟩ := ih hrest (by simpa using hf)
    have hbounds := hrest.bounds
    have ha : alloc d s =
        some (b, if s.nfree = 1 then some (freeStack d b).nfree else none, rest d s b) := by
      unfold alloc rest
      simp only [htop]
      rw [if_neg hne]
      by_cases hn : s.nfree = 1
      · rw [if_pos (by omega), if_pos hn, if_pos hn]
      · rw [if_neg (by omega), if_neg hn, if_neg hn]
    unfold allocAll
    rw [ha]
    refine ⟨by rw [List.map_cons, hl], hend, ?_⟩
    intro v c hv
    rcases List.mem_cons.mp hv with hv | hv
    · obtain ⟨hvb, hc⟩ := Prod.mk.inj hv
      by_cases hn : s.nfree = 1
      · rw [if_pos hn] at hc
        rw [rest, if_pos hn] at hbounds
        rw [hvb, Option.some.inj hc]
        exact ⟨hbounds.1, hbounds.2, List.mem_cons_self⟩
      · rw [if_neg hn] at hc
        cases hc
    · obtain ⟨hc1, hc2, hmem⟩ := hcounts v c hv
      exact ⟨hc1, hc2, List.mem_cons_of_mem b hmem⟩

/-! ## Building the list -/

/-- The stack in memory. -/
def memStack (fs : Fs) : Stack := ⟨fs.nfree, fs.free⟩

/-- What freeing blocks leaves alone: everything but the stack and the freed blocks. -/
structure Freed (fs fs' : Fs) (bs : List ℕ) : Prop where
  length : fs'.data.length = fs.data.length
  blocks : ∀ k, k ∉ bs → blockOf fs'.data k = blockOf fs.data k
  free : fs'.free.length = fs.free.length
  shape : fs'.nblocks = fs.nblocks ∧ fs'.iblocks = fs.iblocks ∧ fs'.first_data = fs.first_data ∧
    fs'.ninodes = fs.ninodes ∧ fs'.next_block = fs.next_block ∧ fs'.next_ino = fs.next_ino ∧
    fs'.inodes = fs.inodes ∧ fs'.now = fs.now ∧ fs'.stored = fs.stored

theorem Freed.trans {fs'' : Fs} {cs : List ℕ} (h : Freed fs fs' bs) (k : Freed fs' fs'' cs) :
    Freed fs fs'' (bs ++ cs) := by
  obtain ⟨h1, h2, h3, h4, h5, h6, h7, h8, h9⟩ := h.shape
  refine ⟨k.length.trans h.length, ?_, k.free.trans h.free, ?_⟩
  · intro b hb
    rw [List.mem_append, not_or] at hb
    exact (k.blocks b hb.2).trans (h.blocks b hb.1)
  · rw [← h1, ← h2, ← h3, ← h4, ← h5, ← h6, ← h7, ← h8, ← h9]
    exact k.shape

/-- A stack spilled into a block reads back from it. -/
theorem freeStack_spilled {count words : Bytes} (hc : fmti.pack fs.nfree = .ok count)
    (hw : packWords fs.free = .ok words) (hlen : fs.free.length = NICFREE)
    (hb : blockOf d b = pad BSIZE (count ++ words)) : freeStack d b = memStack fs := by
  have hcount : count.length = 4 := Format.length_pack hc
  obtain ⟨rfl, hlt⟩ := packWords_eq hw
  have hN : NICFREE = 50 := rfl
  have hB : BSIZE = 1024 := rfl
  have hpad : ∀ off n, off + n ≤ 4 + 200 →
      slice (blockOf d b) off n = slice (count ++ wordBytes fs.free) off n := by
    intro off n ho
    rw [hb, pad]
    exact slice_append_left _ _ (by
      rw [List.length_append, hcount, length_wordBytes]
      omega)
  have hnfree : fmti.value (slice (blockOf d b) 0 fmti.width) = fs.nfree := by
    have hslice : slice (blockOf d b) 0 fmti.width = count := by
      rw [hpad 0 fmti.width (by simp [fmti]),
        slice_append_left _ _ (by rw [hcount]; exact Nat.le_refl 4)]
      exact slice_all hcount
    rw [hslice, Format.value_pack hc]
  have hfree : (List.range NICFREE).map (fun k => decode (slice (blockOf d b) (4 + k * 4) 4)) =
      fs.free := by
    refine List.ext_getElem (by rw [List.length_map, List.length_range, hlen]) fun k hk hk' => ?_
    rw [List.getElem_map, List.getElem_range, hpad _ _ (by omega), ← hcount, slice_append_right,
      hcount, decode_wordBytes hlt hk']
  unfold freeStack stackAt memStack
  rw [hnfree, hfree]

theorem length_spilled {count words : Bytes} (hc : fmti.pack fs.nfree = .ok count)
    (hw : packWords fs.free = .ok words) (hlen : fs.free.length = NICFREE) :
    (pad BSIZE (count ++ words)).length = BSIZE := by
  have hcount : count.length = 4 := Format.length_pack hc
  have hN : NICFREE = 50 := rfl
  have hB : BSIZE = 1024 := rfl
  rw [(packWords_eq hw).1]
  exact length_pad (by rw [List.length_append, hcount, length_wordBytes]; omega)

/-- Pushing onto a stack with room. -/
theorem push_yields {n : ℕ} {free : List ℕ} (h : Yields d ⟨n, free⟩ l) (hlen : n < free.length)
    (hfree : free.length = NICFREE) (hb : b ≠ 0) :
    Yields d ⟨n + 1, free.set n b⟩ (b :: l) := by
  have hn : (1 : ℤ) ≤ n := h.bounds.1
  have htop : ((n : ℤ) + 1 - 1).toNat = n := by omega
  refine ⟨⟨?_, ?_, ?_⟩, hb, ?_⟩
  · dsimp only
    omega
  · dsimp only
    omega
  · simp only [htop]
    rw [List.getD_eq_getElem _ _ (by rwa [List.length_set]), List.getElem_set_self]
  · have hne : (n : ℤ) + 1 ≠ 1 := by omega
    rw [rest, if_neg hne]
    refine h.congr ⟨by simp, fun k hk => ?_⟩ fun _ _ => rfl
    have hkn : (k : ℤ) < n := hk
    dsimp only
    rw [List.getD_eq_getElem _ _ (by rw [List.length_set]; omega),
      List.getD_eq_getElem _ _ (by omega), List.getElem_set_of_ne (by omega)]

/-- Starting a stack over a block that the full one has been spilled into. -/
theorem start_yields {s : Stack} {free : List ℕ} (h : Yields d s l) (hr : freeStack d b = s)
    (hfree : free.length = NICFREE) (hb : b ≠ 0) :
    Yields d ⟨1, free.set 0 b⟩ (b :: l) := by
  have hN : NICFREE = 50 := rfl
  refine ⟨⟨le_refl 1, by simp [hN], ?_⟩, hb, ?_⟩
  · have hpos : 0 < (free.set 0 b).length := by
      rw [List.length_set]
      omega
    have htop : ((1 : ℤ) - 1).toNat = 0 := rfl
    simp only [htop]
    rw [List.getD_eq_getElem _ _ hpos, List.getElem_set_self]
  · rw [rest, if_pos rfl, hr]
    exact h

/-- Freeing a block pushes it onto what the stack yields. -/
theorem bfree_yields (h : fs.bfree b = .ok fs') (hy : Yields fs.data (memStack fs) l)
    (hsize : fs.data.length = fs.nblocks * BSIZE) (hlen : fs.free.length = NICFREE)
    (hb : b < fs.nblocks) (hne : b ≠ 0) (hl : b ∉ l) :
    Yields fs'.data (memStack fs') (b :: l) ∧ Freed fs fs' [b] ∧ fs'.tfree = fs.tfree := by
  have hbounds := hy.bounds
  unfold Fs.bfree at h
  obtain ⟨fs₁, hspill, h⟩ := bind_eq_ok.mp h
  cases h
  unfold Fs.spill at hspill
  by_cases hfull : fs.nfree = NICFREE
  · rw [if_pos hfull] at hspill
    obtain ⟨count, hcount, hspill⟩ := bind_eq_ok.mp hspill
    obtain ⟨words, hwords, hspill⟩ := bind_eq_ok.mp hspill
    obtain ⟨fs₂, hput, hspill⟩ := bind_eq_ok.mp hspill
    cases hspill
    obtain ⟨hsmall, rfl⟩ := put_eq hput
    have hbuf := length_spilled hcount hwords hlen
    have hself := blockOf_setSlice_full hsize hb hbuf
    have hother := fun k => blockOf_setSlice (j := k) hsize hb hsmall
    have hin : b * BSIZE + (pad BSIZE (count ++ words)).length ≤ fs.data.length := by
      have := block_fits hb
      omega
    have hy' : Yields (setSlice fs.data (b * BSIZE) (pad BSIZE (count ++ words)))
        (memStack fs) l :=
      hy.congr (Agree.refl _) fun c hc => hother c fun he => hl (he ▸ hc)
    refine ⟨start_yields hy' (freeStack_spilled hcount hwords hlen hself) hlen hne, ?_, rfl⟩
    refine ⟨length_setSlice hin, fun k hk => hother k fun he => hk (by simp [he]),
      List.length_set, ?_⟩
    exact ⟨rfl, rfl, rfl, rfl, rfl, rfl, rfl, rfl, rfl⟩
  · rw [if_neg hfull] at hspill
    cases hspill
    have hroom : fs.nfree < fs.free.length := by
      have hle : (fs.nfree : ℤ) ≤ NICFREE := hbounds.2
      omega
    exact ⟨push_yields hy hroom hlen hne, ⟨rfl, fun _ _ => rfl, List.length_set,
      rfl, rfl, rfl, rfl, rfl, rfl, rfl, rfl, rfl⟩, rfl⟩

/-- Freeing a list of blocks one after the other. -/
theorem bfreeAll_yields (h : fs.bfreeAll bs = .ok fs') (hy : Yields fs.data (memStack fs) l)
    (hsize : fs.data.length = fs.nblocks * BSIZE) (hlen : fs.free.length = NICFREE)
    (hb : ∀ b ∈ bs, b < fs.nblocks ∧ b ≠ 0 ∧ b ∉ l) (hn : bs.Nodup) :
    Yields fs'.data (memStack fs') (bs.reverse ++ l) ∧ Freed fs fs' bs ∧
      fs'.tfree = fs.tfree + bs.length := by
  induction bs generalizing fs l with
  | nil =>
    cases h
    exact ⟨hy, ⟨rfl, fun _ _ => rfl, rfl, rfl, rfl, rfl, rfl, rfl, rfl, rfl, rfl, rfl⟩, rfl⟩
  | cons b bs ih =>
    unfold Fs.bfreeAll at h
    obtain ⟨fs₁, hone, h⟩ := bind_eq_ok.mp h
    obtain ⟨hlt, hne, hl⟩ := hb b List.mem_cons_self
    obtain ⟨hbs, hn⟩ := List.nodup_cons.mp hn
    obtain ⟨hy₁, hfreed, htfree⟩ := bfree_yields hone hy hsize hlen hlt hne hl
    have hfreed' : Freed fs { fs₁ with tfree := fs₁.tfree + 1 } [b] :=
      ⟨hfreed.length, hfreed.blocks, hfreed.free, hfreed.shape⟩
    have hnb : fs₁.nblocks = fs.nblocks := hfreed.shape.1
    obtain ⟨hy', hrest, hcount⟩ := ih h hy₁ (by rw [hfreed'.length, hnb]; exact hsize)
      (by rw [hfreed'.free]; exact hlen) (fun c hc => by
        obtain ⟨h1, h2, h3⟩ := hb c (List.mem_cons_of_mem b hc)
        refine ⟨by rw [hnb]; exact h1, h2, ?_⟩
        rw [List.mem_cons, not_or]
        exact ⟨fun he => hbs (he ▸ hc), h3⟩) hn
    refine ⟨?_, hfreed'.trans hrest, ?_⟩
    · rw [List.reverse_cons, List.append_assoc]
      exact hy'
    · rw [hcount, List.length_cons]
      dsimp only
      omega

/-- The state `build_free_list` starts from. -/
def emptied (fs : Fs) : Fs := { fs with nfree := 0, free := List.replicate NICFREE 0, tfree := 0 }

/-- The stack with the terminating zero only. -/
theorem bfree_zero (h : (emptied fs).bfree 0 = .ok fs') :
    fs' = { emptied fs with nfree := 1 } ∧ Yields fs'.data (memStack fs') [] := by
  have hone : (1 : ℤ) ≤ NICFREE := by decide
  unfold Fs.bfree Fs.spill at h
  cases h
  exact ⟨rfl, le_refl 1, hone, rfl⟩

/-- The free list yields the free area in ascending order. -/
theorem build_free_list_yields (h : fs.build_free_list = .ok fs')
    (hsize : fs.data.length = fs.nblocks * BSIZE) (hpos : 0 < fs.next_block) :
    Yields fs'.data (memStack fs') (List.range' fs.next_block (fs.nblocks - fs.next_block)) ∧
      Freed (emptied fs) fs' (List.range' fs.next_block (fs.nblocks - fs.next_block)).reverse ∧
      fs'.tfree = fs.nblocks - fs.next_block := by
  unfold Fs.build_free_list at h
  obtain ⟨fs₁, hzero, h⟩ := bind_eq_ok.mp h
  obtain ⟨rfl, hy⟩ := bfree_zero hzero
  have hfree : ∀ b ∈ (List.range' fs.next_block (fs.nblocks - fs.next_block)).reverse,
      b < fs.nblocks ∧ b ≠ 0 ∧ b ∉ ([] : List ℕ) := by
    intro b hb
    rw [List.mem_reverse, List.mem_range'_1] at hb
    exact ⟨by omega, by omega, by simp⟩
  have hnodup := List.nodup_reverse.mpr
    (List.nodup_range' (s := fs.next_block) (n := fs.nblocks - fs.next_block))
  obtain ⟨hyield, hfreed, htfree⟩ :=
    bfreeAll_yields h hy hsize List.length_replicate hfree hnodup
  refine ⟨?_, ⟨hfreed.length, hfreed.blocks, hfreed.free, hfreed.shape⟩, ?_⟩
  · rwa [List.reverse_reverse, List.append_nil] at hyield
  · rw [htfree, List.length_reverse, List.length_range']
    exact Nat.zero_add _

/-! ## The written list -/

/-- The stack in the superblock is the one in memory. -/
theorem superStack_eq (h : fs.write_superblock = .ok fs') (hlen : fs.free.length = NICFREE)
    (hsize : SUPERBOFF + 512 ≤ fs.data.length) : superStack fs'.data = memStack fs := by
  have hfield := fun f hf => write_superblock_field (f := f) h hlen hsize hf
  have hnfree : fmth.value (slice (superblock fs'.data) 8 fmth.width) = fs.nfree := by
    obtain ⟨b, hpack, hs⟩ := hfield (8, fmth, fs.nfree) (by simp [Fs.superFields])
    rw [hs, Format.value_pack hpack]
  have hfree : (List.range NICFREE).map
      (fun k => decode (slice (superblock fs'.data) (12 + k * 4) 4)) = fs.free := by
    refine List.ext_getElem (by rw [List.length_map, List.length_range, hlen]) fun k hk hk' => ?_
    have hmem : (12 + k * 4, fmtI, (fs.free[k] : ℤ)) ∈ fs.superFields := by
      have harr : (12 + k * 4, fmtI, (fs.free[k] : ℤ)) ∈ arrayFields 12 fmtI fs.free :=
        List.mem_mapIdx.mpr ⟨k, hk', rfl⟩
      rw [superFields_eq]
      simp [harr]
    obtain ⟨b, hpack, hs⟩ := hfield _ hmem
    obtain ⟨rfl, hlt⟩ := pack_nat (rfl : fmtI.signed = false) hpack
    rw [List.getElem_map, List.getElem_range]
    change slice (superblock fs'.data) (12 + k * 4) 4 = _ at hs
    rw [hs, decode_encode_of_lt hlt]
  unfold superStack stackAt memStack
  rw [hnfree, hfree]

/-- `s_tfree` of an image. -/
def s_tfree (d : Bytes) : ℕ := decode (slice (superblock d) 432 4)

/-- For every block count and allocation point, the walk from the superblock
returns exactly the free area in ascending order and then reports no space,
every reload finds a count between 1 and NICFREE in a block of the free area,
and the superblock counts the blocks returned. -/
theorem free_list_exact {fs₁ fs₂ : Fs} (hsize : fs.data.length = fs.nblocks * BSIZE)
    (hdata : 2 ≤ fs.first_data) (hfirst : fs.first_data ≤ fs.next_block)
    (hle : fs.next_block ≤ fs.nblocks) (hfree : fs.build_free_list = .ok fs₁)
    (hsuper : fs₁.write_superblock = .ok fs₂) {fuel : ℕ}
    (hfuel : fs.nblocks - fs.next_block < fuel) :
    let walk := allocAll fs₂.data fuel (superStack fs₂.data)
    walk.1.map Prod.fst = List.range' fs.next_block (fs.nblocks - fs.next_block) ∧
      walk.2 = true ∧
      (∀ b c, (b, some c) ∈ walk.1 →
        1 ≤ c ∧ c ≤ NICFREE ∧ fs.next_block ≤ b ∧ b < fs.nblocks) ∧
      walk.1.length = s_tfree fs₂.data := by
  have hblocks : 2 * BSIZE ≤ fs.nblocks * BSIZE := Nat.mul_le_mul_right _ (by omega)
  have hboot : SUPERBOFF + 512 ≤ 2 * BSIZE := by decide
  obtain ⟨hy, hfreed, htfree⟩ := build_free_list_yields hfree hsize (by omega)
  have hlen : fs₁.free.length = NICFREE := hfreed.free.trans List.length_replicate
  have hin : SUPERBOFF + 512 ≤ fs₁.data.length :=
    (hboot.trans hblocks).trans_eq (hfreed.length.trans hsize).symm
  obtain ⟨_, hframe, _⟩ := write_superblock_frame hsuper hlen hin
  have hblock : ∀ b ∈ List.range' fs.next_block (fs.nblocks - fs.next_block),
      blockOf fs₂.data b = blockOf fs₁.data b := by
    intro b hb
    rw [List.mem_range'_1] at hb
    have hone : 1 * BSIZE ≤ b * BSIZE := Nat.mul_le_mul_right _ (by omega)
    exact hframe _ _ (by rwa [Nat.one_mul] at hone)
  have hstack := superStack_eq hsuper hlen hin
  have hy₂ : Yields fs₂.data (superStack fs₂.data)
      (List.range' fs.next_block (fs.nblocks - fs.next_block)) := by
    rw [hstack]
    exact hy.congr (Agree.refl _) hblock
  obtain ⟨hwalk, hend, hcounts⟩ := allocAll_of_yields hy₂ (by rwa [List.length_range'])
  have htotal : s_tfree fs₂.data = fs₁.tfree := by
    obtain ⟨b, hpack, hs⟩ := write_superblock_field (f := (432, fmtI, fs₁.tfree)) hsuper hlen hin
      (by simp [Fs.superFields])
    obtain ⟨rfl, hlt⟩ := pack_nat (rfl : fmtI.signed = false) hpack
    change slice (superblock fs₂.data) 432 4 = _ at hs
    rw [s_tfree, hs, decode_encode_of_lt hlt]
  refine ⟨hwalk, hend, fun b c hbc => ?_, ?_⟩
  · obtain ⟨h1, h2, hmem⟩ := hcounts b c hbc
    rw [List.mem_range'_1] at hmem
    exact ⟨h1, h2, hmem.1, by omega⟩
  · rw [htotal, htfree, ← List.length_map (f := Prod.fst), hwalk, List.length_range']

/-- The two steps on a filesystem both succeed. -/
def writesList (fs : Fs) : Bool := (fs.build_free_list >>= Fs.write_superblock).isOk

/-- On sixty blocks, three of them before the free area, a full group spills
and the walk returns the 57 free blocks. -/
theorem free_list_exact_sixty :
    ∃ fs₂, (Fs.init 0 60 16).build_free_list >>= Fs.write_superblock = .ok fs₂ ∧
      (allocAll fs₂.data 58 (superStack fs₂.data)).1.map Prod.fst = List.range' 3 57 ∧
      s_tfree fs₂.data = 57 := by
  have hok : writesList (Fs.init 0 60 16) = true := by decide +kernel
  unfold writesList at hok
  cases hrun : (Fs.init 0 60 16).build_free_list >>= Fs.write_superblock with
  | error e =>
    rw [hrun] at hok
    cases hok
  | ok fs₂ =>
    obtain ⟨fs₁, hfree, hsuper⟩ := bind_eq_ok.mp hrun
    have hsize : (Fs.init 0 60 16).data.length = (Fs.init 0 60 16).nblocks * BSIZE :=
      List.length_replicate
    obtain ⟨hwalk, _, _, hcount⟩ := free_list_exact hsize (by decide) (by decide) (by decide)
      hfree hsuper (show 60 - 3 < 58 by omega)
    refine ⟨fs₂, rfl, hwalk, ?_⟩
    rw [← hcount, ← List.length_map (f := Prod.fst), hwalk]
    rfl

end Sys16.MkfsFreeList
