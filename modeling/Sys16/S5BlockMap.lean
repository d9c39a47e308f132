import Sys16.MkfsRead

/-!
# The block map of a file, and what the reader makes of it

The s5fs map from the logical blocks of a file to blocks of the image: ten
direct addresses, then one, two and three levels of indirect blocks, a zero at
any level standing for a hole. `S5.data` puts the blocks of a file together in
the order in which it comes to them, which is the order of the map only as long
as no indirect address is missing.
-/

namespace Sys16.S5BlockMap

open ByteStore LittleEndian PyText PyStruct MkfsImage MkfsBlocks MkfsRead S5Reader

variable {d : Bytes} {addr : List ℕ} {i : DiskInode} {n h j k r c : ℕ}

/-! ## The map -/

/-- A word of an indirect block; an absent block has no addresses. -/
def entry (d : Bytes) (n k : ℕ) : ℕ := if n = 0 then 0 else word d n k

/-- The block under an address, that many levels of indirect blocks down. -/
def leaf (d : Bytes) : ℕ → ℕ → ℕ → ℕ
  | 0, n, _ => n
  | h + 1, n, j => leaf d h (entry d n (j / NINDIR ^ h)) (j % NINDIR ^ h)

/-- The block of the image that holds a logical block, zero for a hole. -/
def bmap (d : Bytes) (addr : List ℕ) (j : ℕ) : ℕ :=
  if j < 10 then addr.getD j 0
  else if j < 10 + NINDIR then leaf d 1 (addr.getD 10 0) (j - 10)
  else if j < 10 + NINDIR + NINDIR ^ 2 then leaf d 2 (addr.getD 11 0) (j - (10 + NINDIR))
  else leaf d 3 (addr.getD 12 0) (j - (10 + NINDIR + NINDIR ^ 2))

/-- A byte of a block, zero in a hole. -/
def byteOf (d : Bytes) (n r : ℕ) : UInt8 := if n = 0 then 0 else d.getD (n * BS + r) 0

/-- A byte of a file. -/
def fileByte (d : Bytes) (addr : List ℕ) (k : ℕ) : UInt8 :=
  byteOf d (bmap d addr (k / BS)) (k % BS)

/-- The bytes of a file, as many as its size says. -/
def contents (d : Bytes) (i : DiskInode) : Bytes :=
  (List.range i.size.toNat).map (fileByte d i.blk)

/-- A block that is not a hole is on the image. -/
def OnImage (d : Bytes) (n : ℕ) : Prop := n ≠ 0 → n * BS + BS ≤ d.length

/-- All blocks that many levels down from an address are on the image. -/
def Rooted (d : Bytes) : ℕ → ℕ → Prop
  | 0, n => OnImage d n
  | h + 1, n => OnImage d n ∧ ∀ k < NINDIR, Rooted d h (entry d n k)

/-- The addresses of a file lie on the image. -/
structure AddressesOnImage (d : Bytes) (addr : List ℕ) : Prop where
  direct : ∀ j < 10, Rooted d 0 (addr.getD j 0)
  single : Rooted d 1 (addr.getD 10 0)
  double : Rooted d 2 (addr.getD 11 0)
  triple : Rooted d 3 (addr.getD 12 0)

@[simp] theorem entry_zero (k : ℕ) : entry d 0 k = 0 := if_pos rfl

@[simp] theorem byteOf_zero (r : ℕ) : byteOf d 0 r = 0 := if_pos rfl

/-- There is nothing under an absent address. -/
@[simp] theorem leaf_absent (h j : ℕ) : leaf d h 0 j = 0 := by
  induction h generalizing j with
  | zero => rfl
  | succ h ih => rw [leaf, entry_zero, ih]

/-- One level down is the entry itself. -/
theorem leaf_one (n j : ℕ) : leaf d 1 n j = entry d n j := by
  rw [leaf, leaf, pow_zero, Nat.div_one]

/-- Two levels down is an entry of an entry. -/
theorem leaf_two (n j : ℕ) : leaf d 2 n j = entry d (entry d n (j / NINDIR)) (j % NINDIR) := by
  rw [leaf, leaf_one, pow_one]

/-- What has its blocks on the image is there itself. -/
theorem Rooted.onImage (hr : Rooted d h n) : OnImage d n := by
  cases h with
  | zero => exact hr
  | succ h => exact hr.1

/-- What is under a rooted address is on the image. -/
theorem Rooted.leaf (hr : Rooted d h n) (hj : j < NINDIR ^ h) : OnImage d (leaf d h n j) := by
  induction h generalizing n j with
  | zero => exact hr
  | succ h ih =>
    have hpos : 0 < NINDIR ^ h := Nat.pow_pos (by decide)
    have hk : j / NINDIR ^ h < NINDIR := by
      rw [Nat.div_lt_iff_lt_mul hpos, ← Nat.pow_succ']
      exact hj
    exact ih (hr.2 _ hk) (Nat.mod_lt j hpos)

/-! ## Blocks put together -/

/-- Runs of one length put together are a function of quotient and remainder. -/
theorem flatMap_range_map {α : Type*} (f : ℕ → ℕ → α) (c m : ℕ) :
    (List.range c).flatMap (fun q => (List.range m).map (f q)) =
      (List.range (c * m)).map fun k => f (k / m) (k % m) := by
  rw [List.map_eq_flatMap, flatMap_range_mul]
  refine List.flatMap_congr fun q _ => ?_
  rw [List.map_eq_flatMap]
  refine List.flatMap_congr fun r hr => ?_
  have hr' : r < m := List.mem_range.mp hr
  rw [Nat.add_comm, Nat.add_mul_div_right _ _ (by omega), Nat.add_mul_mod_self_right,
    Nat.div_eq_of_lt hr', Nat.mod_eq_of_lt hr', Nat.zero_add]

/-- A block on the image has all its bytes, and no block has zeros. -/
theorem blk_eq (hn : OnImage d n) : blk d n = (List.range BS).map (byteOf d n) := by
  by_cases h0 : n = 0
  · rw [h0, blk, if_pos rfl]
    refine List.ext_getElem? fun k => ?_
    rw [List.getElem?_replicate, List.getElem?_map]
    by_cases hk : k < BS
    · rw [if_pos hk, List.getElem?_range hk, Option.map_some, byteOf_zero]
    · rw [if_neg hk, List.getElem?_eq_none (by rw [List.length_range]; omega), Option.map_none]
  · rw [blk, if_neg h0, slice_eq_map (hn h0) 0]
    refine List.map_congr_left fun k _ => ?_
    rw [byteOf, if_neg h0]

/-- The bytes of blocks on the image. -/
theorem blocks_eq {ns : List ℕ} (hns : ∀ n ∈ ns, OnImage d n) :
    blocks d ns = (List.range (ns.length * BS)).map fun k =>
      byteOf d (ns.getD (k / BS) 0) (k % BS) := by
  rw [← flatMap_range_map (fun q => byteOf d (ns.getD q 0))]
  have hlist : ns = (List.range ns.length).map fun q => ns.getD q 0 := by
    refine List.ext_getElem (by rw [List.length_map, List.length_range]) fun q hq _ => ?_
    rw [List.getElem_map, List.getElem_range, List.getD_eq_getElem _ _ hq]
  unfold blocks
  conv_lhs => rw [hlist]
  rw [List.flatMap_map]
  refine List.flatMap_congr fun q hq => ?_
  have hq' : q < ns.length := List.mem_range.mp hq
  refine blk_eq (hns _ ?_)
  rw [List.getD_eq_getElem _ _ hq']
  exact List.getElem_mem hq'

/-! ## What the reader puts together -/

/-- An indirect block on the image reads as its entries. -/
theorem ind_entries (hn : OnImage d n) (h0 : n ≠ 0) :
    ind d n = .ok ((List.range NINDIR).map (entry d n)) := by
  have hentry : entry d n = word d n := by
    funext k
    exact if_neg h0
  rw [hentry]
  exact ind_eq h0 (hn h0)

/-- The part under the single-indirect address is its blocks, or nothing. -/
theorem single_eq (hr : Rooted d 1 n) :
    single d n = .ok (blocks d ((List.range (if n = 0 then 0 else NINDIR)).map (leaf d 1 n))) := by
  have hleaf : leaf d 1 n = entry d n := funext (leaf_one n)
  unfold single
  by_cases h0 : n = 0
  · rw [if_pos h0, if_pos h0]
    rfl
  · rw [if_neg h0, if_neg h0, ind_entries hr.onImage h0, hleaf]
    rfl

/-- The loop over the double-indirect block stops at its first zero entry. -/
theorem under_takeWhile {ms : List ℕ} (hms : ∀ m ∈ ms, Rooted d 1 m) :
    under d ms = .ok (blocks d ((ms.takeWhile (· ≠ 0)).flatMap fun m =>
      (List.range NINDIR).map (entry d m))) := by
  induction ms with
  | nil => rfl
  | cons m ms ih =>
    by_cases h0 : m = 0
    · rw [under, if_pos h0, List.takeWhile_cons_of_neg (by simp [h0])]
      rfl
    · rw [under, if_neg h0, ind_entries (hms m List.mem_cons_self).onImage h0,
        ih fun x hx => hms x (List.mem_cons_of_mem m hx), List.takeWhile_cons_of_pos (by simp [h0])]
      unfold blocks
      rw [List.flatMap_cons, List.flatMap_append]
      rfl

/-- Entries of an indirect block before its first zero one. -/
def lead (d : Bytes) (n : ℕ) : ℕ :=
  ((List.range NINDIR).map (entry d n)).findIdx fun m => !decide (m ≠ 0)

/-- An entry is among the leading ones when it and all before it are there. -/
theorem lt_lead {q : ℕ} : q < lead d n ↔ q < NINDIR ∧ ∀ p ≤ q, entry d n p ≠ 0 := by
  unfold lead
  rw [List.lt_findIdx_iff]
  simp only [List.length_map, List.length_range, List.getElem_map, List.getElem_range,
    Bool.not_eq_false', decide_eq_true_eq, exists_prop]

/-- A block has so many entries only. -/
theorem lead_le (d : Bytes) (n : ℕ) : lead d n ≤ NINDIR := by
  have hle : lead d n ≤ ((List.range NINDIR).map (entry d n)).length := List.findIdx_le_length
  rwa [List.length_map, List.length_range] at hle

/-- An absent block has none. -/
theorem lead_zero : lead d 0 = 0 := by
  rw [← Nat.le_zero, ← not_lt]
  intro hlt
  exact (lt_lead.mp hlt).2 0 (le_refl 0) (entry_zero 0)

/-- The reader takes the entries of a block up to the first zero. -/
theorem takeWhile_entries (d : Bytes) (n : ℕ) :
    ((List.range NINDIR).map (entry d n)).takeWhile (· ≠ 0) =
      (List.range (lead d n)).map (entry d n) := by
  rw [List.takeWhile_eq_take_findIdx_not, ← List.map_take, List.take_range]
  congr 2
  exact Nat.min_eq_left (lead_le d n)

/-- The part under the double-indirect address is the blocks of its leading entries. -/
theorem double_eq (hr : Rooted d 2 n) :
    double d n = .ok (blocks d ((List.range (lead d n * NINDIR)).map (leaf d 2 n))) := by
  have hleaf : leaf d 2 n = fun j => entry d (entry d n (j / NINDIR)) (j % NINDIR) :=
    funext (leaf_two n)
  unfold double
  by_cases h0 : n = 0
  · rw [if_pos h0, h0, lead_zero, Nat.zero_mul]
    rfl
  · have hms : ∀ m ∈ (List.range NINDIR).map (entry d n), Rooted d 1 m := by
      intro m hm
      obtain ⟨k, hk, rfl⟩ := List.mem_map.mp hm
      exact hr.2 k (List.mem_range.mp hk)
    rw [if_neg h0, ind_entries hr.onImage h0]
    refine (under_takeWhile hms).trans ?_
    rw [takeWhile_entries, List.flatMap_map, flatMap_range_map fun q => entry d (entry d n q), hleaf]

/-- The blocks that the reader puts together, one after the other. -/
def supplied (d : Bytes) (addr : List ℕ) : List ℕ :=
  (List.range 10).map (fun j => addr.getD j 0) ++
    ((List.range (if addr.getD 10 0 = 0 then 0 else NINDIR)).map (leaf d 1 (addr.getD 10 0)) ++
      (List.range (lead d (addr.getD 11 0) * NINDIR)).map (leaf d 2 (addr.getD 11 0)))

/-- The blocks that the reader puts together, counted. -/
theorem length_supplied (d : Bytes) (addr : List ℕ) :
    (supplied d addr).length =
      10 + ((if addr.getD 10 0 = 0 then 0 else NINDIR) + lead d (addr.getD 11 0) * NINDIR) := by
  unfold supplied
  rw [List.length_append, List.length_append, List.length_map, List.length_map, List.length_map,
    List.length_range, List.length_range, List.length_range]

/-- All of them are on the image. -/
theorem onImage_supplied (ha : AddressesOnImage d addr) : ∀ n ∈ supplied d addr, OnImage d n := by
  intro n hn
  have hle := lead_le d (addr.getD 11 0)
  rcases List.mem_append.mp hn with hn | hn
  · obtain ⟨j, hj, rfl⟩ := List.mem_map.mp hn
    exact ha.direct j (List.mem_range.mp hj)
  rcases List.mem_append.mp hn with hn | hn
  · obtain ⟨j, hj, rfl⟩ := List.mem_map.mp hn
    have hj' := List.mem_range.mp hj
    refine ha.single.leaf ?_
    rw [pow_one]
    split at hj' <;> omega
  · obtain ⟨j, hj, rfl⟩ := List.mem_map.mp hn
    have hj' := List.mem_range.mp hj
    refine ha.double.leaf (Nat.lt_of_lt_of_le hj' ?_)
    rw [pow_two]
    exact Nat.mul_le_mul_right _ hle

/-- The first ten are the direct addresses. -/
theorem take_direct (hlen : i.blk.length = 13) :
    i.blk.take 10 = (List.range 10).map fun j => i.blk.getD j 0 := by
  refine List.ext_getElem (by rw [List.length_take, List.length_map, List.length_range]; omega) ?_
  intro j hj _
  rw [List.getElem_take, List.getElem_map, List.getElem_range, List.getD_eq_getElem]

/-- The reader puts the supplied blocks together and cuts them off at the size. -/
theorem data_eq (hlen : i.blk.length = 13) (ha : AddressesOnImage d i.blk) :
    S5Reader.data d i = .ok ((blocks d (supplied d i.blk)).take i.size.toNat) := by
  unfold S5Reader.data
  rw [single_eq ha.single, double_eq ha.double, take_direct hlen]
  unfold supplied blocks
  rw [List.flatMap_append, List.flatMap_append, ← List.append_assoc]
  rfl

/-- Two lists given by functions agree on a length when the functions do. -/
theorem take_map_range_eq_iff {α : Type*} (f g : ℕ → α) (m n : ℕ) :
    ((List.range m).map f).take n = (List.range n).map g ↔ ∀ k < n, k < m ∧ f k = g k := by
  constructor
  · intro h k hk
    have hat := congrArg (fun l => l[k]?) h
    rw [List.getElem?_take_of_lt hk, List.getElem?_map, List.getElem?_map,
      List.getElem?_range hk, Option.map_some] at hat
    by_cases hm : k < m
    · rw [List.getElem?_range hm, Option.map_some] at hat
      exact ⟨hm, Option.some.inj hat⟩
    · rw [List.getElem?_eq_none (by rw [List.length_range]; omega), Option.map_none] at hat
      cases hat
  · intro h
    refine List.ext_getElem? fun k => ?_
    by_cases hk : k < n
    · obtain ⟨hm, hfg⟩ := h k hk
      rw [List.getElem?_take_of_lt hk, List.getElem?_map, List.getElem?_map, List.getElem?_range hm,
        List.getElem?_range hk, Option.map_some, Option.map_some, hfg]
    · rw [List.getElem?_eq_none (by rw [List.length_take]; omega),
        List.getElem?_eq_none (by rw [List.length_map, List.length_range]; omega)]

/-- The reader follows the map when every byte of the file is supplied and is the map's. -/
theorem data_eq_contents_iff (hlen : i.blk.length = 13) (ha : AddressesOnImage d i.blk) :
    S5Reader.data d i = .ok (contents d i) ↔ ∀ k < i.size.toNat,
      k / BS < (supplied d i.blk).length ∧
        byteOf d ((supplied d i.blk).getD (k / BS) 0) (k % BS) = fileByte d i.blk k := by
  rw [data_eq hlen ha, blocks_eq (onImage_supplied ha), Except.ok.injEq]
  unfold contents
  rw [take_map_range_eq_iff]
  refine forall₂_congr fun k _ => and_congr_left fun _ => ?_
  exact (Nat.div_lt_iff_lt_mul (by decide)).symm

/-! ## When that is the file -/

/-- The condition under which the order of the reader is that of the map. The
file ends within the direct blocks; or there is a single-indirect block, and
every entry of the double-indirect block up to the one that the size reaches is
there; or there is none, the entries reach as far when their blocks come right
after the direct ones, and all that they put there is zeros, as is the file. -/
def Followed (d : Bytes) (i : DiskInode) : Prop :=
  i.size.toNat ≤ 10 * BS ∨
  (i.blk.getD 10 0 ≠ 0 ∧ ∀ q, (10 + NINDIR + q * NINDIR) * BS < i.size.toNat →
    q < NINDIR ∧ entry d (i.blk.getD 11 0) q ≠ 0) ∨
  (i.blk.getD 10 0 = 0 ∧ (∀ q, (10 + q * NINDIR) * BS < i.size.toNat →
      q < NINDIR ∧ entry d (i.blk.getD 11 0) q ≠ 0) ∧
    ∀ j r, r < BS → (10 + j) * BS + r < i.size.toNat →
      byteOf d (leaf d 2 (i.blk.getD 11 0) j) r = 0)

/-- The entries that a size reaches are there when the leading ones cover it. -/
theorem reached_iff (d : Bytes) (n off size : ℕ) :
    (∀ q, (off + q * NINDIR) * BS < size → q < NINDIR ∧ entry d n q ≠ 0) ↔
      size ≤ (off + lead d n * NINDIR) * BS := by
  constructor
  · intro h
    by_contra hlt
    have hall : ∀ p ≤ lead d n, p < NINDIR ∧ entry d n p ≠ 0 := by
      intro p hp
      refine h p (Nat.lt_of_le_of_lt ?_ (Nat.lt_of_not_le hlt))
      exact Nat.mul_le_mul_right _ (Nat.add_le_add_left (Nat.mul_le_mul_right _ hp) _)
    exact absurd (lt_lead.mpr ⟨(hall _ (le_refl _)).1, fun p hp => (hall p hp).2⟩) (lt_irrefl _)
  · intro h q hq
    have hlt : q < lead d n := by
      by_contra hge
      have hle := Nat.mul_le_mul_right BS
        (Nat.add_le_add_left (Nat.mul_le_mul_right NINDIR (Nat.le_of_not_lt hge)) off)
      omega
    have hq' := lt_lead.mp hlt
    exact ⟨hq'.1, hq'.2 q (le_refl q)⟩

/-- An element of a list given by a function. -/
theorem getD_map_range {α : Type*} (f : ℕ → α) (a : α) (hk : k < n) :
    ((List.range n).map f).getD k a = f k := by
  rw [List.getD_eq_getElem _ _ (by rw [List.length_map, List.length_range]; exact hk),
    List.getElem_map, List.getElem_range]

/-- The direct blocks are in their places. -/
theorem supplied_direct (d : Bytes) (addr : List ℕ) (hj : j < 10) :
    (supplied d addr).getD j 0 = addr.getD j 0 := by
  unfold supplied
  rw [List.getD_append _ _ _ _ (by rw [List.length_map, List.length_range]; exact hj),
    getD_map_range _ _ hj]

/-- Behind the direct blocks come those under the single-indirect address, when
there is one, and then those under the double-indirect one. -/
theorem supplied_single (h10 : addr.getD 10 0 ≠ 0) (hj : 10 ≤ j) (hlt : j < 10 + NINDIR) :
    (supplied d addr).getD j 0 = leaf d 1 (addr.getD 10 0) (j - 10) := by
  unfold supplied
  rw [if_neg h10, List.getD_append_right _ _ _ _ (by rw [List.length_map, List.length_range]; exact hj),
    List.length_map, List.length_range,
    List.getD_append _ _ _ _ (by rw [List.length_map, List.length_range]; omega),
    getD_map_range _ _ (by omega)]

/-- Those of the double-indirect block follow, right behind the direct ones when there is
no single-indirect block. -/
theorem supplied_double (hj : 10 + (if addr.getD 10 0 = 0 then 0 else NINDIR) ≤ j)
    (hlt : j < (supplied d addr).length) :
    (supplied d addr).getD j 0 =
      leaf d 2 (addr.getD 11 0) (j - (10 + if addr.getD 10 0 = 0 then 0 else NINDIR)) := by
  rw [length_supplied] at hlt
  unfold supplied
  rw [List.getD_append_right _ _ _ _ (by rw [List.length_map, List.length_range]; omega),
    List.length_map, List.length_range,
    List.getD_append_right _ _ _ _ (by rw [List.length_map, List.length_range]; omega),
    List.length_map, List.length_range, Nat.sub_sub, getD_map_range _ _ (by omega)]

/-- With a single-indirect block, every supplied block is the map's. -/
theorem supplied_eq_bmap (h10 : addr.getD 10 0 ≠ 0) (hj : j < (supplied d addr).length) :
    (supplied d addr).getD j 0 = bmap d addr j := by
  have hlead := lead_le d (addr.getD 11 0)
  have hlen := length_supplied d addr
  have hpow : NINDIR ^ 2 = NINDIR * NINDIR := pow_two _
  rw [if_neg h10] at hlen
  unfold bmap
  by_cases hdirect : j < 10
  · rw [if_pos hdirect, supplied_direct d addr hdirect]
  by_cases hsingle : j < 10 + NINDIR
  · rw [if_neg hdirect, if_pos hsingle, supplied_single h10 (by omega) hsingle]
  · have hmul := Nat.mul_le_mul_right NINDIR hlead
    have hdouble := supplied_double (j := j) (by rw [if_neg h10]; omega) hj
    rw [if_neg h10] at hdouble
    rw [if_neg hdirect, if_neg hsingle, if_pos (by omega), hdouble]

/-- Without one, the double-indirect blocks come right after the direct ones. -/
theorem supplied_shifted (h10 : addr.getD 10 0 = 0) (hj : 10 ≤ j)
    (hlt : j < (supplied d addr).length) :
    (supplied d addr).getD j 0 = leaf d 2 (addr.getD 11 0) (j - 10) := by
  have hdouble := supplied_double (j := j) (by rw [if_pos h10]; omega) hlt
  rwa [if_pos h10] at hdouble

/-- Without one, the map has a hole of its length before them. -/
theorem bmap_hole (h10 : addr.getD 10 0 = 0) (hj : 10 ≤ j) (hlt : j < 10 + NINDIR + NINDIR ^ 2) :
    bmap d addr j =
      if j < 10 + NINDIR then 0 else leaf d 2 (addr.getD 11 0) (j - (10 + NINDIR)) := by
  unfold bmap
  rw [if_neg (by omega), if_pos hlt, h10, leaf_absent]

/-- The block that a byte of a file is in. -/
theorem block_div (j : ℕ) (hr : r < BS) : (j * BS + r) / BS = j := by
  rw [Nat.add_comm, Nat.add_mul_div_right _ _ (by decide), Nat.div_eq_of_lt hr, Nat.zero_add]

/-- And its place in it. -/
theorem block_mod (j : ℕ) (hr : r < BS) : (j * BS + r) % BS = r := by
  rw [Nat.add_comm, Nat.add_mul_mod_self_right, Nat.mod_eq_of_lt hr]

/-- Every byte of a file is supplied when the supplied blocks cover its size. -/
theorem covered_iff (d : Bytes) (addr : List ℕ) (size : ℕ) :
    (∀ k < size, k / BS < (supplied d addr).length) ↔ size ≤ (supplied d addr).length * BS := by
  constructor
  · intro h
    by_contra hlt
    have hlast := h ((supplied d addr).length * BS) (by omega)
    rw [Nat.mul_div_cancel _ (by decide)] at hlast
    exact lt_irrefl _ hlast
  · intro h k hk
    exact (Nat.div_lt_iff_lt_mul (by decide)).mpr (Nat.lt_of_lt_of_le hk h)

/-- With a single-indirect block the reader follows the map as far as it supplies blocks. -/
theorem follows_of_single (h10 : i.blk.getD 10 0 ≠ 0) :
    (∀ k < i.size.toNat, k / BS < (supplied d i.blk).length ∧
      byteOf d ((supplied d i.blk).getD (k / BS) 0) (k % BS) = fileByte d i.blk k) ↔
      Followed d i := by
  have hlen := length_supplied d i.blk
  rw [if_neg h10] at hlen
  have hbytes : (∀ k < i.size.toNat, k / BS < (supplied d i.blk).length ∧
      byteOf d ((supplied d i.blk).getD (k / BS) 0) (k % BS) = fileByte d i.blk k) ↔
      ∀ k < i.size.toNat, k / BS < (supplied d i.blk).length := by
    refine forall₂_congr fun k _ => and_iff_left_of_imp fun hk => ?_
    unfold fileByte
    rw [supplied_eq_bmap h10 hk]
  rw [hbytes, covered_iff, hlen, ← Nat.add_assoc]
  unfold Followed
  rw [reached_iff]
  constructor
  · exact fun h => Or.inr (Or.inl ⟨h10, h⟩)
  · rintro (h | ⟨-, h⟩ | ⟨h0, -⟩)
    · exact h.trans (Nat.mul_le_mul_right _ (by omega))
    · exact h
    · exact absurd h0 h10

/-- The bytes that follow the direct blocks without a single-indirect block are
zeros as far as the file goes, because each is what the map has one
single-indirect block further on. -/
theorem shifted_zero (h10 : i.blk.getD 10 0 = 0)
    (h : ∀ k < i.size.toNat, k / BS < (supplied d i.blk).length ∧
      byteOf d ((supplied d i.blk).getD (k / BS) 0) (k % BS) = fileByte d i.blk k)
    (hr : r < BS) (hk : (10 + j) * BS + r < i.size.toNat) :
    byteOf d (leaf d 2 (i.blk.getD 11 0) j) r = 0 := by
  have hlead := Nat.mul_le_mul_right NINDIR (lead_le d (i.blk.getD 11 0))
  have hpow : NINDIR ^ 2 = NINDIR * NINDIR := pow_two _
  have hlen := length_supplied d i.blk
  rw [if_pos h10] at hlen
  induction j using Nat.strong_induction_on with
  | _ j ih =>
    obtain ⟨hlt, hbyte⟩ := h _ hk
    unfold fileByte at hbyte
    rw [block_div _ hr] at hlt
    rw [block_div _ hr, block_mod _ hr, supplied_shifted h10 (by omega) hlt,
      bmap_hole h10 (by omega) (by omega), Nat.add_sub_cancel_left] at hbyte
    by_cases hhole : 10 + j < 10 + NINDIR
    · rw [if_pos hhole, byteOf_zero] at hbyte
      exact hbyte
    · have hN : 0 < NINDIR := by decide
      have hback : (10 + (j - NINDIR)) * BS + r < i.size.toNat := by
        have hle := Nat.mul_le_mul_right BS (show 10 + (j - NINDIR) ≤ 10 + j by omega)
        omega
      rw [if_neg hhole, show 10 + j - (10 + NINDIR) = j - NINDIR by omega] at hbyte
      exact hbyte.trans (ih (j - NINDIR) (by omega) hback)

/-- Without a single-indirect block the reader follows the map when all is zero. -/
theorem follows_of_hole (h10 : i.blk.getD 10 0 = 0) :
    (∀ k < i.size.toNat, k / BS < (supplied d i.blk).length ∧
      byteOf d ((supplied d i.blk).getD (k / BS) 0) (k % BS) = fileByte d i.blk k) ↔
      Followed d i := by
  have hlead := Nat.mul_le_mul_right NINDIR (lead_le d (i.blk.getD 11 0))
  have hpow : NINDIR ^ 2 = NINDIR * NINDIR := pow_two _
  have hlen := length_supplied d i.blk
  rw [if_pos h10, Nat.zero_add] at hlen
  unfold Followed
  rw [reached_iff, reached_iff]
  constructor
  · intro h
    refine Or.inr (Or.inr ⟨h10, ?_, fun j r hr hk => shifted_zero h10 h hr hk⟩)
    rw [← hlen]
    exact (covered_iff d i.blk _).mp fun k hk => (h k hk).1
  · intro h k hk
    have hdiv := Nat.div_add_mod' k BS
    have hmod : k % BS < BS := Nat.mod_lt k (by decide)
    have hcover : i.size.toNat ≤ (supplied d i.blk).length * BS := by
      rw [hlen]
      rcases h with h | ⟨hne, -⟩ | ⟨-, h, -⟩
      · exact h.trans (Nat.mul_le_mul_right _ (by omega))
      · exact absurd h10 hne
      · exact h
    have hlt := (covered_iff d i.blk _).mpr hcover k hk
    refine ⟨hlt, ?_⟩
    unfold fileByte
    by_cases hdirect : k / BS < 10
    · unfold bmap
      rw [supplied_direct d _ hdirect, if_pos hdirect]
    rcases h with h | ⟨hne, -⟩ | ⟨-, -, hzero⟩
    · exact absurd ((Nat.div_lt_iff_lt_mul (by decide)).mpr (Nat.lt_of_lt_of_le hk h)) hdirect
    · exact absurd h10 hne
    have hat : ∀ j ≤ k / BS - 10, byteOf d (leaf d 2 (i.blk.getD 11 0) j) (k % BS) = 0 := by
      intro j hj
      refine hzero j (k % BS) hmod ?_
      have hle := Nat.mul_le_mul_right BS (show 10 + j ≤ k / BS by omega)
      omega
    rw [supplied_shifted h10 (by omega) hlt, bmap_hole h10 (by omega) (by omega),
      hat _ (le_refl _)]
    split
    · exact (byteOf_zero _).symm
    · exact (hat _ (by omega)).symm

/-- An inode that was read has its thirteen addresses. -/
theorem length_blk {ino : ℕ} (hi : S5Reader.inode d ino = .ok i) : i.blk.length = 13 := by
  unfold S5Reader.inode at hi
  obtain ⟨mode, -, hi⟩ := bind_eq_ok.mp hi
  obtain ⟨nlink, -, hi⟩ := bind_eq_ok.mp hi
  obtain ⟨uid, -, hi⟩ := bind_eq_ok.mp hi
  obtain ⟨gid, -, hi⟩ := bind_eq_ok.mp hi
  obtain ⟨size, -, hi⟩ := bind_eq_ok.mp hi
  obtain ⟨blk, hblk, hi⟩ := bind_eq_ok.mp hi
  rw [← Except.ok.inj hi]
  have hlen := (mapM_eq_ok.mp hblk).length_eq
  rw [List.length_range] at hlen
  exact hlen.symm

/-- For an inode whose addresses lie on the image, `S5.data` returns the file
of the block map exactly when the order of the reader is that of the map. -/
theorem data_follows_map_iff {ino : ℕ} (hi : S5Reader.inode d ino = .ok i)
    (ha : AddressesOnImage d i.blk) :
    S5Reader.data d i = .ok (contents d i) ↔ Followed d i := by
  rw [data_eq_contents_iff (length_blk hi) ha]
  by_cases h10 : i.blk.getD 10 0 = 0
  · exact follows_of_hole h10
  · exact follows_of_single h10

/-- There is nothing under an absent address that could lie off the image. -/
theorem rooted_zero (h : ℕ) : Rooted d h 0 := by
  induction h with
  | zero => exact fun hne => absurd rfl hne
  | succ h ih => exact ⟨fun hne => absurd rfl hne, fun k _ => (entry_zero (d := d) k).symm ▸ ih⟩

/-- An image whose inode 1 is a regular file of eleven blocks: the first is block
3, the last is block 5 by way of the single-indirect block 4, and those between
are holes. -/
def singleImage : Bytes :=
  List.replicate (2 * BS) 0 ++ pad BS (encode 2 0x81a4 ++ encode 2 1 ++ encode 4 0 ++
    encode 4 11264 ++ encode 3 3 ++ List.replicate 27 0 ++ encode 3 4) ++ List.replicate BS 7 ++
    pad BS (wordBytes [5]) ++ List.replicate BS 9

/-- The inode of that file. -/
def singleInode : DiskInode := ⟨0x81a4, 1, 0, 0, 11264, [3, 0, 0, 0, 0, 0, 0, 0, 0, 0, 4, 0, 0]⟩

/-- The reader finds that inode. -/
theorem inode_single : S5Reader.inode singleImage 1 = .ok singleInode := by decide +kernel

/-- Its blocks are on the image. -/
theorem single_onImage : AddressesOnImage singleImage singleInode.blk := by
  have hlen : singleImage.length = 6 * BS := by decide +kernel
  have hfits : ∀ n < 6, OnImage singleImage n := fun n hn _ => by
    rw [hlen]
    unfold BS
    omega
  have hblock : blockOf singleImage 4 = pad BSIZE (wordBytes [5]) := by decide +kernel
  refine ⟨fun j hj => ?_, ⟨hfits 4 (by decide), fun k hk => ?_⟩, rooted_zero 2, rooted_zero 3⟩
  · have hsmall : ∀ j < 10, singleInode.blk.getD j 0 < 6 := by decide
    exact hfits _ (hsmall j hj)
  · have hentry : entry singleImage 4 k = [5].getD k 0 := (if_neg (by decide)).trans
      (word_eq hblock (by decide) hk)
    rw [show singleInode.blk.getD 10 0 = 4 from rfl, hentry]
    refine hfits _ ?_
    cases k with
    | zero => decide
    | succ k => exact (show 0 < 6 by decide)

/-- The file with a hole in the middle, in its order. -/
theorem data_follows_map_iff_single :
    S5Reader.data singleImage singleInode = .ok (contents singleImage singleInode) := by
  refine (data_follows_map_iff inode_single single_onImage).mpr (Or.inr (Or.inl ⟨by decide, ?_⟩))
  intro q hq
  have hsize : singleInode.size.toNat = 11264 := rfl
  have hN : NINDIR = 256 := rfl
  have hB : BS = 1024 := rfl
  rw [hsize, hN, hB] at hq
  omega

/-- An image whose inode 1 is a regular file of eleven blocks, all of them holes. -/
def sparseImage : Bytes :=
  List.replicate (2 * BS) 0 ++ (encode 2 0x81a4 ++ encode 2 1 ++ encode 4 0 ++ encode 4 11264 ++
    List.replicate 52 0)

/-- The inode of that file. -/
def sparseInode : DiskInode := ⟨0x81a4, 1, 0, 0, 11264, List.replicate 13 0⟩

/-- The reader finds that inode, too. -/
theorem inode_sparse : S5Reader.inode sparseImage 1 = .ok sparseInode := by decide +kernel

/-- A file of holes has no block off the image. -/
theorem sparse_onImage : AddressesOnImage sparseImage sparseInode.blk := by
  have hzero : ∀ j, sparseInode.blk.getD j 0 = 0 := by
    intro j
    unfold sparseInode
    rw [List.getD_eq_getElem?_getD, List.getElem?_replicate]
    split <;> rfl
  refine ⟨fun j _ => ?_, ?_, ?_, ?_⟩
  all_goals
    rw [hzero]
    exact rooted_zero _

/-- The reader returns ten blocks for a file of eleven. -/
theorem sparse_truncated :
    S5Reader.inode sparseImage 1 = .ok sparseInode ∧ AddressesOnImage sparseImage sparseInode.blk ∧
      (∃ b, S5Reader.data sparseImage sparseInode = .ok b ∧ b.length = 10240) ∧
      sparseInode.size = 11264 ∧
      S5Reader.data sparseImage sparseInode ≠ .ok (contents sparseImage sparseInode) := by
  have hdata := data_eq (length_blk inode_sparse) sparse_onImage
  have hcount : (supplied sparseImage sparseInode.blk).length = 10 := by
    have h10 : sparseInode.blk.getD 10 0 = 0 := rfl
    have h11 : sparseInode.blk.getD 11 0 = 0 := rfl
    rw [length_supplied, if_pos h10, h11, lead_zero, Nat.zero_mul]
  have hlen : ((blocks sparseImage (supplied sparseImage sparseInode.blk)).take
      sparseInode.size.toNat).length = 10240 := by
    rw [blocks_eq (onImage_supplied sparse_onImage), hcount, List.length_take, List.length_map,
      List.length_range]
    decide
  refine ⟨inode_sparse, sparse_onImage, ⟨_, hdata, hlen⟩, rfl, fun h => ?_⟩
  have hsame := Except.ok.inj (hdata.symm.trans h)
  rw [hsame, contents, List.length_map, List.length_range] at hlen
  exact absurd hlen (by decide)

end Sys16.S5BlockMap
