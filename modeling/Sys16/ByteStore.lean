import Mathlib.Data.List.Basic
import Mathlib.Data.List.Infix
import Mathlib.Tactic.Common
import Mathlib.Tactic.Ring

/-!
# Slices of byte strings

Reading and assigning slices of a list, as a flat image is read and written:
what an assignment leaves alone, what a sequence of assignments at increasing
offsets leaves behind, and how a string cut into chunks of one size, each
padded to that size, reads back.
-/

namespace Sys16.ByteStore

variable {α : Type*} {d d' buf : List α} {off off' n m : ℕ} {ws : List (ℕ × List α)}

/-- The `n` elements from `off` on, fewer at the end of the list. -/
def slice (d : List α) (off n : ℕ) : List α := (d.drop off).take n

/-- Assignment of `buf` to the slice of its length at `off`. -/
def setSlice (d : List α) (off : ℕ) (buf : List α) : List α :=
  d.take off ++ buf ++ d.drop (off + buf.length)

/-- An element of a slice is one of the list. -/
theorem getElem?_slice (d : List α) (off n i : ℕ) :
    (slice d off n)[i]? = if i < n then d[off + i]? else none := by
  unfold slice
  rw [List.getElem?_take]
  split
  · rw [List.getElem?_drop]
  · rfl

/-- A slice inside a list has its full length. -/
theorem length_slice (h : off + n ≤ d.length) : (slice d off n).length = n := by
  unfold slice
  rw [List.length_take, List.length_drop]
  omega

/-- A slice depends on its own elements only. -/
theorem slice_congr (h : ∀ i, off ≤ i → i < off + n → d'[i]? = d[i]?) :
    slice d' off n = slice d off n := by
  refine List.ext_getElem? fun i => ?_
  rw [getElem?_slice, getElem?_slice]
  split
  · exact h (off + i) (by omega) (by omega)
  · rfl

/-- A slice of a slice is a slice. -/
theorem slice_slice (d : List α) (off n off' m : ℕ) (h : off' + m ≤ n) :
    slice (slice d off n) off' m = slice d (off + off') m := by
  refine List.ext_getElem? fun i => ?_
  rw [getElem?_slice, getElem?_slice, getElem?_slice]
  by_cases hi : i < m
  · rw [if_pos hi, if_pos hi, if_pos (by omega), Nat.add_assoc]
  · rw [if_neg hi, if_neg hi]

/-- A slice that ends in the first of two lists is one of it. -/
theorem slice_append_left (a b : List α) (h : off + n ≤ a.length) :
    slice (a ++ b) off n = slice a off n := by
  refine List.ext_getElem? fun i => ?_
  rw [getElem?_slice, getElem?_slice]
  split
  · exact List.getElem?_append_left (by omega)
  · rfl

/-- A slice that begins in the second is one of that. -/
theorem slice_append_right (a b : List α) (off n : ℕ) :
    slice (a ++ b) (a.length + off) n = slice b off n := by
  refine List.ext_getElem? fun i => ?_
  rw [getElem?_slice, getElem?_slice, List.getElem?_append_right (by omega)]
  congr 2
  omega

/-- A slice inside a list is its elements one by one. -/
theorem slice_eq_map (h : off + n ≤ d.length) (a : α) :
    slice d off n = (List.range n).map fun i => d.getD (off + i) a := by
  refine List.ext_getElem? fun i => ?_
  rw [getElem?_slice, List.getElem?_map]
  by_cases hi : i < n
  · rw [if_pos hi, List.getElem?_range hi, Option.map_some, List.getD_eq_getElem?_getD,
      List.getElem?_eq_getElem (by omega), Option.getD_some]
  · rw [if_neg hi, List.getElem?_eq_none (by rw [List.length_range]; omega), Option.map_none]

theorem slice_all (h : d.length = n) : slice d 0 n = d := by
  rw [slice, List.drop_zero, List.take_of_length_le (by omega)]

/-- The first of two lists. -/
theorem slice_head {a b : List α} (h : a.length = n) : slice (a ++ b) 0 n = a := by
  rw [slice_append_left _ _ (by omega)]
  exact slice_all h

/-- A slice of the second, by its length. -/
theorem slice_tail {a b : List α} (h : a.length = m) :
    slice (a ++ b) (m + off) n = slice b off n := by
  rw [← h]
  exact slice_append_right a b off n

/-- Strings of one length put together. -/
theorem length_flatten_of_forall {ls : List (List α)} {w : ℕ} (h : ∀ l ∈ ls, l.length = w) :
    ls.flatten.length = ls.length * w := by
  induction ls with
  | nil => rw [List.flatten_nil, List.length_nil, List.length_nil, Nat.zero_mul]
  | cons l ls ih =>
    rw [List.flatten_cons, List.length_append, h l List.mem_cons_self,
      ih fun x hx => h x (List.mem_cons_of_mem l hx), List.length_cons]
    ring

/-- Strings of one length put together are read back one by one. -/
theorem slice_flatten {ls : List (List α)} {w k : ℕ} (h : ∀ l ∈ ls, l.length = w)
    (hk : k < ls.length) : slice ls.flatten (k * w) w = ls[k] := by
  induction ls generalizing k with
  | nil => simp at hk
  | cons l ls ih =>
    have hl := h l List.mem_cons_self
    rw [List.flatten_cons]
    cases k with
    | zero =>
      rw [Nat.zero_mul, slice_head hl]
      rfl
    | succ k =>
      rw [show (k + 1) * w = w + k * w by ring, slice_tail hl,
        ih (fun x hx => h x (List.mem_cons_of_mem l hx)) (by simpa using hk)]
      rfl

/-- A write inside a list keeps its length. -/
theorem length_setSlice (h : off + buf.length ≤ d.length) :
    (setSlice d off buf).length = d.length := by
  unfold setSlice
  rw [List.length_append, List.length_append, List.length_take, List.length_drop]
  omega

/-- An element is the one written there, or the one from before. -/
theorem getElem?_setSlice (h : off + buf.length ≤ d.length) (i : ℕ) :
    (setSlice d off buf)[i]? =
      if off ≤ i ∧ i < off + buf.length then buf[i - off]? else d[i]? := by
  have htake : (d.take off).length = off := by
    rw [List.length_take]
    omega
  unfold setSlice
  by_cases h1 : i < off
  · rw [if_neg (by omega), List.append_assoc, List.getElem?_append_left (by omega),
      List.getElem?_take_of_lt h1]
  · rw [List.append_assoc, List.getElem?_append_right (by omega), htake]
    by_cases h2 : i < off + buf.length
    · rw [if_pos (by omega), List.getElem?_append_left (by omega)]
    · rw [if_neg (by omega), List.getElem?_append_right (by omega), List.getElem?_drop]
      congr 1
      omega

/-- What is written is read back. -/
theorem slice_setSlice_self (h : off + buf.length ≤ d.length) :
    slice (setSlice d off buf) off buf.length = buf := by
  refine List.ext_getElem? fun i => ?_
  rw [getElem?_slice]
  by_cases hi : i < buf.length
  · rw [if_pos hi, getElem?_setSlice h, if_pos (by omega), Nat.add_sub_cancel_left]
  · rw [if_neg hi, List.getElem?_eq_none (by omega)]

/-- What is next to a write does not change. -/
theorem slice_setSlice_of_disjoint (h : off + buf.length ≤ d.length)
    (hd : off' + n ≤ off ∨ off + buf.length ≤ off') :
    slice (setSlice d off buf) off' n = slice d off' n := by
  refine slice_congr fun i h1 h2 => ?_
  rw [getElem?_setSlice h, if_neg (by omega)]

/-! ## Sequences of assignments -/

/-- Assignments to slices, in order. -/
def writeAll (d : List α) (ws : List (ℕ × List α)) : List α :=
  ws.foldl (fun d w => setSlice d w.1 w.2) d

@[simp] theorem writeAll_nil (d : List α) : writeAll d [] = d := rfl

/-- The first write is made first. -/
theorem writeAll_cons (d : List α) (w : ℕ × List α) (ws : List (ℕ × List α)) :
    writeAll d (w :: ws) = writeAll (setSlice d w.1 w.2) ws := rfl

/-- Every assignment stays inside the list. -/
def Fits (ws : List (ℕ × List α)) (size : ℕ) : Prop := ∀ w ∈ ws, w.1 + w.2.length ≤ size

/-- Writes that fit keep the length. -/
theorem length_writeAll (h : Fits ws d.length) : (writeAll d ws).length = d.length := by
  induction ws generalizing d with
  | nil => rfl
  | cons w ws ih =>
    have hw := length_setSlice (h w List.mem_cons_self)
    rw [writeAll_cons, ih, hw]
    rw [hw]
    exact fun v hv => h v (List.mem_cons_of_mem w hv)

/-- A slice that no assignment touches is left alone. -/
theorem slice_writeAll_of_disjoint (h : Fits ws d.length)
    (hd : ∀ w ∈ ws, off + n ≤ w.1 ∨ w.1 + w.2.length ≤ off) :
    slice (writeAll d ws) off n = slice d off n := by
  induction ws generalizing d with
  | nil => rfl
  | cons w ws ih =>
    have hw := h w List.mem_cons_self
    rw [writeAll_cons, ih, slice_setSlice_of_disjoint hw (hd w List.mem_cons_self)]
    · rw [length_setSlice hw]
      exact fun v hv => h v (List.mem_cons_of_mem w hv)
    · exact fun v hv => hd v (List.mem_cons_of_mem w hv)

/-- Assignments at increasing offsets all read back. -/
theorem slice_writeAll_of_mem (h : Fits ws d.length)
    (hs : ws.Pairwise fun v w => v.1 + v.2.length ≤ w.1) {w : ℕ × List α} (hw : w ∈ ws) :
    slice (writeAll d ws) w.1 w.2.length = w.2 := by
  induction ws generalizing d with
  | nil => cases hw
  | cons v ws ih =>
    have hv := h v List.mem_cons_self
    have hfit : Fits ws (setSlice d v.1 v.2).length := by
      rw [length_setSlice hv]
      exact fun u hu => h u (List.mem_cons_of_mem v hu)
    obtain ⟨hfirst, hrest⟩ := List.pairwise_cons.mp hs
    rw [writeAll_cons]
    rcases List.mem_cons.mp hw with rfl | hw
    · rw [slice_writeAll_of_disjoint hfit fun u hu => Or.inl (hfirst u hu),
        slice_setSlice_self hv]
    · exact ih hfit hrest hw

/-! ## Chunks and padding -/

section Chunks

/-- The number of chunks of `k` elements that `n` elements fill. -/
def chunkCount (k n : ℕ) : ℕ := (n + k - 1) / k

/-- The consecutive chunks of `k` elements, the last one shorter. -/
def chunks (k : ℕ) (l : List α) : List (List α) :=
  (List.range (chunkCount k l.length)).map fun i => slice l (i * k) k

/-- As many chunks as it takes. -/
@[simp] theorem length_chunks (k : ℕ) (l : List α) :
    (chunks k l).length = chunkCount k l.length := by
  rw [chunks, List.length_map, List.length_range]

/-- The chunks hold the whole list. -/
theorem chunkCount_mul_ge {k : ℕ} (hk : 0 < k) (n : ℕ) : n ≤ chunkCount k n * k := by
  have h := Nat.div_add_mod (n + k - 1) k
  have hm := Nat.mod_lt (n + k - 1) hk
  unfold chunkCount
  rw [Nat.mul_comm]
  omega

/-- There is a chunk when there is something in the list. -/
theorem chunkCount_pos {k : ℕ} (hk : 0 < k) : 0 < chunkCount k n ↔ 0 < n := by
  unfold chunkCount
  rw [Nat.div_pos_iff]
  omega

/-- Consecutive slices put together. -/
theorem flatMap_slices (l : List α) (k c : ℕ) :
    (List.range c).flatMap (fun i => slice l (i * k) k) = l.take (c * k) := by
  induction c with
  | zero => simp
  | succ c ih =>
    rw [List.range_succ, List.flatMap_append, ih, Nat.add_mul, Nat.one_mul, List.take_add]
    simp [slice]

variable [Zero α]

/-- `l` followed by zeros up to a length. -/
def pad (size : ℕ) (l : List α) : List α := l ++ List.replicate (size - l.length) 0

/-- A list that fits is padded to the size. -/
theorem length_pad {size : ℕ} {l : List α} (h : l.length ≤ size) : (pad size l).length = size := by
  rw [pad, List.length_append, List.length_replicate]
  omega

/-- An element of the list, or a zero behind it. -/
theorem getElem?_pad (size : ℕ) (l : List α) (i : ℕ) :
    (pad size l)[i]? = if i < l.length then l[i]? else if i < size then some 0 else none := by
  unfold pad
  by_cases hi : i < l.length
  · rw [if_pos hi, List.getElem?_append_left hi]
  · rw [if_neg hi, List.getElem?_append_right (by omega), List.getElem?_replicate]
    by_cases hs : i < size
    · rw [if_pos hs, if_pos (by omega)]
    · rw [if_neg hs, if_neg (by omega)]

/-- The list is at the start of what it is padded to. -/
theorem take_pad {size : ℕ} (l : List α) : (pad size l).take l.length = l := by
  unfold pad
  rw [List.take_left]

/-- A slice of a padded list is the padded slice. -/
theorem slice_pad {size : ℕ} (l : List α) (h : off + n ≤ size) :
    slice (pad size l) off n = pad n (slice l off n) := by
  have hlen : (slice l off n).length = min n (l.length - off) := by
    rw [slice, List.length_take, List.length_drop]
  refine List.ext_getElem? fun i => ?_
  rw [getElem?_slice, getElem?_pad, getElem?_pad, getElem?_slice, hlen]
  by_cases hn : i < n
  · by_cases hl : off + i < l.length
    · rw [if_pos hn, if_pos hl, if_pos (by omega), if_pos hn]
    · rw [if_pos hn, if_neg hl, if_pos (by omega), if_neg (by omega), if_pos hn]
  · rw [if_neg hn, if_neg (by omega), if_neg hn]

/-- Padded chunks put together are the padded list. -/
theorem flatMap_pad_slices {k c : ℕ} (l : List α) (hc : l.length ≤ c * k) :
    (List.range c).flatMap (fun i => pad k (slice l (i * k) k)) = pad (c * k) l := by
  have hlen := length_pad hc
  have h := flatMap_slices (pad (c * k) l) k c
  rw [List.take_of_length_le (by omega)] at h
  rw [← h]
  refine List.flatMap_congr fun i hi => (slice_pad l ?_).symm
  have hi := List.mem_range.mp hi
  calc i * k + k = (i + 1) * k := by ring
    _ ≤ c * k := Nat.mul_le_mul_right k hi

/-- An assignment at the start of a zero slice leaves the padded buffer there. -/
theorem slice_setSlice_zero (h : off + n ≤ d.length) (hb : buf.length ≤ n)
    (hz : slice d off n = List.replicate n 0) : slice (setSlice d off buf) off n = pad n buf := by
  refine List.ext_getElem? fun i => ?_
  have hzi := congrArg (fun l => l[i]?) hz
  simp only [getElem?_slice, List.getElem?_replicate] at hzi
  rw [getElem?_slice, getElem?_pad, getElem?_setSlice (by omega)]
  by_cases hi : i < n
  · rw [if_pos hi] at hzi ⊢
    by_cases hbi : i < buf.length
    · rw [if_pos (by omega), if_pos hbi, Nat.add_sub_cancel_left]
    · rw [if_neg (by omega), if_neg hbi, hzi]
  · rw [if_neg hi, if_neg (by omega), if_neg hi]

end Chunks

end Sys16.ByteStore
