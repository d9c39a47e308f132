import Mathlib.Data.List.DropRight
import Mathlib.Data.List.TakeDrop
import Mathlib.Tactic.Common
import Sys16.ByteStore
import Sys16.PyStruct

/-!
# Byte strings of the Python tools

Slices with bounds of any sign, records of packed integers, and the strict
decoding of UTF-8. A slice of a file is also a slice of its positions, which
says where each of its bytes was taken from.
-/

namespace Sys16.PyBytes

open ByteStore LittleEndian PyStruct PyText

variable {α β : Type*} {d : List α} {i j : ℤ} {n k p : ℕ}

/-! ## Slices -/

/-- The position that a slice bound stands for. -/
def bound (len : ℕ) (i : ℤ) : ℕ := if i < 0 then (i + len).toNat else min i.toNat len

/-- `d[i:j]`. -/
def pySlice (d : List α) (i j : ℤ) : List α := (d.take (bound d.length j)).drop (bound d.length i)

/-- The positions that `d[i:j]` takes its elements from. -/
def positions (d : List α) (i j : ℤ) : List ℕ := pySlice (List.range d.length) i j

theorem bound_natCast (len n : ℕ) : bound len n = min n len := by
  unfold bound
  rw [if_neg (by omega), Int.toNat_natCast]

theorem bound_le (len : ℕ) (i : ℤ) : bound len i ≤ len := by
  unfold bound
  split <;> omega

/-- A slice with bounds that are not negative. -/
theorem pySlice_natCast (d : List α) (n k : ℕ) : pySlice d n ((n : ℤ) + k) = slice d n k := by
  unfold pySlice slice
  rw [← Nat.cast_add, bound_natCast, bound_natCast, ← List.take_eq_take_min]
  rcases Nat.le_total n d.length with h | h
  · rw [Nat.min_eq_left h, List.drop_take, Nat.add_sub_cancel_left]
  · rw [Nat.min_eq_right h, List.drop_eq_nil_of_le (List.length_take_le' _ _),
      List.drop_eq_nil_of_le h, List.take_nil]

theorem pySlice_map (f : α → β) (d : List α) (i j : ℤ) :
    pySlice (d.map f) i j = (pySlice d i j).map f := by
  unfold pySlice
  rw [List.length_map, List.map_drop, List.map_take]

/-- A slice holds the elements at its positions. -/
theorem pySlice_eq_map (d : List α) (i j : ℤ) (a : α) :
    pySlice d i j = (positions d i j).map fun p => d.getD p a := by
  have hd : d = (List.range d.length).map fun p => d.getD p a := by
    refine List.ext_getElem (by simp) fun p hp _ => ?_
    rw [List.getElem_map, List.getElem_range, List.getD_eq_getElem _ _ hp]
  conv_lhs => rw [hd]
  exact pySlice_map _ _ i j

theorem positions_eq_nil : positions d i j = [] ↔ bound d.length j ≤ bound d.length i := by
  have hj := bound_le d.length j
  unfold positions pySlice
  rw [List.drop_eq_nil_iff, List.length_take, List.length_range]
  omega

theorem length_pySlice (d : List α) (i j : ℤ) :
    (pySlice d i j).length = bound d.length j - bound d.length i := by
  have hj := bound_le d.length j
  unfold pySlice
  rw [List.length_drop, List.length_take, Nat.min_eq_left hj]

theorem pySlice_eq_nil (h : positions d i j = []) : pySlice d i j = [] := by
  refine List.eq_nil_of_length_eq_zero ?_
  have hb := positions_eq_nil.mp h
  rw [length_pySlice]
  omega

/-- A slice whose bounds are in order takes positions between them only. -/
theorem mem_positions (h : p ∈ positions d n ((n : ℤ) + k)) : n ≤ p ∧ p < n + k := by
  unfold positions at h
  rw [pySlice_natCast] at h
  unfold slice at h
  obtain ⟨m, hm, he⟩ := List.mem_iff_getElem.mp h
  rw [List.length_take, List.length_drop, List.length_range] at hm
  rw [List.getElem_take, List.getElem_drop, List.getElem_range] at he
  omega

/-! ## Records -/

/-- The values of consecutive integers. -/
def values : List Format → Bytes → ℕ → List ℤ
  | [], _, _ => []
  | f :: fs, d, off => f.value (slice d off f.width) :: values fs d (off + f.width)

/-- `struct.unpack_from` of a whole record. -/
def unpackFrom (fs : List Format) (d : Bytes) (off : ℕ) : Except Failure (List ℤ) :=
  if off + (fs.map Format.width).sum ≤ d.length then .ok (values fs d off)
  else .error .structError

/-- `struct.pack` of a whole record. -/
def packAll (f : Format) (xs : List ℤ) : Except Failure Bytes := List.flatten <$> xs.mapM f.pack

/-- A packed record holds each of its values in its place. -/
theorem packAll_eq_ok {f : Format} {xs : List ℤ} {b : Bytes} (h : packAll f xs = .ok b) :
    b.length = xs.length * f.width ∧
      ∀ k x, xs[k]? = some x → f.pack x = .ok (slice b (k * f.width) f.width) := by
  obtain ⟨ws, hws, rfl⟩ := map_eq_ok.mp h
  have hall := mapM_eq_ok.mp hws
  have hlen : ∀ w ∈ ws, w.length = f.width := by
    intro w hw
    obtain ⟨x, _, hx⟩ := exists_of_mem_right hall hw
    exact Format.length_pack hx
  refine ⟨by rw [length_flatten_of_forall hlen, hall.length_eq], ?_⟩
  intro k x hk
  obtain ⟨hlt, rfl⟩ := List.getElem?_eq_some_iff.mp hk
  have hk' : k < ws.length := hall.length_eq ▸ hlt
  have hpack := (List.forall₂_iff_get.mp hall).2 k hlt hk'
  rw [List.get_eq_getElem, List.get_eq_getElem] at hpack
  rw [slice_flatten hlen hk', hpack]

/-- A number that a format can hold. -/
def Fits (f : Format) (x : ℤ) : Prop := f.low ≤ x ∧ x < f.low + 256 ^ f.width

instance (f : Format) (x : ℤ) : Decidable (Fits f x) := inferInstanceAs (Decidable (_ ∧ _))

/-- The bytes of numbers that fit their formats, one after the other. -/
def packFields (l : List (Format × ℤ)) : Bytes :=
  l.flatMap fun p => encode p.1.width (p.2 % 256 ^ p.1.width).toNat

theorem length_packFields (l : List (Format × ℤ)) :
    (packFields l).length = ((l.map Prod.fst).map Format.width).sum := by
  induction l with
  | nil => rfl
  | cons p l ih =>
    rw [packFields, List.flatMap_cons, List.length_append, length_encode, List.map_cons,
      List.map_cons, List.sum_cons, ← ih, packFields]

/-- Packed numbers have their own values, wherever they stand. -/
theorem values_packFields {l : List (Format × ℤ)} (h : ∀ p ∈ l, Fits p.1 p.2) (pre post : Bytes) :
    values (l.map Prod.fst) (pre ++ packFields l ++ post) pre.length = l.map Prod.snd := by
  induction l generalizing pre with
  | nil => rfl
  | cons p l ih =>
    obtain ⟨f, x⟩ := p
    have hfit : f.low ≤ x ∧ x < f.low + 256 ^ f.width := h (f, x) List.mem_cons_self
    have hpack : f.pack x = .ok (encode f.width (x % 256 ^ f.width).toNat) := if_pos hfit
    have hsplit : pre ++ packFields ((f, x) :: l) ++ post =
        pre ++ encode f.width (x % 256 ^ f.width).toNat ++ packFields l ++ post := by
      rw [packFields, List.flatMap_cons, ← packFields, ← List.append_assoc pre]
    have hnext : pre.length + f.width =
        (pre ++ encode f.width (x % 256 ^ f.width).toNat).length := by
      rw [List.length_append, length_encode]
    have hhead : slice (pre ++ packFields ((f, x) :: l) ++ post) pre.length f.width =
        encode f.width (x % 256 ^ f.width).toNat := by
      rw [hsplit, List.append_assoc, List.append_assoc, ← Nat.add_zero pre.length,
        slice_append_right]
      exact slice_head (length_encode _ _)
    rw [List.map_cons, List.map_cons, values, hhead, Format.value_pack hpack, hsplit, hnext,
      ih fun p hp => h p (List.mem_cons_of_mem _ hp)]

/-! ## Text -/

/-- `b.find(c, start)` of one byte. -/
def find (b : Bytes) (c : UInt8) (start : ℕ) : ℤ :=
  match (b.drop start).findIdx? (· = c) with
  | some k => (start : ℤ) + k
  | none => -1

/-- The text up to a byte that ends it is found with its end. -/
theorem find_of_slice {b name : Bytes} {c : UInt8} {start : ℕ} (hnot : c ∉ name)
    (h : slice b start (name.length + 1) = name ++ [c]) :
    find b c start = (start : ℤ) + name.length := by
  have hdrop : b.drop start = (name ++ [c]) ++ (b.drop start).drop (name.length + 1) := by
    rw [← h]
    exact (List.take_append_drop _ _).symm
  have hnone : name.findIdx? (· = c) = none := by
    rw [List.findIdx?_eq_none_iff]
    intro x hx
    exact decide_eq_false fun he => hnot (he ▸ hx)
  unfold find
  rw [hdrop, List.append_assoc, List.findIdx?_append, hnone, Option.none_or,
    List.singleton_append, List.findIdx?_cons, if_pos (decide_eq_true rfl)]
  simp

/-- `b.rstrip(b'\0')`. -/
def rstripNul (b : List UInt8) : List UInt8 := b.rdropWhile (· = 0)

/-- Padding with NULs comes off again. -/
theorem rstripNul_pad {name : List UInt8} (h : 0 ∉ name) (k : ℕ) :
    rstripNul (name ++ List.replicate k 0) = name := by
  induction k with
  | zero =>
    rw [List.replicate_zero, List.append_nil]
    refine List.rdropWhile_eq_self_iff.mpr fun hne hlast => ?_
    exact h ((of_decide_eq_true hlast) ▸ List.getLast_mem hne)
  | succ k ih =>
    have hlast := List.rdropWhile_concat_pos (fun b : UInt8 => decide (b = 0))
      (name ++ List.replicate k 0) 0 (decide_eq_true rfl)
    rw [List.replicate_succ', ← List.append_assoc]
    exact hlast.trans ih

/-- A byte that continues a multi-byte sequence. -/
def isCont (b : UInt8) : Bool := 0x80 ≤ b && b ≤ 0xbf

/-- `b.decode()`: the code points of well-formed UTF-8, without overlong forms,
surrogates, or anything above U+10FFFF. -/
def decodeUtf8 : List UInt8 → Except Failure Str
  | [] => .ok []
  | a :: l =>
    if a < 0x80 then List.cons a.toNat <$> decodeUtf8 l
    else match l with
    | [] => .error .valueError
    | b :: l =>
      if 0xc2 ≤ a && a ≤ 0xdf && isCont b then
        List.cons ((a.toNat - 0xc0) * 64 + (b.toNat - 0x80)) <$> decodeUtf8 l
      else match l with
      | [] => .error .valueError
      | c :: l =>
        if 0xe0 ≤ a && a ≤ 0xef && (if a = 0xe0 then 0xa0 else 0x80) ≤ b &&
            b ≤ (if a = 0xed then 0x9f else 0xbf) && isCont c then
          List.cons ((a.toNat - 0xe0) * 4096 + (b.toNat - 0x80) * 64 + (c.toNat - 0x80)) <$>
            decodeUtf8 l
        else match l with
        | [] => .error .valueError
        | e :: l =>
          if 0xf0 ≤ a && a ≤ 0xf4 && (if a = 0xf0 then 0x90 else 0x80) ≤ b &&
              b ≤ (if a = 0xf4 then 0x8f else 0xbf) && isCont c && isCont e then
            List.cons ((a.toNat - 0xf0) * 262144 + (b.toNat - 0x80) * 4096 +
              (c.toNat - 0x80) * 64 + (e.toNat - 0x80)) <$> decodeUtf8 l
          else .error .valueError

end Sys16.PyBytes
