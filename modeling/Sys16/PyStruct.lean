import Mathlib.Data.UInt
import Mathlib.Tactic.Positivity
import Mathlib.Tactic.Zify
import Sys16.ByteStore
import Sys16.LittleEndian
import Sys16.PyText

/-!
# Packed integers of the Python tools

The little-endian integer formats of `struct`: packing fails outside the range
of the format, unpacking fails past the end of the buffer, and a packed value
unpacks to itself.
-/

namespace Sys16.PyStruct

open ByteStore LittleEndian PyText

/-- The bytes of a buffer or a file. -/
abbrev Bytes := List UInt8

/-- The format of one integer. -/
structure Format where
  /-- Its size in bytes. -/
  width : ℕ
  /-- Whether it is in two's complement. -/
  signed : Bool

/-- The least value of a format. -/
def Format.low (f : Format) : ℤ := if f.signed then -(256 ^ f.width / 2) else 0

/-- `'<B'`. -/
def fmtB : Format := ⟨1, false⟩
/-- `'<H'`. -/
def fmtH : Format := ⟨2, false⟩
/-- `'<h'`. -/
def fmth : Format := ⟨2, true⟩
/-- `'<I'`. -/
def fmtI : Format := ⟨4, false⟩
/-- `'<i'`. -/
def fmti : Format := ⟨4, true⟩

/-- `struct.pack` of one integer. -/
def Format.pack (f : Format) (x : ℤ) : Except Failure Bytes :=
  if f.low ≤ x ∧ x < f.low + 256 ^ f.width then
    .ok (encode f.width (x % 256 ^ f.width).toNat)
  else .error .structError

/-- The value of the bytes of a format. -/
def Format.value (f : Format) (b : Bytes) : ℤ := ((decode b : ℤ) - f.low) % 256 ^ f.width + f.low

/-- `struct.unpack_from` of one integer. -/
def Format.unpack (f : Format) (d : Bytes) (off : ℕ) : Except Failure ℤ :=
  if off + f.width ≤ d.length then .ok (f.value (slice d off f.width)) else .error .structError

variable {f : Format} {x : ℤ} {b d : Bytes} {off : ℕ}

theorem Format.length_pack (hb : f.pack x = .ok b) : b.length = f.width := by
  unfold Format.pack at hb
  split at hb
  · cases hb
    exact length_encode _ _
  · cases hb

/-- Packing succeeds on the range of the format only. -/
theorem Format.pack_range (hb : f.pack x = .ok b) : f.low ≤ x ∧ x < f.low + 256 ^ f.width := by
  unfold Format.pack at hb
  split at hb
  · assumption
  · cases hb

/-- A packed integer has its own value. -/
theorem Format.value_pack (hb : f.pack x = .ok b) : f.value b = x := by
  have hr := Format.pack_range hb
  have hpos : (0 : ℤ) < 256 ^ f.width := by positivity
  have hmod := Int.emod_nonneg x (ne_of_gt hpos)
  have hlt := Int.emod_lt_of_pos x hpos
  unfold Format.pack at hb
  rw [if_pos hr] at hb
  cases hb
  have hnat : (x % 256 ^ f.width).toNat < 256 ^ f.width := by
    zify
    rw [Int.toNat_of_nonneg hmod]
    exact hlt
  have hdec : ((decode (encode f.width (x % 256 ^ f.width).toNat) : ℕ) : ℤ) =
      x % 256 ^ f.width := by
    rw [decode_encode_of_lt hnat, Int.toNat_of_nonneg hmod]
  unfold Format.value
  rw [hdec, Int.emod_sub_emod, Int.emod_eq_of_lt (by omega) (by omega)]
  omega

theorem Format.low_nonpos (f : Format) : f.low ≤ 0 := by
  unfold Format.low
  split
  · have hpos : (0 : ℤ) ≤ 256 ^ f.width / 2 := by positivity
    omega
  · exact le_refl 0

/-- The bytes of a packed natural are its digits, in a signed format too. -/
theorem Format.decode_pack {n : ℕ} (hb : f.pack n = .ok b) : decode b = n := by
  have hr := Format.pack_range hb
  have hlow := f.low_nonpos
  have hlt : (n : ℤ) < 256 ^ f.width := by omega
  unfold Format.pack at hb
  rw [if_pos hr] at hb
  cases hb
  rw [Int.emod_eq_of_lt (Int.natCast_nonneg n) hlt, Int.toNat_natCast]
  exact decode_encode_of_lt (by exact_mod_cast hlt)

/-- Unsigned formats read the natural of their bytes. -/
theorem Format.unpack_nat (hf : f.signed = false) (hd : off + f.width ≤ d.length) :
    f.unpack d off = .ok (decode (slice d off f.width) : ℤ) := by
  have hlow : f.low = 0 := by
    unfold Format.low
    rw [hf, if_neg (by simp)]
  have hlt := decode_lt (slice d off f.width)
  rw [length_slice hd] at hlt
  have hlt' : (decode (slice d off f.width) : ℤ) < 256 ^ f.width := by
    zify at hlt
    exact hlt
  unfold Format.unpack Format.value
  rw [if_pos hd, hlow, sub_zero, add_zero, Int.emod_eq_of_lt (Int.natCast_nonneg _) hlt']

/-- The bytes of a packed integer in a buffer unpack to it. -/
theorem Format.unpack_of_slice (hb : f.pack x = .ok b) (hd : off + f.width ≤ d.length)
    (hs : slice d off f.width = b) : f.unpack d off = .ok x := by
  unfold Format.unpack
  rw [if_pos hd, hs, Format.value_pack hb]

end Sys16.PyStruct
