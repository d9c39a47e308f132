import Mathlib.Algebra.Ring.Nat
import Mathlib.Tactic.Ring

/-!
# Little-endian bytes

Fixed-width little-endian encodings of naturals, as `struct.pack` lays them
out and as shift-and-or expressions take them apart. An encoding of a value
that fits its width reads back as that value.
-/

namespace Sys16.LittleEndian

/-- The lowest `w` bytes of a natural, least significant first. -/
def encode : ℕ → ℕ → List UInt8
  | 0, _ => []
  | w + 1, n => UInt8.ofNat n :: encode w (n / 256)

/-- The natural with the given bytes, least significant first. -/
def decode : List UInt8 → ℕ
  | [] => 0
  | b :: bs => b.toNat + 256 * decode bs

@[simp] theorem length_encode (w n : ℕ) : (encode w n).length = w := by
  induction w generalizing n with
  | zero => rfl
  | succ w ih => rw [encode, List.length_cons, ih]

@[simp] theorem decode_nil : decode [] = 0 := rfl

@[simp] theorem decode_cons (b : UInt8) (bs : List UInt8) :
    decode (b :: bs) = b.toNat + 256 * decode bs := rfl

/-- Decoding an encoding keeps exactly the bits of the width. -/
theorem decode_encode (w n : ℕ) : decode (encode w n) = n % 256 ^ w := by
  induction w generalizing n with
  | zero => rw [encode, decode_nil, pow_zero, Nat.mod_one]
  | succ w ih =>
    have hm : n % 256 ^ (w + 1) = n % 256 + 256 * (n / 256 % 256 ^ w) := by
      rw [pow_succ', Nat.mod_mul]
    rw [encode, decode_cons, ih, UInt8.toNat_ofNat', hm]

theorem decode_encode_of_lt {w n : ℕ} (h : n < 256 ^ w) : decode (encode w n) = n := by
  rw [decode_encode, Nat.mod_eq_of_lt h]

/-- The bytes bound the natural. -/
theorem decode_lt (bs : List UInt8) : decode bs < 256 ^ bs.length := by
  induction bs with
  | nil => simp
  | cons b bs ih =>
    have hb := b.toNat_lt
    rw [decode_cons, List.length_cons, pow_succ']
    omega

/-- Zero padding decodes to zero. -/
theorem decode_replicate_zero (k : ℕ) : decode (List.replicate k 0) = 0 := by
  induction k with
  | zero => rfl
  | succ k ih => rw [List.replicate_succ, decode_cons, ih]; rfl

/-- A shifted word above a narrow one is a sum, so that the source's or-trees are sums. -/
theorem or_shiftLeft {a k : ℕ} (h : a < 2 ^ k) (b : ℕ) : a ||| b <<< k = a + b * 2 ^ k := by
  rw [Nat.or_comm, ← Nat.shiftLeft_add_eq_or_of_lt h, Nat.shiftLeft_eq, Nat.add_comm]

/-- Two bytes assembled by an or-tree. -/
theorem or_bytes₂ (a b : UInt8) : a.toNat ||| b.toNat <<< 8 = a.toNat + 256 * b.toNat := by
  have ha := a.toNat_lt
  rw [or_shiftLeft (by omega)]
  omega

/-- Three bytes assembled by an or-tree. -/
theorem or_bytes₃ (a b c : UInt8) :
    a.toNat ||| b.toNat <<< 8 ||| c.toNat <<< 16 =
      a.toNat + 256 * b.toNat + 65536 * c.toNat := by
  have ha := a.toNat_lt
  have hb := b.toNat_lt
  rw [or_bytes₂, or_shiftLeft (by omega)]
  omega

/-- Four bytes assembled by an or-tree. -/
theorem or_bytes₄ (a b c e : UInt8) :
    a.toNat ||| b.toNat <<< 8 ||| c.toNat <<< 16 ||| e.toNat <<< 24 =
      a.toNat + 256 * b.toNat + 65536 * c.toNat + 16777216 * e.toNat := by
  have ha := a.toNat_lt
  have hb := b.toNat_lt
  have hc := c.toNat_lt
  rw [or_bytes₃, or_shiftLeft (by omega)]
  omega

end Sys16.LittleEndian
