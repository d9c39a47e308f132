import Mathlib.Data.List.FinRange
import Sys16.DcuMachine
import Sys16.LittleEndian
import Sys16.StoreHistory

/-!
# Main memory under a transfer

Address spans of the objects a transfer touches, with the wrap of `u32`
addresses, and what a byte or page store leaves unchanged. Every read of an
IOCB, a page table or a page depends on its own span only.
-/

namespace Sys16.DcuMemory

open Function DcuMachine StoreHistory

variable {m m' : Memory} {a n k j : ℕ} {x : ℕ}

/-- The addresses of `n` consecutive bytes, as the DCU forms them. -/
def span (a n : ℕ) : Set ℕ := {x | ∃ k < n, x = u32 (a + k)}

theorem u32_mem_span (h : k < n) : u32 (a + k) ∈ span a n := ⟨k, h, rfl⟩

/-- Offsets inside an object shorter than the address space are distinct. -/
theorem u32_add_inj (hk : k < 2 ^ 32) (hj : j < 2 ^ 32) (h : u32 (a + k) = u32 (a + j)) :
    k = j := by
  unfold u32 at h
  omega

/-- Objects one after the other in an address space without wrap are disjoint. -/
theorem span_disjoint {b : ℕ} (h : a + n ≤ b) (hb : b + k ≤ 2 ^ 32) :
    Disjoint (span a n) (span b k) := by
  refine Set.disjoint_left.mpr ?_
  rintro x ⟨i, hi, rfl⟩ ⟨j, hj, he⟩
  unfold u32 at he
  rw [Nat.mod_eq_of_lt (by omega), Nat.mod_eq_of_lt (by omega)] at he
  omega

/-- A byte is written to one address. -/
theorem write_byte_frame (m : Memory) (a : ℕ) (v : UInt8) :
    Frame m (m.write_byte a v) {u32 a} :=
  fun x hx => by
    unfold Memory.write_byte
    exact update_of_ne hx v m

theorem write_byte_span (m : Memory) (hk : k < n) (v : UInt8) :
    Frame m (m.write_byte (a + k) v) (span a n) :=
  (write_byte_frame m (a + k) v).mono (Set.singleton_subset_iff.mpr (u32_mem_span hk))

/-- A run of byte stores leaves every address outside its targets alone. -/
theorem foldl_write_byte_frame (buffer : Sector) (l : List (Fin 512)) (m : Memory) :
    Frame m (l.foldl (fun (m : Memory) (b : Fin 512) => m.write_byte (a + b) (buffer b)) m)
      (span a 512) := by
  induction l generalizing m with
  | nil => exact Frame.refl m _
  | cons b l ih =>
    have h := (write_byte_span m b.isLt (buffer b)).trans (ih (m.write_byte (a + b) (buffer b)))
    rwa [Set.union_self] at h

/-- A run of byte stores to distinct targets leaves each target with its byte. -/
theorem foldl_write_byte_mem (buffer : Sector) {l : List (Fin 512)} (hn : l.Nodup) (m : Memory)
    {b : Fin 512} (hb : b ∈ l) :
    l.foldl (fun (m : Memory) (b : Fin 512) => m.write_byte (a + b) (buffer b)) m (u32 (a + b)) =
      buffer b := by
  induction l using List.reverseRecOn with
  | nil => cases hb
  | append_singleton l c ih =>
    obtain ⟨hl, _, hd⟩ := List.nodup_append.mp hn
    rw [List.foldl_append]
    by_cases hc : b = c
    · subst hc
      exact update_self _ _ _
    · have hne : u32 (a + b) ≠ u32 (a + c) := fun he =>
        hc (Fin.ext (u32_add_inj (by omega) (by omega) he))
      have hbl : b ∈ l := (List.mem_append.mp hb).resolve_right (by simpa using hc)
      exact (update_of_ne hne _ _).trans (ih hl hbl)

/-- A page is written to its 512 addresses. -/
theorem writePage_frame (m : Memory) (a : ℕ) (buffer : Sector) :
    Frame m (m.writePage a buffer) (span a 512) := by
  unfold Memory.writePage
  exact foldl_write_byte_frame buffer _ m

/-- A page that has been stored reads back as the buffer. -/
theorem readPage_writePage (m : Memory) (a : ℕ) (buffer : Sector) :
    (m.writePage a buffer).readPage a = buffer := by
  funext b
  unfold Memory.writePage Memory.readPage Memory.read_byte
  exact foldl_write_byte_mem buffer (List.nodup_finRange 512) m (List.mem_finRange b)

/-- A byte of an object reads the same in memories that agree on its span. -/
theorem read_byte_congr (h : ∀ x ∈ span a n, m' x = m x) (hk : k < n) :
    m'.read_byte (a + k) = m.read_byte (a + k) :=
  h _ (u32_mem_span hk)

/-- A page depends on its 512 bytes only. -/
theorem readPage_congr (h : ∀ x ∈ span a 512, m' x = m x) : m'.readPage a = m.readPage a := by
  funext b
  exact read_byte_congr h b.isLt

/-- A half word depends on its bytes only. -/
theorem read_u16_congr (h : ∀ x ∈ span a n, m' x = m x) (hk : k + 1 < n) :
    m'.read_u16 (a + k) = m.read_u16 (a + k) := by
  unfold Memory.read_u16
  rw [Nat.add_assoc, read_byte_congr h (show k < n by omega), read_byte_congr h hk]

/-- A word depends on its bytes only. -/
theorem read_u32_congr (h : ∀ x ∈ span a n, m' x = m x) (hk : k + 3 < n) :
    m'.read_u32 (a + k) = m.read_u32 (a + k) := by
  unfold Memory.read_u32
  simp only [Nat.add_assoc]
  rw [read_byte_congr h (show k < n by omega), read_byte_congr h (show k + 1 < n by omega),
    read_byte_congr h (show k + 2 < n by omega), read_byte_congr h hk]

/-- The fields of an IOCB depend on the bytes before its status only. -/
theorem readIocb_congr_fields (h : ∀ x ∈ span a 26, m' x = m x) :
    readIocb m' a = readIocb m a := by
  unfold readIocb IOCB_OPCODE IOCB_COUNT IOCB_CYLINDER IOCB_DRHDSEC IOCB_BUFFER IOCB_CHAIN
  rw [read_byte_congr h (show 0 < 26 by omega), read_byte_congr h (show 3 < 26 by omega),
    read_u16_congr h (show 6 + 1 < 26 by omega), read_u16_congr h (show 8 + 1 < 26 by omega),
    read_u32_congr h (show 10 + 3 < 26 by omega), read_u32_congr h (show 22 + 3 < 26 by omega)]

/-- The fields of an IOCB depend on its 28 bytes only. -/
theorem readIocb_congr (h : ∀ x ∈ span a 28, m' x = m x) : readIocb m' a = readIocb m a :=
  readIocb_congr_fields fun x ⟨k, hk, he⟩ => h x ⟨k, by omega, he⟩

/-- A page address depends on the table's entries only. -/
theorem pageAddr_congr (h : ∀ x ∈ span a (4 * n), m' x = m x) (hk : k < n) :
    pageAddr m' a k = pageAddr m a k :=
  read_u32_congr h (show k * 4 + 3 < 4 * n by omega)

/-- The fields of the drive/head/sector word are within their bit widths. -/
theorem iocb_field_bounds (m : Memory) (a : ℕ) :
    (readIocb m a).cylinder < 65536 ∧ (readIocb m a).unit < 8 ∧ (readIocb m a).head < 32 ∧
      (readIocb m a).sector < 256 := by
  have hu16 : ∀ addr, m.read_u16 addr < 65536 := by
    intro addr
    have h0 := (m.read_byte addr).toNat_lt
    have h1 := (m.read_byte (addr + 1)).toNat_lt
    unfold Memory.read_u16
    rw [LittleEndian.or_bytes₂]
    omega
  have hd := hu16 (a + IOCB_DRHDSEC)
  refine ⟨hu16 _, ?_, ?_, ?_⟩
  · show m.read_u16 (a + IOCB_DRHDSEC) >>> 13 < 8
    rw [Nat.shiftRight_eq_div_pow]
    omega
  · exact Nat.and_lt_two_pow (n := 5) _ (by decide)
  · exact Nat.and_lt_two_pow (n := 8) _ (by decide)

end Sys16.DcuMemory
