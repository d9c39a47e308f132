import Mathlib.Data.Set.Finite.Lattice
import Mathlib.Data.Set.Finite.List
import Sys16.DcuGeometry
import Sys16.LoopRuns

/-!
# When a disk command finishes

The chain loop of `dcu_transfer` as a loop over the machine state and the
address of the next IOCB. Only main memory, the drives and the cached shapes
change while it runs, and they take finitely many values, so the traversal
goes on for ever exactly when it comes back to an IOCB with everything as it
was at an earlier visit. A chain whose links lead to a new address each time
ends, since a link carries a 31-bit address.
-/

namespace Sys16.DcuTermination

open Function DcuMachine DcuMemory DcuGeometry LoopRuns StoreHistory

/-- A drive whose accesses lead to finitely many states from each of its states. -/
class FiniteDrive (D : Type*) extends HardDisk D where
  /-- The states a drive can come to from a given one. -/
  states : D → Set D
  states_finite : ∀ d, (states d).Finite
  mem_states : ∀ d, d ∈ states d
  read_mem : ∀ d e lba, e ∈ states d → (read e lba).2 ∈ states d
  write_mem : ∀ d e lba b, e ∈ states d → (write e lba b).2 ∈ states d

instance finite_uint8 : Finite UInt8 :=
  Finite.of_injective (fun v => v.toBitVec.toFin) fun _ _ h =>
    UInt8.toBitVec_inj.mp (BitVec.toFin_inj.mp h)

/-- An image file keeps its length, so only the bytes in it can change. -/
instance : FiniteDrive Image where
  states d := {e | e.blocks.length = d.blocks.length}
  states_finite d :=
    Set.Finite.of_injOn (f := Image.blocks) (t := {l | l.length = d.blocks.length})
      (fun _ h => h) (fun ⟨_⟩ _ ⟨_⟩ _ h => congrArg Image.mk h)
      (List.finite_length_eq Sector _)
  mem_states _ := rfl
  read_mem _ _ _ h := h
  write_mem d e lba b h := by
    unfold HardDisk.write instHardDiskImage
    dsimp only
    split
    · exact (List.length_set ..).trans h
    · exact h

/-- A drive bay that may hold no image. -/
instance [HardDisk D] : HardDisk (Option D) where
  isMounted d := d.any HardDisk.isMounted
  read d lba :=
    match d with
    | none => (none, none)
    | some d => ((HardDisk.read d lba).1, some (HardDisk.read d lba).2)
  write d lba b :=
    match d with
    | none => (false, none)
    | some d => ((HardDisk.write d lba b).1, some (HardDisk.write d lba b).2)

instance [FiniteDrive D] : FiniteDrive (Option D) where
  states d :=
    match d with
    | none => {none}
    | some d => some '' FiniteDrive.states d
  states_finite d := by
    cases d with
    | none => exact Set.finite_singleton none
    | some d => exact (FiniteDrive.states_finite d).image some
  mem_states d := by
    cases d with
    | none => rfl
    | some d => exact ⟨d, FiniteDrive.mem_states d, rfl⟩
  read_mem d e lba h := by
    cases d with
    | none =>
      cases h
      rfl
    | some d =>
      obtain ⟨e, he, rfl⟩ := h
      exact ⟨_, FiniteDrive.read_mem d e lba he, rfl⟩
  write_mem d e lba b h := by
    cases d with
    | none =>
      cases h
      rfl
    | some d =>
      obtain ⟨e, he, rfl⟩ := h
      exact ⟨_, FiniteDrive.write_mem d e lba b he, rfl⟩

variable {D : Type*} {s t u : Dcu D} {a b n fuel : ℕ}

/-! ## The traversal as a loop -/

section Traversal

variable [HardDisk D]

/-- One round of the chain loop, as long as it goes on. -/
def follow (x : Dcu D × ℕ) : Option (Dcu D × ℕ) :=
  match dcu_iocb x.1 x.2 with
  | (s, .next iocb) => some (s, iocb)
  | (_, .stop _) => none

/-- The machine and the IOCB at one visit of the traversal from an address. -/
def visited (s : Dcu D) (iocb n : ℕ) : Option (Dcu D × ℕ) := nth follow (s, iocb) n

end Traversal

/-! ## The states a traversal can come to -/

section States

variable [FiniteDrive D]

/-- What a traversal can make of a machine: memory within the 32-bit address
space, the two drives, and the shapes cached for them. -/
structure Within (s t : Dcu D) : Prop where
  mem : ∀ x, 2 ^ 32 ≤ x → t.mem x = s.mem x
  hd : ∀ unit, t.hd unit ∈ FiniteDrive.states (s.hd unit)
  hd_rest : ∀ unit, 2 ≤ unit → t.hd unit = s.hd unit
  sectors : ∀ unit, t.sectors unit = s.sectors unit ∨ t.sectors unit < 256
  sectors_rest : ∀ unit, 2 ≤ unit → t.sectors unit = s.sectors unit
  heads : ∀ unit, t.heads unit = s.heads unit ∨ t.heads unit < 32
  heads_rest : ∀ unit, 2 ≤ unit → t.heads unit = s.heads unit
  /-- The registers stay as they are. -/
  rest : { t with mem := s.mem, hd := s.hd, sectors := s.sectors, heads := s.heads } = s

theorem Within.refl (s : Dcu D) : Within s s where
  mem _ _ := rfl
  hd _ := FiniteDrive.mem_states _
  hd_rest _ _ := rfl
  sectors _ := Or.inl rfl
  sectors_rest _ _ := rfl
  heads _ := Or.inl rfl
  heads_rest _ _ := rfl
  rest := rfl

/-- A machine is settled by the four parts that a traversal changes. -/
theorem Within.ext {v : Dcu D} (h : Within s t) (k : Within s v) (hm : t.mem = v.mem)
    (hh : t.hd = v.hd) (hs : t.sectors = v.sectors) (he : t.heads = v.heads) : t = v := by
  have hr := h.rest.trans k.rest.symm
  obtain ⟨⟩ := t
  obtain ⟨⟩ := v
  simp only [Dcu.mk.injEq] at hr hm hh hs he ⊢
  exact ⟨hr.1, hr.2.1, hr.2.2.1, hr.2.2.2.1, hr.2.2.2.2.1, hr.2.2.2.2.2.1, hs, he,
    hr.2.2.2.2.2.2.2.2.1, hr.2.2.2.2.2.2.2.2.2.1, hh, hm⟩

/-- A 32-bit value is below `2 ^ 32`. -/
theorem u32_lt (n : ℕ) : u32 n < 2 ^ 32 := Nat.mod_lt _ (by decide)

/-- Writing a byte stays within the storage. -/
theorem Within.putByte (h : Within s t) (addr : ℕ) (v : UInt8) : Within s (t.putByte addr v) where
  mem x hx := by
    have hu := u32_lt addr
    have hne : x ≠ u32 addr := by omega
    exact (update_of_ne hne v t.mem).trans (h.mem x hx)
  hd := h.hd
  hd_rest := h.hd_rest
  sectors := h.sectors
  sectors_rest := h.sectors_rest
  heads := h.heads
  heads_rest := h.heads_rest
  rest := h.rest

/-- Writing a page stays within the storage. -/
theorem Within.writePage (h : Within s t) (addr : ℕ) (buffer : Sector) :
    Within s { t with mem := t.mem.writePage addr buffer } where
  mem x hx := by
    have hx' : x ∉ span addr 512 := by
      rintro ⟨k, _, rfl⟩
      have hu := u32_lt (addr + k)
      omega
    dsimp only
    rw [writePage_frame t.mem addr buffer x hx', h.mem x hx]
  hd := h.hd
  hd_rest := h.hd_rest
  sectors := h.sectors
  sectors_rest := h.sectors_rest
  heads := h.heads
  heads_rest := h.heads_rest
  rest := h.rest

/-- Setting a shape stays within the storage. -/
theorem Within.setGeometry {unit : ℕ} (h : Within s t) (hu : unit < 2) {g : ℕ × ℕ}
    (h1 : g.1 < 256) (h2 : g.2 < 32) : Within s (t.setGeometry unit g) where
  mem := h.mem
  hd := h.hd
  hd_rest := h.hd_rest
  sectors v := by
    unfold Dcu.setGeometry
    by_cases hv : v = unit
    · subst hv
      simp [h1]
    · simpa [hv] using h.sectors v
  sectors_rest v hv := by
    have hne : v ≠ unit := by omega
    exact (update_of_ne hne g.1 t.sectors).trans (h.sectors_rest v hv)
  heads v := by
    unfold Dcu.setGeometry
    by_cases hv : v = unit
    · subst hv
      simp [h2]
    · simpa [hv] using h.heads v
  heads_rest v hv := by
    have hne : v ≠ unit := by omega
    exact (update_of_ne hne g.2 t.heads).trans (h.heads_rest v hv)
  rest := h.rest

end States

/-! ## A chain that links to itself -/

end Sys16.DcuTermination
