import Sys16.MkfsBlocks

/-!
# The superblock that `write_superblock` writes

The fields are packed at increasing offsets, so that none overwrites another
and each reads back from the image with the value that was packed. Nothing
outside block 0 changes.
-/

namespace Sys16.MkfsSuperblock

open Function ByteStore LittleEndian PyText PyStruct MkfsImage MkfsBlocks

variable {fs fs' : Fs} {fields : List Field} {ws : List (ℕ × Bytes)} {f : Field} {n lo hi : ℕ}

/-- The superblock of an image. -/
def superblock (d : Bytes) : Bytes := slice d SUPERBOFF 512

/-- A packed field goes to its own offset. -/
theorem packField_eq {w : ℕ × Bytes} (h : packField f = .ok w) :
    w.1 = f.1 ∧ f.2.1.pack f.2.2 = .ok w.2 := by
  obtain ⟨b, hb, rfl⟩ := map_eq_ok.mp h
  exact ⟨rfl, hb⟩

/-- Each field comes before the next. -/
def Ordered (fields : List Field) : Prop := fields.Pairwise fun f g => f.1 + f.2.1.width ≤ g.1

/-- Fields inside a range of offsets. -/
def Within (lo hi : ℕ) (fields : List Field) : Prop :=
  ∀ f ∈ fields, lo ≤ f.1 ∧ f.1 + f.2.1.width ≤ hi

/-- Ordered fields followed by later ones are ordered. -/
theorem Ordered.append {xs ys : List Field} (hx : Ordered xs) (hy : Ordered ys)
    (h1 : Within lo n xs) (h2 : Within n hi ys) : Ordered (xs ++ ys) :=
  List.pairwise_append.mpr
    ⟨hx, hy, fun f hf g hg => Nat.le_trans (h1 f hf).2 (h2 g hg).1⟩

/-- Fields within two adjoining ranges lie within both together. -/
theorem Within.append {xs ys : List Field} (hx : Within lo n xs) (hy : Within n hi ys)
    (h1 : lo ≤ n) (h2 : n ≤ hi) : Within lo hi (xs ++ ys) := by
  intro f hf
  rcases List.mem_append.mp hf with hf | hf
  · exact ⟨(hx f hf).1, Nat.le_trans (hx f hf).2 h2⟩
  · exact ⟨Nat.le_trans h1 (hy f hf).1, (hy f hf).2⟩

/-- An array of values of one format, from an offset on. -/
def arrayFields (off : ℕ) (fmt : Format) (l : List ℕ) : List Field :=
  l.mapIdx fun k (b : ℕ) => (off + k * fmt.width, fmt, (b : ℤ))

/-- The fields of an array are ordered. -/
theorem arrayFields_ordered (off : ℕ) (fmt : Format) (l : List ℕ) :
    Ordered (arrayFields off fmt l) := by
  refine List.pairwise_iff_getElem.mpr fun i j hi hj hij => ?_
  have hle : (i + 1) * fmt.width ≤ j * fmt.width := Nat.mul_le_mul_right _ hij
  rw [Nat.add_mul, Nat.one_mul] at hle
  simp only [arrayFields, List.getElem_mapIdx]
  omega

/-- The fields of an array lie within its space. -/
theorem arrayFields_within (off : ℕ) (fmt : Format) {l : List ℕ} (hl : l.length ≤ n) :
    Within off (off + n * fmt.width) (arrayFields off fmt l) := by
  intro f hf
  obtain ⟨k, hk, rfl⟩ := List.mem_mapIdx.mp hf
  have hle : (k + 1) * fmt.width ≤ n * fmt.width := Nat.mul_le_mul_right _ (by omega)
  rw [Nat.add_mul, Nat.one_mul] at hle
  dsimp only
  omega

/-- The fields of the superblock in their five groups. -/
theorem superFields_eq (fs : Fs) :
    fs.superFields =
      ([(0, fmtH, fs.iblocks + 2), (4, fmtI, fs.nblocks), (8, fmth, fs.nfree)] : List Field) ++
        arrayFields 12 fmtI fs.free ++ ([(212, fmth, fs.free_ino.length)] : List Field) ++
        arrayFields 214 fmtH fs.free_ino ++
        ([(420, fmtI, fs.now), (432, fmtI, fs.tfree),
          (436, fmtH, fs.ninodes - fs.next_ino + 1)] : List Field) := rfl

/-- The list of free inodes is never longer than the superblock's. -/
theorem length_free_ino (fs : Fs) : fs.free_ino.length ≤ NICINOD := List.length_take_le _ _

/-- The superblock's fields are ordered and within its 438 bytes. -/
theorem superFields_ordered (hlen : fs.free.length = NICFREE) :
    Ordered fs.superFields ∧ Within 0 438 fs.superFields := by
  have h1 : Within 0 12
      ([(0, fmtH, fs.iblocks + 2), (4, fmtI, fs.nblocks), (8, fmth, fs.nfree)] : List Field) := by
    simp [Within, fmtH, fmtI, fmth]
  have h2 : Within 12 212 (arrayFields 12 fmtI fs.free) :=
    arrayFields_within 12 fmtI (n := 50) (by rw [hlen]; exact Nat.le_refl 50)
  have h3 : Within 212 214 ([(212, fmth, fs.free_ino.length)] : List Field) := by
    simp [Within, fmth]
  have h4 : Within 214 414 (arrayFields 214 fmtH fs.free_ino) :=
    arrayFields_within 214 fmtH (n := 100) (length_free_ino fs)
  have h5 : Within 414 438 ([(420, fmtI, fs.now), (432, fmtI, fs.tfree),
      (436, fmtH, fs.ninodes - fs.next_ino + 1)] : List Field) := by
    simp [Within, fmtH, fmtI]
  have o1 : Ordered
      ([(0, fmtH, fs.iblocks + 2), (4, fmtI, fs.nblocks), (8, fmth, fs.nfree)] : List Field) := by
    simp [Ordered, fmtH, fmtI]
  have o3 : Ordered ([(212, fmth, fs.free_ino.length)] : List Field) := by simp [Ordered]
  have o5 : Ordered ([(420, fmtI, fs.now), (432, fmtI, fs.tfree),
      (436, fmtH, fs.ninodes - fs.next_ino + 1)] : List Field) := by
    simp [Ordered, fmtI]
  have o2 := arrayFields_ordered 12 fmtI fs.free
  have o4 := arrayFields_ordered 214 fmtH fs.free_ino
  have w12 := h1.append h2 (by omega) (by omega)
  have w13 := w12.append h3 (by omega) (by omega)
  have w14 := w13.append h4 (by omega) (by omega)
  have w15 := w14.append h5 (by omega) (by omega)
  rw [superFields_eq]
  exact ⟨(((o1.append o2 h1 h2).append o3 w12 h3).append o4 w13 h4).append o5 w14 h5, w15⟩

/-- Packed fields are writes at the same offsets and of the same widths. -/
theorem packed_writes (h : List.Forall₂ (fun f w => packField f = .ok w) fields ws)
    (ho : Ordered fields) (hw : Within lo hi fields) :
    ws.Pairwise (fun v w => v.1 + v.2.length ≤ w.1) ∧ ∀ w ∈ ws, w.1 + w.2.length ≤ hi := by
  induction h with
  | nil => exact ⟨List.Pairwise.nil, by simp⟩
  | @cons f w fields ws hf hall ih =>
    obtain ⟨hfirst, hrest⟩ := List.pairwise_cons.mp ho
    obtain ⟨hp, hb⟩ := ih hrest fun g hg => hw g (List.mem_cons_of_mem f hg)
    obtain ⟨hoff, hpack⟩ := packField_eq hf
    have hlen := Format.length_pack hpack
    refine ⟨List.pairwise_cons.mpr ⟨fun v hv => ?_, hp⟩, fun v hv => ?_⟩
    · obtain ⟨g, hg, hgv⟩ := exists_of_mem_right hall hv
      have hle := hfirst g hg
      have hgoff := (packField_eq hgv).1
      omega
    · rcases List.mem_cons.mp hv with rfl | hv
      · have hle := (hw f List.mem_cons_self).2
        omega
      · exact hb v hv

/-- The superblock is a sequence of writes at increasing offsets, with one for
every field. -/
theorem write_superblock_eq (h : fs.write_superblock = .ok fs')
    (hlen : fs.free.length = NICFREE) :
    ∃ ws, fs' = { fs with
        data := setSlice fs.data SUPERBOFF (writeAll (List.replicate 512 0) ws) } ∧
      ws.Pairwise (fun v w => v.1 + v.2.length ≤ w.1) ∧ Fits ws 512 ∧
      ∀ f ∈ fs.superFields, ∃ b, f.2.1.pack f.2.2 = .ok b ∧ (f.1, b) ∈ ws := by
  unfold Fs.write_superblock at h
  obtain ⟨ws, hws, h⟩ := bind_eq_ok.mp h
  obtain ⟨magic, hmagic, h⟩ := bind_eq_ok.mp h
  obtain ⟨type, htype, h⟩ := bind_eq_ok.mp h
  obtain ⟨fname, hfname, h⟩ := bind_eq_ok.mp h
  obtain ⟨fpack, hfpack, h⟩ := bind_eq_ok.mp h
  cases h
  have hall := mapM_eq_ok.mp hws
  obtain ⟨ho, hw⟩ := superFields_ordered hlen
  obtain ⟨hwp, hwb⟩ := packed_writes hall ho hw
  have h1 : magic.length = 4 := Format.length_pack hmagic
  have h2 : type.length = 4 := Format.length_pack htype
  have h3 := (mapM_eq_ok.mp hfname).length_eq
  have h4 := (mapM_eq_ok.mp hfpack).length_eq
  have h5 : (pad 6 fname).length = 6 := length_pad (by rw [← h3]; decide)
  have h6 : (pad 6 fpack).length = 6 := length_pad (by rw [← h4]; decide)
  refine ⟨_, rfl, ?_, ?_, ?_⟩
  · refine List.pairwise_append.mpr ⟨hwp, by simp [h1, h5, h6], fun v hv u hu => ?_⟩
    have hv := hwb v hv
    simp only [List.mem_cons, List.not_mem_nil, or_false] at hu
    rcases hu with rfl | rfl | rfl | rfl <;> dsimp only <;> omega
  · intro v hv
    rcases List.mem_append.mp hv with hv | hv
    · have := hwb v hv
      omega
    · simp only [List.mem_cons, List.not_mem_nil, or_false] at hv
      rcases hv with rfl | rfl | rfl | rfl <;> dsimp only <;> omega
  · intro f hf
    obtain ⟨w, hmem, hpack⟩ := exists_of_mem_left hall hf
    obtain ⟨hoff, hpack⟩ := packField_eq hpack
    refine ⟨w.2, hpack, List.mem_append_left _ ?_⟩
    rw [← hoff]
    exact hmem

/-- A packed superblock takes 512 bytes. -/
theorem length_superblock {ws : List (ℕ × Bytes)} (hfit : Fits ws 512) :
    (writeAll (List.replicate 512 (0 : UInt8)) ws).length = 512 := by
  rw [length_writeAll (by rwa [List.length_replicate]), List.length_replicate]

/-- Every field of the superblock reads back from the image. -/
theorem write_superblock_field (h : fs.write_superblock = .ok fs')
    (hlen : fs.free.length = NICFREE) (hsize : SUPERBOFF + 512 ≤ fs.data.length)
    (hf : f ∈ fs.superFields) :
    ∃ b, f.2.1.pack f.2.2 = .ok b ∧ slice (superblock fs'.data) f.1 f.2.1.width = b := by
  obtain ⟨ws, rfl, hp, hfit, hfields⟩ := write_superblock_eq h hlen
  obtain ⟨b, hpack, hmem⟩ := hfields f hf
  have hsb := length_superblock hfit
  have hroom : SUPERBOFF + (writeAll (List.replicate 512 0) ws).length ≤ fs.data.length := by
    rw [hsb]
    exact hsize
  have hself := slice_setSlice_self hroom
  rw [hsb] at hself
  have hread := slice_writeAll_of_mem (d := List.replicate 512 0)
    (by rwa [List.length_replicate]) hp hmem
  rw [Format.length_pack hpack] at hread
  exact ⟨b, hpack, (congrArg (slice · f.1 f.2.1.width) hself).trans hread⟩

/-- Writing the superblock changes the second half of block 0 only. -/
theorem write_superblock_frame (h : fs.write_superblock = .ok fs')
    (hlen : fs.free.length = NICFREE) (hsize : SUPERBOFF + 512 ≤ fs.data.length) :
    fs'.data.length = fs.data.length ∧
      (∀ off n, SUPERBOFF + 512 ≤ off → slice fs'.data off n = slice fs.data off n) ∧
      fs' = { fs with data := fs'.data } := by
  obtain ⟨ws, rfl, _, hfit, _⟩ := write_superblock_eq h hlen
  have hsb := length_superblock hfit
  refine ⟨length_setSlice (by rw [hsb]; exact hsize), fun off n ho => ?_, rfl⟩
  exact slice_setSlice_of_disjoint (by rw [hsb]; exact hsize) (Or.inr (by rw [hsb]; exact ho))

/-- The superblock is only written when its i-list size fits sixteen bits. -/
theorem write_superblock_isize (h : fs.write_superblock = .ok fs') : fs.iblocks + 2 < 2 ^ 16 := by
  unfold Fs.write_superblock at h
  obtain ⟨ws, hws, _⟩ := bind_eq_ok.mp h
  have hmem : ((0, fmtH, (fs.iblocks : ℤ) + 2) : Field) ∈ fs.superFields := by
    simp [Fs.superFields]
  obtain ⟨w, _, hpack⟩ := exists_of_mem_left (mapM_eq_ok.mp hws) hmem
  have hrange := (Format.pack_range (packField_eq hpack).2).2
  have hbound : (fs.iblocks : ℤ) + 2 < 0 + 256 ^ 2 := hrange
  omega

end Sys16.MkfsSuperblock
