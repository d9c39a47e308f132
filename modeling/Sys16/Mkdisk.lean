import Sys16.PyStruct

/-!
# The disk header of `tools/mkdisk.py`

The drive types, the layout of a pack and the 92-byte header that holds it.
-/

namespace Sys16.Mkdisk

open ByteStore LittleEndian PyText PyStruct

def DMAGIC : ℤ := 0x6d737000

/-- The keys of `DRIVES`. -/
inductive Drive where
  | basf20 | m3m20 | m3m60 | imi20 | imi60 | priam70
  deriving DecidableEq, Repr

def Drive.name : Drive → Str
  | basf20 => str "basf20"
  | m3m20 => str "3m20"
  | m3m60 => str "3m60"
  | imi20 => str "imi20"
  | imi60 => str "imi60"
  | priam70 => str "priam70"

/-- An entry of `DRIVES`. -/
structure Shape where
  /-- Sectors per track. -/
  nsec : ℕ
  /-- Tracks per cylinder. -/
  ntr : ℕ
  /-- Cylinders. -/
  ncyl : ℕ
  /-- Formatting data of sector zero. -/
  ploz : ℤ
  /-- Formatting data of the other sectors. -/
  plonz : ℤ
  deriving DecidableEq, Repr

/-- `DRIVES`. -/
def DRIVES : Drive → Shape
  | .basf20 => ⟨24, 3, 614, 11, 17⟩
  | .m3m20 => ⟨30, 4, 280, 29, 57⟩
  | .m3m60 => ⟨32, 4, 838, 9, 21⟩
  | .imi20 => ⟨18, 5, 388, 29, 61⟩
  | .imi60 => ⟨18, 7, 776, 29, 61⟩
  | .priam70 => ⟨22, 5, 1049, 23, 73⟩

/-- `DEFAULT`. -/
def DEFAULT : Drive := .priam70

/-- The result of `layout`, without the fields of the shape it repeats. -/
structure Layout where
  spcyl : ℕ
  spunit : ℕ
  /-- Length and first cylinder of each partition. -/
  part : List (ℤ × ℤ)
  deriving DecidableEq, Repr

/-- `layout`. -/
def layout (s : Shape) : Layout :=
  let spcyl := s.nsec * s.ntr
  let spunit := spcyl * s.ncyl
  let swap_cyls := max 46 ((5040 + spcyl - 1) / spcyl + 1)
  let root_cyls : ℤ := s.ncyl - swap_cyls
  { spcyl := spcyl
    spunit := spunit
    part := [(root_cyls * spcyl, 0), (swap_cyls * spcyl, root_cyls), (root_cyls * spcyl, 0),
      (swap_cyls * spcyl, root_cyls), (spunit, 0), (0, 0), (0, 0), (0, 0)] }

/-- One pass of the loop over the partitions. -/
def packPart (p : ℤ × ℤ) : Except Failure Bytes := do
  let nbl ← fmti.pack p.1
  let cyloff ← fmti.pack p.2
  return nbl ++ cyloff

/-- The shorts of a header, in order. -/
def shortFields (s : Shape) : List ℤ :=
  [s.ploz, s.plonz, s.nsec, s.ntr, s.ncyl, (layout s).spcyl]

/-- `disktab`, for an entry of `DRIVES` and the name that goes into the header. -/
def disktabOf (s : Shape) (name : Str) : Except Failure Bytes := do
  let l := layout s
  let magic ← fmtI.pack DMAGIC
  let shorts ← (shortFields s).mapM fmth.pack
  let spunit ← fmtI.pack l.spunit
  let part ← l.part.mapM packPart
  let name ← encodeUtf8 name
  let b := magic ++ shorts.flatten ++ spunit ++ part.flatten ++ pad 8 (name.take 8)
  if b.length = 92 then return b else .error .assertionError

/-- `disktab`, for one of the drive types the tool comes with. -/
def disktab (drive : Drive) : Except Failure Bytes := disktabOf (DRIVES drive) drive.name

/-- `root_blocks`. -/
def root_blocks (s : Shape) : ℤ := ((layout s).part.headD (0, 0)).1 / 2

/-- What `main` leaves in the file of the pack, with its header: the file is
extended to the size of the unit and the header's sector written at its start. -/
def pack (s : Shape) (header : Bytes) : Bytes :=
  setSlice (List.replicate ((layout s).spunit * 512) 0) 0 (pad 512 header)

variable {s : Shape} {name : Str} {b : Bytes}

/-- The fields of a header, each packed in its own format. -/
structure Fields (s : Shape) (name : Str) where
  /-- The magic number. -/
  magic : Bytes
  /-- The shorts of the shape. -/
  shorts : List Bytes
  /-- Sectors of the unit. -/
  spunit : Bytes
  /-- The partition table. -/
  part : List Bytes
  /-- The encoded name. -/
  label : Bytes
  magic_eq : fmtI.pack DMAGIC = .ok magic
  shorts_eq : List.Forall₂ (fun x w => fmth.pack x = .ok w) (shortFields s) shorts
  spunit_eq : fmtI.pack (layout s).spunit = .ok spunit
  part_eq : List.Forall₂ (fun p w => packPart p = .ok w) (layout s).part part
  label_eq : encodeUtf8 name = .ok label

/-- The header that fields make. -/
def Fields.bytes (f : Fields s name) : Bytes :=
  f.magic ++ f.shorts.flatten ++ f.spunit ++ f.part.flatten ++ pad 8 (f.label.take 8)

/-- A header that is made is made of its fields. -/
theorem disktabOf_fields (h : disktabOf s name = .ok b) : ∃ f : Fields s name, f.bytes = b := by
  unfold disktabOf at h
  obtain ⟨magic, hmagic, h⟩ := bind_eq_ok.mp h
  obtain ⟨shorts, hshorts, h⟩ := bind_eq_ok.mp h
  obtain ⟨spunit, hspunit, h⟩ := bind_eq_ok.mp h
  obtain ⟨part, hpart, h⟩ := bind_eq_ok.mp h
  obtain ⟨label, hlabel, h⟩ := bind_eq_ok.mp h
  let f : Fields s name := ⟨magic, shorts, spunit, part, label, hmagic, mapM_eq_ok.mp hshorts,
    hspunit, mapM_eq_ok.mp hpart, hlabel⟩
  have h' : (if f.bytes.length = 92 then .ok f.bytes else .error .assertionError) =
    (.ok b : Except Failure Bytes) := h
  split at h'
  · exact ⟨f, Except.ok.inj h'⟩
  · cases h'

theorem Fields.length_magic (f : Fields s name) : f.magic.length = 4 :=
  Format.length_pack f.magic_eq

theorem Fields.length_short (f : Fields s name) : ∀ w ∈ f.shorts, w.length = 2 := by
  intro w hw
  obtain ⟨x, _, hx⟩ := exists_of_mem_right f.shorts_eq hw
  exact Format.length_pack hx

theorem Fields.length_shorts (f : Fields s name) : f.shorts.length = 6 := f.shorts_eq.length_eq.symm

theorem Fields.length_shorts_flatten (f : Fields s name) : f.shorts.flatten.length = 12 := by
  rw [length_flatten_of_forall f.length_short, f.length_shorts]

/-- A row of the partition table is its two words. -/
theorem packPart_eq {p : ℤ × ℤ} {w : Bytes} (h : packPart p = .ok w) :
    ∃ nbl cyloff, fmti.pack p.1 = .ok nbl ∧ fmti.pack p.2 = .ok cyloff ∧ w = nbl ++ cyloff := by
  obtain ⟨nbl, hnbl, h⟩ := bind_eq_ok.mp h
  obtain ⟨cyloff, hcyloff, h⟩ := bind_eq_ok.mp h
  exact ⟨nbl, cyloff, hnbl, hcyloff, (Except.ok.inj h).symm⟩

theorem Fields.length_part_flatten (f : Fields s name) : f.part.flatten.length = 64 := by
  have hrow : ∀ w ∈ f.part, w.length = 8 := by
    intro w hw
    obtain ⟨p, _, hp⟩ := exists_of_mem_right f.part_eq hw
    obtain ⟨nbl, cyloff, hnbl, hcyloff, rfl⟩ := packPart_eq hp
    rw [List.length_append, Format.length_pack hnbl, Format.length_pack hcyloff]
    rfl
  have hcount : f.part.length = 8 := f.part_eq.length_eq.symm
  rw [length_flatten_of_forall hrow, hcount]

/-- The fields take 92 bytes, so that the assertion of `disktab` holds. -/
theorem Fields.length_bytes (f : Fields s name) : f.bytes.length = 92 := by
  have hname : (pad 8 (f.label.take 8)).length = 8 :=
    length_pad (List.length_take_le 8 f.label)
  have hspunit : f.spunit.length = 4 := Format.length_pack f.spunit_eq
  unfold Fields.bytes
  simp only [List.length_append, hname, hspunit, f.length_magic, f.length_shorts_flatten,
    f.length_part_flatten]

/-- The header takes 92 bytes. -/
theorem length_disktabOf (h : disktabOf s name = .ok b) : b.length = 92 := by
  obtain ⟨f, rfl⟩ := disktabOf_fields h
  exact f.length_bytes

/-- The header is 92 bytes. -/
theorem length_disktab {drive : Drive} (h : disktab drive = .ok b) : b.length = 92 :=
  length_disktabOf h

/-- The magic number is the first word. -/
theorem Fields.slice_magic (f : Fields s name) : slice f.bytes 0 4 = f.magic := by
  unfold Fields.bytes
  simp only [List.append_assoc]
  exact slice_head f.length_magic

/-- The shorts follow it, two bytes each. -/
theorem Fields.slice_short (f : Fields s name) {k : ℕ} (hk : k < f.shorts.length) :
    slice f.bytes (4 + k * 2) 2 = f.shorts[k] := by
  have hflat := f.length_shorts_flatten
  have hcount := f.length_shorts
  unfold Fields.bytes
  simp only [List.append_assoc]
  rw [slice_tail f.length_magic, slice_append_left _ _ (by omega)]
  exact slice_flatten f.length_short hk

/-- A short stands packed in its place. -/
theorem Fields.pack_short (f : Fields s name) {k : ℕ} {x : ℤ}
    (hk : (shortFields s)[k]? = some x) : fmth.pack x = .ok (slice f.bytes (4 + k * 2) 2) := by
  obtain ⟨hlt, hx⟩ := List.getElem?_eq_some_iff.mp hk
  have hk' : k < f.shorts.length := f.shorts_eq.length_eq ▸ hlt
  have hpack := (List.forall₂_iff_get.mp f.shorts_eq).2 k hlt hk'
  rw [List.get_eq_getElem, List.get_eq_getElem, hx] at hpack
  rw [f.slice_short hk', hpack]

/-- A natural among the shorts reads back from its place. -/
theorem Fields.decode_short (f : Fields s name) {k x : ℕ}
    (hk : (shortFields s)[k]? = some (x : ℤ)) : decode (slice f.bytes (4 + k * 2) 2) = x :=
  Format.decode_pack (f.pack_short hk)

/-- A header that could be packed is of a pack of fewer than 32768 cylinders. -/
theorem Fields.ncyl_lt (f : Fields s name) : s.ncyl < 2 ^ 15 := by
  have hrange : (s.ncyl : ℤ) < fmth.low + 256 ^ fmth.width :=
    (Format.pack_range (f.pack_short (k := 4) rfl)).2
  have hbound : fmth.low + 256 ^ fmth.width = 2 ^ 15 := by decide
  omega

/-- The name as it stands in a header. -/
def headerName (name : Str) : Except Failure Bytes :=
  (fun label => pad 8 (label.take 8)) <$> encodeUtf8 name

/-- The name is the end of the header. -/
theorem Fields.slice_name (f : Fields s name) : headerName name = .ok (slice f.bytes 84 8) := by
  have hspunit : f.spunit.length = 4 := Format.length_pack f.spunit_eq
  have hbefore : (f.magic ++ f.shorts.flatten ++ f.spunit ++ f.part.flatten).length = 84 := by
    simp only [List.length_append, hspunit, f.length_magic, f.length_shorts_flatten,
      f.length_part_flatten]
  have hpad : (pad 8 (f.label.take 8)).length = 8 := length_pad (List.length_take_le 8 f.label)
  unfold headerName Fields.bytes
  rw [f.label_eq, show 84 = 84 + 0 from rfl, slice_tail hbefore, slice_all hpad]
  rfl

/-- A header is one of a single shape and a single name of eight bytes. -/
theorem disktabOf_injective {s' : Shape} {name' : Str} (h : disktabOf s name = .ok b)
    (h' : disktabOf s' name' = .ok b) : s = s' ∧ headerName name = headerName name' := by
  obtain ⟨f, hf⟩ := disktabOf_fields h
  obtain ⟨f', hf'⟩ := disktabOf_fields h'
  have hbytes : f.bytes = f'.bytes := hf.trans hf'.symm
  have hshort : ∀ (k : ℕ) (x x' : ℤ), (shortFields s)[k]? = some x →
      (shortFields s')[k]? = some x' → x = x' := by
    intro k x x' hx hx'
    rw [← Format.value_pack (f.pack_short hx), ← Format.value_pack (f'.pack_short hx'), hbytes]
  have hploz : s.ploz = s'.ploz := hshort 0 _ _ rfl rfl
  have hplonz : s.plonz = s'.plonz := hshort 1 _ _ rfl rfl
  have hnsec : (s.nsec : ℤ) = s'.nsec := hshort 2 _ _ rfl rfl
  have hntr : (s.ntr : ℤ) = s'.ntr := hshort 3 _ _ rfl rfl
  have hncyl : (s.ncyl : ℤ) = s'.ncyl := hshort 4 _ _ rfl rfl
  refine ⟨?_, by rw [f.slice_name, f'.slice_name, hbytes]⟩
  cases s
  cases s'
  simp only [Nat.cast_inj] at hploz hplonz hnsec hntr hncyl
  rw [hploz, hplonz, hnsec, hntr, hncyl]

/-- The name goes into the header as `headerName` has it. -/
theorem disktabOf_congr {b' : Bytes} {name' : Str} (h : disktabOf s name = .ok b)
    (h' : disktabOf s name' = .ok b') (hname : headerName name = headerName name') : b = b' := by
  obtain ⟨f, rfl⟩ := disktabOf_fields h
  obtain ⟨f', rfl⟩ := disktabOf_fields h'
  have hmagic : f.magic = f'.magic := Except.ok.inj (f.magic_eq.symm.trans f'.magic_eq)
  have hshorts : f.shorts = f'.shorts :=
    Except.ok.inj ((mapM_eq_ok.mpr f.shorts_eq).symm.trans (mapM_eq_ok.mpr f'.shorts_eq))
  have hspunit : f.spunit = f'.spunit := Except.ok.inj (f.spunit_eq.symm.trans f'.spunit_eq)
  have hpart : f.part = f'.part :=
    Except.ok.inj ((mapM_eq_ok.mpr f.part_eq).symm.trans (mapM_eq_ok.mpr f'.part_eq))
  have hlabel : pad 8 (f.label.take 8) = pad 8 (f'.label.take 8) := by
    unfold headerName at hname
    rw [f.label_eq, f'.label_eq] at hname
    exact Except.ok.inj hname
  unfold Fields.bytes
  rw [hmagic, hshorts, hspunit, hpart, hlabel]

end Sys16.Mkdisk
