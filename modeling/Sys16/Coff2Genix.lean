import Sys16.PyBytes
import Sys16.PyDict

/-!
# The converter of `tools/coff2genix.py`

`main` over the bytes of a COFF file: the checks of the headers, the sections
by name, the a.out header and the bytes after it. The ROM loader is stated as
what it does with an a.out, the text from file offset 1024 at the text address
and the data straight after it. A file that is converted loads as its sections
exactly when the sections lie inside it.
-/

namespace Sys16.Coff2Genix

open ByteStore LittleEndian PyBytes PyDict PyStruct PyText

def ZMAGIC : ℤ := 0o413
def NS32K_COFF : ℤ := 0x0154

/-- `'<HHIIIHH'`: magic nscns timdat symptr nsyms opthdr flags. -/
def FILEHDR : List Format := [fmtH, fmtH, fmtI, fmtI, fmtI, fmtH, fmtH]
/-- `'<hhiiiiiiiihH'`: the ns32000 flavour, 40 bytes. -/
def AOUTHDR : List Format := [fmth, fmth] ++ List.replicate 8 fmti ++ [fmth, fmtH]
def SCNHSZ : ℕ := 48

/-- The numbers of a section header after the name: paddr vaddr size scnptr. -/
def SCNHDR : List Format := [fmti, fmti, fmti, fmti]

/-- What is kept of a section header. -/
structure Section where
  paddr : ℤ
  size : ℤ
  /-- File offset of the raw data. -/
  scnptr : ℤ
  deriving DecidableEq, Repr

/-- A number in digits, as a format specification prints it. -/
def digitsOf (base : ℕ) (x : ℤ) : Str :=
  (if x < 0 then str "-" else []) ++ (Nat.toDigits base x.natAbs).map Char.toNat

/-- `f'{x:04x}'`. -/
def hex4 (x : ℤ) : Str :=
  let s := digitsOf 16 x
  List.replicate (4 - s.length) '0'.toNat ++ s

/-- One pass of the loop over the section headers. -/
def section_header (d : Bytes) (off : ℕ) : Except Failure (Str × Section) := do
  let v ← if off + 8 ≤ d.length then unpackFrom SCNHDR d (off + 8) else .error .structError
  let name ← decodeUtf8 (rstripNul (slice d off 8))
  return (name, ⟨v.getD 0 0, v.getD 2 0, v.getD 3 0⟩)

/-- The dictionary `sections`. -/
def sections (d : Bytes) (opthdr nscns : ℕ) : Except Failure (Dict Str Section) :=
  (List.range nscns).foldlM (fun secs i => do
    let (name, s) ← section_header d (20 + opthdr + i * SCNHSZ)
    return secs.set name s) ⟨[], List.nodup_nil⟩

/-- What `main` takes from the headers of a file. -/
structure Kernel where
  entry : ℤ
  text : Section
  data : Section
  bss_size : ℤ
  deriving DecidableEq, Repr

/-- `sections[name]`. -/
def sectionOf (secs : Dict Str Section) (name : Str) : Except Failure Section :=
  match secs.get? name with
  | some s => .ok s
  | none => .error .keyError

/-- The first part of `main`, down to the three sections. -/
def headers (src : Str) (d : Bytes) : Except Failure Kernel := do
  let h ← unpackFrom FILEHDR d 0
  let magic := h.getD 0 0
  let nscns := h.getD 1 0
  let opthdr := h.getD 5 0
  if magic ≠ NS32K_COFF then
    .error (.exit (src ++ str ": not ns32000 COFF (magic 0x" ++ hex4 magic ++ str ")"))
  else if opthdr ≠ 40 then
    .error (.exit (src ++ str ": unexpected optional header size " ++ digitsOf 10 opthdr))
  else do
    let a ← unpackFrom AOUTHDR d 20
    let amagic := a.getD 0 0
    if amagic ≠ ZMAGIC then
      .error (.exit (src ++ str ": bad magic 0o" ++ digitsOf 8 amagic))
    else do
      let secs ← sections d opthdr.toNat nscns.toNat
      let text ← sectionOf secs (str ".text")
      let data ← sectionOf secs (str ".data")
      let bss ← sectionOf secs (str ".bss")
      return ⟨a.getD 7 0, text, data, bss.size⟩

/-- The padded size of the text. -/
def Kernel.a_text (k : Kernel) : ℤ := k.data.paddr - k.text.paddr

/-- The fifteen words of the a.out header. -/
def Kernel.exec_hdr (k : Kernel) : List ℤ :=
  [ZMAGIC, k.a_text, k.data.size, k.bss_size, 0, k.entry, 0, 0, 0, 0x20, 0, 0, k.text.paddr, 0,
    k.data.paddr]

/-- `d[ptr:ptr + size]` of a section. -/
def Section.raw (s : Section) (d : Bytes) : Bytes := pySlice d s.scnptr (s.scnptr + s.size)

/-- The rest of `main`: the bytes it writes. -/
def output (k : Kernel) (d : Bytes) : Except Failure Bytes :=
  if k.a_text < k.text.size then .error (.exit (str "data section overlaps the text"))
  else do
    let exec_hdr ← packAll fmtI k.exec_hdr
    return pad 1024 exec_hdr ++ pad k.a_text.toNat (k.text.raw d) ++ k.data.raw d

/-- `main`: the output file for the name and the bytes of the input file. -/
def main (src : Str) (d : Bytes) : Except Failure Bytes := do
  let k ← headers src d
  output k d

/-! ## Loading an a.out -/

/-- `a_text` of an a.out. -/
def a_text (out : Bytes) : ℕ := decode (slice out 4 4)
/-- `a_data`. -/
def a_data (out : Bytes) : ℕ := decode (slice out 8 4)
/-- `a_text_addr`. -/
def a_text_addr (out : Bytes) : ℕ := decode (slice out 48 4)

/-- What the ROM puts at an address: `a_text` bytes from file offset 1024 at
`a_text_addr`, and the `a_data` bytes that follow straight after them. -/
def load (out : Bytes) (x : ℤ) : Option UInt8 :=
  if a_text_addr out ≤ x ∧ x < a_text_addr out + a_text out then
    out[1024 + (x - a_text_addr out).toNat]?
  else if a_text_addr out + a_text out ≤ x ∧ x < a_text_addr out + a_text out + a_data out then
    out[1024 + a_text out + (x - (a_text_addr out + a_text out)).toNat]?
  else none

/-- A section is loaded where it was linked, each byte the one of its raw data
in the file. -/
def Section.Loaded (s : Section) (d out : Bytes) : Prop :=
  ∀ i : ℕ, (i : ℤ) < s.size →
    ∃ q : ℕ, (q : ℤ) = s.scnptr + i ∧ ∃ b, d[q]? = some b ∧ load out (s.paddr + i) = some b

/-- The bytes taken for a section are from its own extent in the file. -/
def Section.Own (s : Section) (d : Bytes) : Prop :=
  ∀ q ∈ positions d s.scnptr (s.scnptr + s.size),
    s.scnptr ≤ (q : ℤ) ∧ (q : ℤ) < s.scnptr + s.size

/-- An output file that loads as the sections it was made from. -/
structure LoadsAs (k : Kernel) (d out : Bytes) : Prop where
  size : out.length = 1024 + a_text out + a_data out
  text : k.text.Loaded d out
  data : k.data.Loaded d out
  text_own : k.text.Own d
  data_own : k.data.Own d

/-- A section that has bytes has them inside the file. -/
def Section.InFile (s : Section) (d : Bytes) : Prop :=
  0 < s.size → 0 ≤ s.scnptr ∧ s.scnptr + s.size ≤ d.length

/-- A text section of negative size whose slice, with the end counted from the
end of the file, is not empty. -/
def Section.Wraps (s : Section) (d : Bytes) : Prop :=
  s.size < 0 ∧ 0 ≤ s.scnptr ∧ s.scnptr < -s.size ∧ -s.size < d.length

variable {src : Str} {k : Kernel} {d out : Bytes}

/-! ## What is written -/

/-- A run of `main` that completes. -/
structure Converted (k : Kernel) (d out : Bytes) where
  /-- The packed header. -/
  hdr : Bytes
  fits : k.text.size ≤ k.a_text
  packed : packAll fmtI k.exec_hdr = .ok hdr
  out_eq : out = pad 1024 hdr ++ pad k.a_text.toNat (k.text.raw d) ++ k.data.raw d

/-- `main` completes on the headers it reads and a conversion of them. -/
theorem main_eq_ok (h : main src d = .ok out) :
    ∃ k, headers src d = .ok k ∧ Nonempty (Converted k d out) := by
  obtain ⟨k, hk, h⟩ := bind_eq_ok.mp h
  unfold output at h
  split at h
  · cases h
  · next hfit =>
    obtain ⟨hdr, hp, h⟩ := bind_eq_ok.mp h
    exact ⟨k, hk, ⟨⟨hdr, Int.not_lt.mp hfit, hp, (Except.ok.inj h).symm⟩⟩⟩

namespace Converted

/-- The header takes 60 bytes. -/
theorem length_hdr (c : Converted k d out) : c.hdr.length = 60 := (packAll_eq_ok c.packed).1

/-- It is padded to 1024. -/
theorem length_pad_hdr (c : Converted k d out) : (pad 1024 c.hdr).length = 1024 :=
  length_pad (by rw [c.length_hdr]; omega)

/-- A word of the header is the natural it was packed from. -/
theorem word (c : Converted k d out) {i : ℕ} {x : ℤ} (hx : k.exec_hdr[i]? = some x) :
    0 ≤ x ∧ decode (slice out (i * 4) 4) = x.toNat := by
  have hpack := (packAll_eq_ok c.packed).2 i x hx
  have hrange := Format.pack_range hpack
  have hlow : fmtI.low = 0 := rfl
  have h0 : 0 ≤ x := by omega
  have hi : i < 15 := (List.getElem?_eq_some_iff.mp hx).1
  have hlen := c.length_hdr
  have hs : slice out (i * 4) 4 = slice c.hdr (i * 4) 4 := by
    conv_lhs => rw [c.out_eq]
    unfold pad
    rw [List.append_assoc, List.append_assoc, slice_append_left _ _ (by omega)]
  refine ⟨h0, ?_⟩
  rw [hs]
  refine Format.decode_pack (f := fmtI) ?_
  rw [Int.toNat_of_nonneg h0]
  exact hpack

/-- The text size in the output is the one asked for. -/
theorem a_text_eq (c : Converted k d out) : 0 ≤ k.a_text ∧ a_text out = k.a_text.toNat :=
  c.word (i := 1) rfl

/-- The data size in the output is that of the section. -/
theorem a_data_eq (c : Converted k d out) : 0 ≤ k.data.size ∧ a_data out = k.data.size.toNat :=
  c.word (i := 2) rfl

/-- The text address in the output is that of the section. -/
theorem a_text_addr_eq (c : Converted k d out) :
    0 ≤ k.text.paddr ∧ a_text_addr out = k.text.paddr.toNat :=
  c.word (i := 12) rfl

/-- Past the header the file holds the padded text and then the data. -/
theorem drop_out (c : Converted k d out) :
    out.drop 1024 = pad k.a_text.toNat (k.text.raw d) ++ k.data.raw d := by
  conv_lhs => rw [c.out_eq, List.append_assoc]
  exact List.drop_left' c.length_pad_hdr

/-- Behind the header stand the padded text and then the data. -/
theorem getElem?_out (c : Converted k d out) (i : ℕ) :
    out[1024 + i]? = (pad k.a_text.toNat (k.text.raw d) ++ k.data.raw d)[i]? := by
  rw [← c.drop_out, List.getElem?_drop]

/-- The text region of memory is the start of the padded text. -/
theorem load_text (c : Converted k d out) {i : ℕ} (hi : (i : ℤ) < k.a_text) :
    load out (k.text.paddr + i) = (pad k.a_text.toNat (k.text.raw d))[i]? := by
  obtain ⟨h0, ht⟩ := c.a_text_eq
  obtain ⟨hp, ha⟩ := c.a_text_addr_eq
  have hlen : k.a_text.toNat ≤ (pad k.a_text.toNat (k.text.raw d)).length := by
    unfold pad
    rw [List.length_append, List.length_replicate]
    omega
  have hoff : (k.text.paddr + i - (k.text.paddr.toNat : ℤ)).toNat = i := by omega
  unfold load
  rw [ht, ha, if_pos (by omega), hoff, c.getElem?_out, List.getElem?_append_left (by omega)]

/-- What follows is the data, when the text was not longer than its space. -/
theorem load_data (c : Converted k d out) (hraw : (k.text.raw d).length ≤ k.a_text.toNat) {i : ℕ}
    (hi : (i : ℤ) < k.data.size) : load out (k.data.paddr + i) = (k.data.raw d)[i]? := by
  obtain ⟨h0, ht⟩ := c.a_text_eq
  obtain ⟨hs, hd⟩ := c.a_data_eq
  obtain ⟨hp, ha⟩ := c.a_text_addr_eq
  have hdef : k.a_text = k.data.paddr - k.text.paddr := rfl
  have hlen : (pad k.a_text.toNat (k.text.raw d)).length = k.a_text.toNat := length_pad hraw
  have hoff : (k.data.paddr + i - ((k.text.paddr.toNat : ℤ) + (k.a_text.toNat : ℤ))).toNat = i := by
    omega
  unfold load
  rw [ht, hd, ha, if_neg (by omega), if_pos (by omega), hoff, Nat.add_assoc, c.getElem?_out,
    List.getElem?_append_right (by omega), hlen, Nat.add_sub_cancel_left]

end Converted

/-! ## Sections inside the file -/

variable {s : Section}

/-- A section inside the file is its raw data, byte for byte. -/
theorem Section.raw_inFile (h : s.InFile d) (hs : 0 ≤ s.size) :
    (s.raw d).length = s.size.toNat ∧ s.Own d ∧
      ∀ i : ℕ, (i : ℤ) < s.size → 0 ≤ s.scnptr ∧ (s.raw d)[i]? = d[s.scnptr.toNat + i]? := by
  rcases Int.lt_or_eq_of_le hs with hpos | h0
  · obtain ⟨hptr, hend⟩ := h hpos
    obtain ⟨n, hn⟩ := Int.eq_ofNat_of_zero_le hptr
    obtain ⟨m, hm⟩ := Int.eq_ofNat_of_zero_le hs
    have hraw : s.raw d = slice d n m := by
      unfold Section.raw
      rw [hn, hm]
      exact pySlice_natCast d n m
    refine ⟨?_, ?_, ?_⟩
    · rw [hraw, length_slice (by omega), hm, Int.toNat_natCast]
    · intro q hq
      rw [hn, hm] at hq
      have hb := mem_positions hq
      omega
    · intro i hi
      refine ⟨hptr, ?_⟩
      rw [hraw, getElem?_slice, if_pos (by omega), hn, Int.toNat_natCast]
  · have hnil : positions d s.scnptr (s.scnptr + s.size) = [] := by
      rw [positions_eq_nil, ← h0, add_zero]
    refine ⟨?_, ?_, fun i hi => by omega⟩
    · unfold Section.raw
      rw [pySlice_eq_nil hnil, ← h0]
      rfl
    · intro q hq
      rw [hnil] at hq
      cases hq

/-- A section without bytes takes none, unless the end of its slice counts
from the end of the file. -/
theorem Section.positions_eq_nil_iff (hs : s.size ≤ 0) :
    positions d s.scnptr (s.scnptr + s.size) = [] ↔ ¬s.Wraps d := by
  rw [positions_eq_nil]
  unfold Section.Wraps bound
  split <;> split <;> omega

/-- A section whose bytes are in the file where its header says. -/
theorem Section.inFile_of_loaded (h : s.Loaded d out) : s.InFile d := by
  intro hpos
  obtain ⟨q, hq, _⟩ := h 0 (by omega)
  obtain ⟨r, hr, b, hb, _⟩ := h (s.size.toNat - 1) (by omega)
  have hlt := (List.getElem?_eq_some_iff.mp hb).1
  omega

/-- The text takes no more than its space when its slice is its extent. -/
theorem Converted.text_raw (c : Converted k d out) (h : k.text.InFile d) (hw : ¬k.text.Wraps d) :
    (k.text.raw d).length ≤ k.a_text.toNat ∧ k.text.Own d := by
  have hfit := c.fits
  rcases Int.le_total 0 k.text.size with hs | hs
  · obtain ⟨hlen, hown, _⟩ := Section.raw_inFile h hs
    exact ⟨by omega, hown⟩
  · have hnil := (Section.positions_eq_nil_iff hs).mpr hw
    refine ⟨?_, ?_⟩
    · unfold Section.raw
      rw [pySlice_eq_nil hnil]
      exact Nat.zero_le _
    · intro q hq
      rw [hnil] at hq
      cases hq

/-- Sections inside the file are loaded where they were linked. -/
theorem Converted.loadsAs (c : Converted k d out) (ht : k.text.InFile d) (hw : ¬k.text.Wraps d)
    (hd : k.data.InFile d) : LoadsAs k d out := by
  obtain ⟨hraw, hown⟩ := c.text_raw ht hw
  obtain ⟨hta, hte⟩ := c.a_text_eq
  obtain ⟨hda, hde⟩ := c.a_data_eq
  obtain ⟨hlen, hdown, hbytes⟩ := Section.raw_inFile hd hda
  refine ⟨?_, ?_, ?_, hown, hdown⟩
  · rw [c.out_eq, List.length_append, List.length_append, c.length_pad_hdr, length_pad hraw, hlen,
      ← c.out_eq, hte, hde]
  · intro i hi
    obtain ⟨htlen, _, htbytes⟩ := Section.raw_inFile ht (by omega)
    obtain ⟨hptr, hb⟩ := htbytes i hi
    have hlt : k.text.scnptr.toNat + i < d.length := by
      have := ht (by omega)
      omega
    have hfit := c.fits
    refine ⟨k.text.scnptr.toNat + i, by omega, d[k.text.scnptr.toNat + i],
      List.getElem?_eq_getElem hlt, ?_⟩
    rw [c.load_text (by omega), getElem?_pad, if_pos (by omega), hb]
    exact List.getElem?_eq_getElem hlt
  · intro i hi
    obtain ⟨hptr, hb⟩ := hbytes i hi
    have hlt : k.data.scnptr.toNat + i < d.length := by
      have := hd (by omega)
      omega
    refine ⟨k.data.scnptr.toNat + i, by omega, d[k.data.scnptr.toNat + i],
      List.getElem?_eq_getElem hlt, ?_⟩
    rw [c.load_data hraw hi, hb]
    exact List.getElem?_eq_getElem hlt

/-- A text that takes bytes only from its own extent does not wrap. -/
theorem Section.not_wraps_of_own (h : s.Own d) : ¬s.Wraps d := by
  intro hw
  have hs : s.size ≤ 0 := hw.1.le
  refine (Section.positions_eq_nil_iff hs).mp ?_ hw
  refine List.eq_nil_iff_forall_not_mem.mpr fun q hq => ?_
  have hq' := h q hq
  omega

/-- The output of a completed run loads as the sections of the input exactly
when the text and the data, as far as they have bytes, lie inside the file, and
a text of negative size does not make its slice count from the end of it. Past
the header the output is the padded text and the data, each byte of them from
the positions its slice names. -/
theorem output_loads_iff (h : main src d = .ok out) :
    ∃ k, headers src d = .ok k ∧
      out.drop 1024 = pad k.a_text.toNat
          ((positions d k.text.scnptr (k.text.scnptr + k.text.size)).map fun q => d.getD q 0) ++
        (positions d k.data.scnptr (k.data.scnptr + k.data.size)).map (fun q => d.getD q 0) ∧
      (LoadsAs k d out ↔ k.text.InFile d ∧ ¬k.text.Wraps d ∧ k.data.InFile d) := by
  obtain ⟨k, hk, ⟨c⟩⟩ := main_eq_ok h
  refine ⟨k, hk, ?_, ?_⟩
  · rw [← pySlice_eq_map, ← pySlice_eq_map]
    exact c.drop_out
  · constructor
    · intro hl
      exact ⟨Section.inFile_of_loaded hl.text, Section.not_wraps_of_own hl.text_own,
        Section.inFile_of_loaded hl.data⟩
    · rintro ⟨ht, hw, hd⟩
      exact c.loadsAs ht hw hd

/-! ## Two input files -/

/-- A section header: its name, addresses, size and file offset. -/
def scnhdr (name : String) (paddr size scnptr : ℕ) : Bytes :=
  pad 8 ((str name).map UInt8.ofNat) ++ encode 4 paddr ++ encode 4 paddr ++ encode 4 size ++
    encode 4 scnptr ++ List.replicate 24 0

/-- The headers of a file with four bytes of text and two of data, linked at 0
and 8, the raw data straight after the headers. -/
def fileHeaders : Bytes :=
  encode 2 0x0154 ++ encode 2 3 ++ List.replicate 12 0 ++ encode 2 40 ++ encode 2 0 ++
    encode 2 0o413 ++ List.replicate 38 0 ++
    scnhdr ".text" 0 4 204 ++ scnhdr ".data" 8 2 208 ++ scnhdr ".bss" 10 0 0

/-- The whole file. -/
def wholeFile : Bytes := fileHeaders ++ [1, 2, 3, 4, 5, 6]

/-- The file cut off inside its text. -/
def cutFile : Bytes := fileHeaders ++ [1, 2]

/-- The whole file is converted and loads as its sections. -/
theorem output_loads_wholeFile : ∃ out, main (str "kernel") wholeFile = .ok out ∧
    ∃ k, headers (str "kernel") wholeFile = .ok k ∧ LoadsAs k wholeFile out := by
  obtain ⟨out, h⟩ := exists_of_isOk (x := main (str "kernel") wholeFile) (by decide +kernel)
  obtain ⟨k, hk, _, hiff⟩ := output_loads_iff h
  have hv : headers (str "kernel") wholeFile = .ok ⟨0, ⟨0, 4, 204⟩, ⟨8, 2, 208⟩, 0⟩ := by
    decide +kernel
  obtain rfl := Except.ok.inj (hv.symm.trans hk)
  refine ⟨out, h, _, hv, hiff.mpr ⟨fun _ => ?_, ?_, fun _ => ?_⟩⟩
  · decide +kernel
  · exact fun hw => absurd hw.1 (by decide)
  · decide +kernel

/-- The file that is cut off is converted too, and does not load as its text. -/
theorem cutFile_misloads : ∃ out, main (str "kernel") cutFile = .ok out ∧
    ∃ k, headers (str "kernel") cutFile = .ok k ∧ ¬LoadsAs k cutFile out := by
  obtain ⟨out, h⟩ := exists_of_isOk (x := main (str "kernel") cutFile) (by decide +kernel)
  have hv : headers (str "kernel") cutFile = .ok ⟨0, ⟨0, 4, 204⟩, ⟨8, 2, 208⟩, 0⟩ := by
    decide +kernel
  refine ⟨out, h, _, hv, fun hl => ?_⟩
  have hin := Section.inFile_of_loaded hl.text (by decide)
  exact absurd hin.2 (by decide +kernel)

end Sys16.Coff2Genix
