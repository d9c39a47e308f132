import Mathlib.Data.List.Sort
import Mathlib.Data.Prod.Lex
import Mathlib.Order.Lex
import Sys16.PyBytes

/-!
# The symbols of `tools/nm32.py`

The symbol table of an ns32000 COFF file is a sequence of primary entries, each
followed by auxiliary entries that hold anything at all. `symbols` reads exactly
the primary entries, and the lookups of `nm32.py` and `trace.py` name the last
symbol at or below an address.
-/

namespace Sys16.Nm32

open ByteStore LittleEndian PyBytes PyStruct PyText

def SYMESZ : ℕ := 20
def C_EXT : ℤ := 2
def C_STAT : ℤ := 3

/-- `'<HHIIIHH'`: magic nscns timdat symptr nsyms opthdr flags. -/
def FILEHDR : List Format := [fmtH, fmtH, fmtI, fmtI, fmtI, fmtH, fmtH]
/-- `'<II'`: zeroes stroff. -/
def NAMEHDR : List Format := [fmtI, fmtI]
/-- `'<IhHBB'`: value scnum typ sclass numaux. -/
def SYMENT : List Format := [fmtI, fmth, fmtH, fmtB, fmtB]

/-- A tuple of `out`. -/
structure Symbol where
  value : ℤ
  name : Str
  scnum : ℤ
  deriving DecidableEq, Repr

/-- Tuples are compared from left to right. -/
def Symbol.key (s : Symbol) : ℤ ×ₗ Str ×ₗ ℤ := toLex (s.value, toLex (s.name, s.scnum))

/-- The name of an entry, in the string table or in the entry. -/
def symbolName (strtab raw : Bytes) (zeroes stroff : ℤ) : Str :=
  if zeroes = 0 then decodeLatin1 (pySlice strtab stroff (find strtab 0 stroff.toNat))
  else decodeLatin1 (rstripNul (slice raw 0 8))

/-- One pass of the loop in `symbols`: the symbol it appends, if any, and `numaux`. -/
def symbolsPass (d strtab : Bytes) (off : ℕ) : Except Failure (Option Symbol × ℕ) := do
  let raw := slice d off SYMESZ
  let z ← unpackFrom NAMEHDR raw 0
  let name := symbolName strtab raw (z.getD 0 0) (z.getD 1 0)
  let v ← unpackFrom SYMENT raw 8
  let scnum := v.getD 1 0
  let sclass := v.getD 3 0
  let sym : Symbol := ⟨v.getD 0 0, name, scnum⟩
  return (if (sclass = C_EXT ∨ sclass = C_STAT) ∧ 0 < scnum then some sym else none,
    (v.getD 4 0).toNat)

/-- The loop in `symbols` from entry `i` on. Every pass takes an entry, so that
`nsyms` passes are enough. -/
def symbolsLoop (d strtab : Bytes) (symptr nsyms : ℕ) :
    ℕ → ℕ → List Symbol → Except Failure (List Symbol)
  | 0, _, out => .ok out
  | passes + 1, i, out =>
    if i < nsyms then do
      let (sym, numaux) ← symbolsPass d strtab (symptr + i * SYMESZ)
      symbolsLoop d strtab symptr nsyms passes (i + 1 + numaux) (out ++ sym.toList)
    else .ok out

/-- `symbols` on the bytes of the file. -/
def symbols (d : Bytes) : Except Failure (List Symbol) := do
  let h ← unpackFrom FILEHDR d 0
  let symptr := (h.getD 3 0).toNat
  let nsyms := (h.getD 4 0).toNat
  let strtab := d.drop (symptr + nsyms * SYMESZ)
  let out ← symbolsLoop d strtab symptr nsyms nsyms 0 []
  return out.insertionSort fun a b => a.key ≤ b.key

/-! ## The lookups -/

/-- The loop over the symbols that both tools have: `best`. -/
def bestOf (addr : ℤ) : Option (ℤ × Str) → List Symbol → Option (ℤ × Str)
  | best, [] => best
  | best, s :: syms =>
    if s.value ≤ addr then bestOf addr (some (s.value, s.name)) syms else best

/-- A number as a format specification prints it: its base, what goes before
the digits, and the width that zeros fill. -/
def number (base : ℕ) (lead : Str) (width : ℕ) (x : ℤ) : Str :=
  let sign := if x < 0 then str "-" else []
  let digits := (Nat.toDigits base x.natAbs).map Char.toNat
  sign ++ lead ++
    List.replicate (width - (sign.length + lead.length + digits.length)) '0'.toNat ++ digits

/-- `f'{x:#08x}'`. -/
def hex08 (x : ℤ) : Str := number 16 (str "0x") 8 x

/-- The line `nm32.py` prints for an address with a symbol. -/
def foundLine (addr value : ℤ) (name : Str) : Str :=
  hex08 addr ++ str " is " ++ name ++ str "+" ++ number 16 (str "0x") 0 (addr - value) ++
    str " (at " ++ hex08 value ++ str ")"

/-- The line `nm32.py` prints for an address without one. -/
def belowLine (addr : ℤ) : Str := hex08 addr ++ str ": below the first symbol"

/-- The lookup in `main` of `nm32.py`. -/
def answer (syms : List Symbol) (addr : ℤ) : Str :=
  match bestOf addr none syms with
  | some (value, name) => foundLine addr value name
  | none => belowLine addr

/-- `main` of `nm32.py`, by the lines that it prints for the addresses it is given. -/
def main (d : Bytes) (addrs : List ℤ) : Except Failure (List Str) := do
  let syms ← symbols d
  if addrs = [] then
    return syms.map fun s =>
      number 16 [] 8 s.value ++ str " " ++ number 10 [] 0 s.scnum ++ str " " ++ s.name
  else
    return addrs.map (answer syms)

/-- What `trace.py` prints for a symbol and an address. -/
def withinName (addr value : ℤ) (name : Str) : Str :=
  name ++ str "+0x" ++ number 16 [] 0 (addr - value)

/-- `name_of` of `trace.py`. -/
def name_of (syms : List Symbol) (addr : ℤ) : Str :=
  if 0x100000 ≤ addr then str "outside the kernel"
  else match bestOf addr none syms with
  | some (value, name) => withinName addr value name
  | none => str "?"

/-! ## Symbol tables -/

/-- Where the name of a primary entry is. -/
inductive Name where
  /-- In the entry, padded with NULs. -/
  | inline (name : Bytes)
  /-- At an offset in the string table, with a NUL behind it. -/
  | strtab (off : ℕ) (name : Bytes)

/-- The text of a name. -/
def Name.text : Name → Bytes
  | inline name => name
  | strtab _ name => name

/-- The first eight bytes of an entry. -/
def Name.field : Name → Bytes
  | inline name => name ++ List.replicate (8 - name.length) 0
  | strtab off _ => packFields [(fmtI, 0), (fmtI, off)]

/-- A name in an entry has one to eight bytes; no name holds a NUL. -/
def Name.WellFormed : Name → Prop
  | inline name => 0 < name.length ∧ name.length ≤ 8 ∧ 0 ∉ name
  | strtab off name => Fits fmtI off ∧ 0 ∉ name

/-- The string table holds the name. -/
def Name.In (table : Bytes) : Name → Prop
  | inline _ => True
  | strtab off name => slice table off (name.length + 1) = name ++ [0]

/-- A primary entry with the auxiliary entries behind it. -/
structure Primary where
  name : Name
  value : ℤ
  scnum : ℤ
  typ : ℤ
  sclass : ℤ
  /-- `n_env` and the pad byte. -/
  env : Bytes
  /-- The auxiliary entries, of any content. -/
  aux : List Bytes
  name_ok : name.WellFormed
  fits : ∀ p ∈ [(fmtI, value), (fmth, scnum), (fmtH, typ), (fmtB, sclass),
    (fmtB, (aux.length : ℤ))], Fits p.1 p.2
  env_length : env.length = 2
  aux_length : ∀ a ∈ aux, a.length = SYMESZ

/-- The numbers of an entry behind the name. -/
def Primary.numbers (e : Primary) : List (Format × ℤ) :=
  [(fmtI, e.value), (fmth, e.scnum), (fmtH, e.typ), (fmtB, e.sclass), (fmtB, e.aux.length)]

/-- The bytes of the entry itself. -/
def Primary.record (e : Primary) : Bytes := e.name.field ++ packFields e.numbers ++ e.env

/-- The entry and its auxiliary entries. -/
def Primary.entries (e : Primary) : List Bytes := e.record :: e.aux

/-- The symbol an entry stands for. -/
def Primary.symbol (e : Primary) : Symbol := ⟨e.value, decodeLatin1 e.name.text, e.scnum⟩

/-- An external or static symbol of a section. -/
def Primary.Listed (e : Primary) : Prop := (e.sclass = C_EXT ∨ e.sclass = C_STAT) ∧ 0 < e.scnum

instance : DecidablePred Primary.Listed := fun _ => inferInstanceAs (Decidable (_ ∧ _))

/-- The entries of a symbol table. -/
def table (es : List Primary) : List Bytes := es.flatMap Primary.entries

/-- `symptr` of a file. -/
def symptr (d : Bytes) : ℕ := decode (slice d 8 4)
/-- `nsyms` of a file. -/
def nsyms (d : Bytes) : ℕ := decode (slice d 12 4)
/-- The string table of a file. -/
def strings (d : Bytes) : Bytes := d.drop (symptr d + nsyms d * SYMESZ)

/-- A file whose symbol table is a sequence of primary entries, each followed by
its auxiliary entries. -/
structure HasTable (d : Bytes) (es : List Primary) : Prop where
  header : 20 ≤ d.length
  count : nsyms d = (table es).length
  entries : slice d (symptr d) (nsyms d * SYMESZ) = (table es).flatten
  names : ∀ e ∈ es, e.name.In (strings d)

variable {d strtab : Bytes} {e : Primary} {es : List Primary} {off i passes : ℕ} {addr : ℤ}
  {s : Symbol} {out syms : List Symbol} {best : Option (ℤ × Str)} {n : Name}

/-- A name takes eight bytes. -/
theorem Name.length_field (h : n.WellFormed) : n.field.length = 8 := by
  cases n with
  | inline name =>
    have hle : name.length ≤ 8 := h.2.1
    rw [Name.field, List.length_append, List.length_replicate]
    omega
  | strtab off name => rw [Name.field, length_packFields]; rfl

/-- A primary entry takes `SYMESZ` bytes. -/
theorem Primary.length_record (e : Primary) : e.record.length = SYMESZ := by
  rw [Primary.record, List.length_append, List.length_append, Name.length_field e.name_ok,
    length_packFields, e.env_length]
  rfl

/-- Each of a symbol's entries takes `SYMESZ` bytes. -/
theorem Primary.length_of_mem_entries (e : Primary) : ∀ a ∈ e.entries, a.length = SYMESZ := by
  intro a ha
  rcases List.mem_cons.mp ha with rfl | ha
  · exact e.length_record
  · exact e.aux_length a ha

/-- An entry that begins with a byte other than NUL has its name in it. -/
theorem zeroes_ne_zero {b : UInt8} {rest : Bytes} (hb : b ≠ 0) (hlen : 4 ≤ (b :: rest).length) :
    (values NAMEHDR (b :: rest) 0).getD 0 0 ≠ 0 := by
  have hread : fmtI.unpack (b :: rest) 0 = .ok (decode (slice (b :: rest) 0 4) : ℤ) :=
    Format.unpack_nat rfl hlen
  have hvalue : fmtI.value (slice (b :: rest) 0 4) = (decode (slice (b :: rest) 0 4) : ℤ) := by
    have hfits : 0 + fmtI.width ≤ (b :: rest).length := hlen
    unfold Format.unpack at hread
    rw [if_pos hfits] at hread
    exact Except.ok.inj hread
  have hpos : 0 < b.toNat := by
    rcases Nat.eq_zero_or_pos b.toNat with h | h
    · exact absurd (UInt8.toNat_inj.mp h) hb
    · exact h
  change fmtI.value (slice (b :: rest) 0 4) ≠ 0
  rw [hvalue, slice, List.drop_zero, List.take_succ_cons, decode_cons]
  omega

/-- Every entry of the table takes `SYMESZ` bytes. -/
theorem length_of_mem_table (es : List Primary) : ∀ a ∈ table es, a.length = SYMESZ := by
  intro a ha
  obtain ⟨e, _, ha⟩ := List.mem_flatMap.mp ha
  exact e.length_of_mem_entries a ha

/-- The text of a name is read back, in the entry and in the string table. -/
theorem symbolName_field (hn : n.WellFormed) (hin : n.In strtab) (post : Bytes) :
    symbolName strtab (n.field ++ post) ((values NAMEHDR (n.field ++ post) 0).getD 0 0)
      ((values NAMEHDR (n.field ++ post) 0).getD 1 0) = decodeLatin1 n.text := by
  have hfield := Name.length_field hn
  cases n with
  | inline name =>
    obtain ⟨hpos, _, hnul⟩ := hn
    have hne : (values NAMEHDR (Name.field (.inline name) ++ post) 0).getD 0 0 ≠ 0 := by
      cases name with
      | nil => exact absurd hpos (Nat.lt_irrefl 0)
      | cons b rest =>
        have hb : b ≠ 0 := fun he => hnul (he ▸ List.mem_cons_self)
        refine zeroes_ne_zero hb ?_
        have hlen : (Name.field (.inline (b :: rest)) ++ post).length = 8 + post.length := by
          rw [List.length_append, hfield]
        change 4 ≤ (Name.field (.inline (b :: rest)) ++ post).length
        omega
    unfold symbolName
    rw [if_neg hne, slice_head hfield, Name.field, rstripNul_pad hnul, Name.text]
  | strtab off name =>
    obtain ⟨hoff, hnul⟩ := hn
    have hfits : ∀ p ∈ [(fmtI, (0 : ℤ)), (fmtI, (off : ℤ))], Fits p.1 p.2 := by
      intro p hp
      rcases List.mem_cons.mp hp with rfl | hp
      · exact ⟨by decide, by decide⟩
      · rw [List.mem_singleton.mp hp]
        exact hoff
    have hvalues : values NAMEHDR (Name.field (.strtab off name) ++ post) 0 = [0, (off : ℤ)] :=
      values_packFields hfits [] post
    have hname : slice strtab off name.length = name := by
      have hhead := slice_slice strtab off (name.length + 1) 0 name.length (by omega)
      rw [Nat.add_zero, show slice strtab off (name.length + 1) = name ++ [0] from hin,
        slice_head rfl] at hhead
      exact hhead.symm
    rw [hvalues, List.getD_cons_succ, List.getD_cons_zero, List.getD_cons_zero]
    unfold symbolName
    rw [if_pos rfl, Int.toNat_natCast, find_of_slice hnul hin, pySlice_natCast, hname, Name.text]

/-- One pass of the loop at a primary entry. -/
theorem symbolsPass_record (hslice : slice d off SYMESZ = e.record) (hin : e.name.In strtab) :
    symbolsPass d strtab off =
      .ok (if e.Listed then some e.symbol else none, e.aux.length) := by
  have hlen : (slice d off SYMESZ).length = 20 := by
    rw [hslice, e.length_record]
    rfl
  have hnumbers : values SYMENT (slice d off SYMESZ) 8 =
      [e.value, e.scnum, e.typ, e.sclass, (e.aux.length : ℤ)] := by
    have hread := values_packFields e.fits e.name.field e.env
    rw [Name.length_field e.name_ok] at hread
    rw [hslice]
    exact hread
  have hname := symbolName_field e.name_ok hin (packFields e.numbers ++ e.env)
  rw [← List.append_assoc, ← Primary.record, ← hslice] at hname
  have hz : unpackFrom NAMEHDR (slice d off SYMESZ) 0 =
      .ok (values NAMEHDR (slice d off SYMESZ) 0) := if_pos (by rw [hlen]; decide)
  have hv : unpackFrom SYMENT (slice d off SYMESZ) 8 =
      .ok (values SYMENT (slice d off SYMESZ) 8) := if_pos (by rw [hlen]; decide)
  unfold symbolsPass
  dsimp only
  rw [hz]
  refine bind_eq_ok.mpr ⟨_, rfl, ?_⟩
  rw [hv]
  refine bind_eq_ok.mpr ⟨_, rfl, ?_⟩
  rw [hname, hnumbers]
  rfl

/-- The table counts the primary entry and its auxiliary ones. -/
theorem length_table_cons (e : Primary) (es : List Primary) :
    (table (e :: es)).length = e.aux.length + 1 + (table es).length := by
  rw [table, List.flatMap_cons, List.length_append, Primary.entries, List.length_cons, ← table]

/-- A table is its first entry, what comes with it, and the table behind. -/
theorem slice_table_cons {pos : ℕ} (h : slice d pos ((table (e :: es)).length * SYMESZ) =
    (table (e :: es)).flatten) :
    slice d pos SYMESZ = e.record ∧
      slice d (pos + (1 + e.aux.length) * SYMESZ) ((table es).length * SYMESZ) =
        (table es).flatten := by
  have hcount := length_table_cons e es
  have hflat : (table (e :: es)).flatten = e.record ++ (e.aux.flatten ++ (table es).flatten) := by
    rw [table, List.flatMap_cons, List.flatten_append, Primary.entries, List.flatten_cons,
      List.append_assoc, ← table]
  have haux : (e.record ++ e.aux.flatten).length = (1 + e.aux.length) * SYMESZ := by
    have hall := length_flatten_of_forall e.length_of_mem_entries
    rw [Primary.entries, List.flatten_cons, List.length_cons] at hall
    rw [hall, Nat.add_comm]
  have hrest : (table es).flatten.length = (table es).length * SYMESZ :=
    length_flatten_of_forall (length_of_mem_table es)
  constructor
  · have hhead := slice_slice d pos ((table (e :: es)).length * SYMESZ) 0 SYMESZ
      (by unfold SYMESZ; omega)
    rw [h, hflat, slice_head e.length_record, Nat.add_zero] at hhead
    exact hhead.symm
  · have htail := slice_slice d pos ((table (e :: es)).length * SYMESZ)
      ((1 + e.aux.length) * SYMESZ + 0) ((table es).length * SYMESZ) (by unfold SYMESZ; omega)
    rw [h, hflat, ← List.append_assoc, slice_tail haux, slice_all hrest, Nat.add_zero] at htail
    exact htail.symm

/-- The loop from a primary entry on reads the rest of the table. -/
theorem symbolsLoop_table {symptr nsyms : ℕ}
    (hslice : slice d (symptr + i * SYMESZ) ((table es).length * SYMESZ) = (table es).flatten)
    (hend : i + (table es).length = nsyms) (hpasses : nsyms ≤ i + passes)
    (hin : ∀ e ∈ es, e.name.In strtab) :
    symbolsLoop d strtab symptr nsyms passes i out =
      .ok (out ++ (es.filter fun e => e.Listed).map Primary.symbol) := by
  induction es generalizing i passes out with
  | nil =>
    have hi : i = nsyms := hend
    rw [List.filter_nil, List.map_nil, List.append_nil]
    cases passes with
    | zero => rfl
    | succ passes => rw [symbolsLoop, if_neg (by omega)]
  | cons e es ih =>
    obtain ⟨hrecord, hrest⟩ := slice_table_cons hslice
    have hpos : symptr + i * SYMESZ + (1 + e.aux.length) * SYMESZ =
        symptr + (i + 1 + e.aux.length) * SYMESZ := by ring
    have hcount := length_table_cons e es
    rw [hpos] at hrest
    cases passes with
    | zero => omega
    | succ passes =>
      rw [symbolsLoop, if_pos (by omega),
        symbolsPass_record hrecord (hin e List.mem_cons_self)]
      change symbolsLoop d strtab symptr nsyms passes (i + 1 + e.aux.length) _ = _
      rw [ih hrest (by omega) (by omega) fun x hx => hin x (List.mem_cons_of_mem e hx),
        List.filter_cons]
      by_cases he : e.Listed
      · rw [if_pos he, if_pos (decide_eq_true he), List.map_cons, List.append_assoc]
        rfl
      · rw [if_neg he, if_neg (by simpa using he), Option.toList_none, List.append_nil]

/-- The file header says where the table is. -/
theorem header_fields (h : 20 ≤ d.length) : unpackFrom FILEHDR d 0 = .ok (values FILEHDR d 0) ∧
    ((values FILEHDR d 0).getD 3 0).toNat = symptr d ∧
    ((values FILEHDR d 0).getD 4 0).toNat = nsyms d := by
  have hread (off : ℕ) (hoff : off + 4 ≤ d.length) :
      (fmtI.value (slice d off 4)).toNat = decode (slice d off 4) := by
    have hu : fmtI.unpack d off = .ok (decode (slice d off 4) : ℤ) := Format.unpack_nat rfl hoff
    have hfits : off + fmtI.width ≤ d.length := hoff
    unfold Format.unpack at hu
    rw [if_pos hfits] at hu
    have hvalue : fmtI.value (slice d off 4) = (decode (slice d off 4) : ℤ) := Except.ok.inj hu
    rw [hvalue, Int.toNat_natCast]
  exact ⟨if_pos h, hread 8 (by omega), hread 12 (by omega)⟩

/-- `symbols` reads the primary entries of the table and nothing else. -/
theorem symbols_table (h : HasTable d es) : symbols d =
    .ok (((es.filter fun e => e.Listed).map Primary.symbol).insertionSort
      fun a b => a.key ≤ b.key) := by
  obtain ⟨hheader, hptr, hcount⟩ := header_fields h.header
  unfold symbols
  rw [hheader]
  refine bind_eq_ok.mpr ⟨_, rfl, ?_⟩
  dsimp only
  rw [hptr, hcount]
  have hstart : slice d (symptr d + 0 * SYMESZ) ((table es).length * SYMESZ) =
      (table es).flatten := by
    rw [Nat.zero_mul, Nat.add_zero, ← h.count]
    exact h.entries
  have hend : 0 + (table es).length = nsyms d := by
    rw [Nat.zero_add]
    exact h.count.symm
  have hloop : symbolsLoop d (strings d) (symptr d) (nsyms d) (nsyms d) 0 [] =
      .ok ([] ++ (es.filter fun e => e.Listed).map Primary.symbol) :=
    symbolsLoop_table hstart hend (by omega) h.names
  refine bind_eq_ok.mpr ⟨_, hloop, ?_⟩
  rfl

/-! ## The nearest symbol -/

/-- A symbol with the greatest value at or below an address. -/
structure Nearest (syms : List Symbol) (addr : ℤ) (s : Symbol) : Prop where
  mem : s ∈ syms
  le : s.value ≤ addr
  greatest : ∀ t ∈ syms, t.value ≤ addr → t.value ≤ s.value

/-- The loop over symbols in order of value ends with a nearest one, or with
what it began with when there is none. -/
theorem bestOf_nearest (hs : syms.Pairwise fun a b => a.value ≤ b.value) (addr : ℤ)
    (best : Option (ℤ × Str)) :
    (bestOf addr best syms = best ∧ ∀ s ∈ syms, addr < s.value) ∨
      ∃ s, Nearest syms addr s ∧ bestOf addr best syms = some (s.value, s.name) := by
  induction syms generalizing best with
  | nil => exact Or.inl ⟨rfl, fun s hmem => by cases hmem⟩
  | cons s syms ih =>
    obtain ⟨hfirst, hrest⟩ := List.pairwise_cons.mp hs
    rw [bestOf]
    split
    · next hle =>
      right
      obtain ⟨hbest, hall⟩ | ⟨t, hnear, hbest⟩ := ih hrest (some (s.value, s.name))
      · refine ⟨s, ⟨List.mem_cons_self, hle, ?_⟩, hbest⟩
        intro t ht htle
        rcases List.mem_cons.mp ht with rfl | ht
        · exact le_refl _
        · exact absurd htle (not_le.mpr (hall t ht))
      · refine ⟨t, ⟨List.mem_cons_of_mem s hnear.mem, hnear.le, ?_⟩, hbest⟩
        intro u hu hule
        rcases List.mem_cons.mp hu with rfl | hu
        · exact hfirst t hnear.mem
        · exact hnear.greatest u hu hule
    · next hgt =>
      left
      refine ⟨rfl, fun t ht => ?_⟩
      rcases List.mem_cons.mp ht with rfl | ht
      · exact not_le.mp hgt
      · exact (not_le.mp hgt).trans_le (hfirst t ht)

/-- Both tools answer with one and the same symbol for an address: a nearest
one, or none where every symbol is above the address. -/
def Answered (syms : List Symbol) (addr : ℤ) : Prop :=
  ((∀ s ∈ syms, addr < s.value) ∧ answer syms addr = belowLine addr ∧
      (addr < 0x100000 → name_of syms addr = str "?")) ∨
    ∃ s, Nearest syms addr s ∧ answer syms addr = foundLine addr s.value s.name ∧
      (addr < 0x100000 → name_of syms addr = withinName addr s.value s.name)

/-- Symbols in order of value answer every address. -/
theorem answered_of_sorted (hs : syms.Pairwise fun a b => a.value ≤ b.value) (addr : ℤ) :
    Answered syms addr := by
  unfold Answered answer name_of
  obtain ⟨hbest, hall⟩ | ⟨s, hnear, hbest⟩ := bestOf_nearest hs addr none
  · rw [hbest]
    exact Or.inl ⟨hall, rfl, fun hlt => if_neg (not_le.mpr hlt)⟩
  · rw [hbest]
    exact Or.inr ⟨s, hnear, rfl, fun hlt => if_neg (not_le.mpr hlt)⟩

/-- An earlier key has no greater value. -/
theorem value_le_of_key {a b : Symbol} (h : a.key ≤ b.key) : a.value ≤ b.value := by
  rcases Prod.Lex.toLex_le_toLex.mp h with hlt | ⟨heq, _⟩
  · exact le_of_lt hlt
  · exact le_of_eq heq

/-- What both tools make of a file with a symbol table: the sorted list of its
external and static symbols with a section, and for every address a symbol of
it with the greatest value at or below the address. -/
theorem symbol_lookup (h : HasTable d es) : ∃ syms, symbols d = .ok syms ∧
    syms.Perm ((es.filter fun e => e.Listed).map Primary.symbol) ∧
    (syms.Pairwise fun a b => a.key ≤ b.key) ∧
    (∀ addrs, addrs ≠ [] → main d addrs = .ok (addrs.map (answer syms))) ∧
    ∀ addr, Answered syms addr := by
  have hrun := symbols_table h
  have hsorted := List.pairwise_insertionSort (fun a b : Symbol => a.key ≤ b.key)
    ((es.filter fun e => e.Listed).map Primary.symbol)
  refine ⟨_, hrun, List.perm_insertionSort _ _, hsorted, ?_, ?_⟩
  · intro addrs hne
    unfold main
    rw [hrun]
    exact if_neg hne
  · exact answered_of_sorted (hsorted.imp value_le_of_key)

/-! ## A file -/

/-- A symbol with an auxiliary entry that looks like a symbol itself. -/
def mainEntry : Primary where
  name := .inline ((str "main").map UInt8.ofNat)
  value := 16
  scnum := 1
  typ := 0
  sclass := 2
  env := [0, 0]
  aux := [List.replicate 20 2]
  name_ok := ⟨by decide, by decide, by decide⟩
  fits := by decide
  env_length := rfl
  aux_length := by decide

/-- A static symbol with its name in the string table. -/
def bufferEntry : Primary where
  name := .strtab 4 ((str "free_buffers").map UInt8.ofNat)
  value := 32
  scnum := 2
  typ := 0
  sclass := 3
  env := [0, 0]
  aux := []
  name_ok := ⟨by decide, by decide⟩
  fits := by decide
  env_length := rfl
  aux_length := by decide

/-- A file header, a symbol table of both and a string table. -/
def sampleFile : Bytes :=
  packFields (FILEHDR.zip [0x154, 0, 0, 20, 3, 0, 0]) ++ (table [mainEntry, bufferEntry]).flatten ++
    [17, 0, 0, 0] ++ (str "free_buffers").map UInt8.ofNat ++ [0]

/-- The sample file has the table of its two symbols. -/
theorem sampleFile_table : HasTable sampleFile [mainEntry, bufferEntry] where
  header := by decide +kernel
  count := by decide +kernel
  entries := by decide +kernel
  names := by
    intro e he
    rcases List.mem_cons.mp he with rfl | he
    · trivial
    · rw [List.mem_singleton.mp he]
      have hin : slice (strings sampleFile) 4 13 = (str "free_buffers").map UInt8.ofNat ++ [0] := by
        decide +kernel
      exact hin

/-- Its two symbols are found, and the auxiliary entry is not taken for one. -/
theorem symbol_lookup_sample : ∃ syms, symbols sampleFile = .ok syms ∧
    syms.Perm [⟨16, str "main", 1⟩, ⟨32, str "free_buffers", 2⟩] ∧
    ∀ addr, Answered syms addr := by
  obtain ⟨syms, hrun, hperm, _, _, hall⟩ := symbol_lookup sampleFile_table
  have hlist : (([mainEntry, bufferEntry].filter fun e => e.Listed).map Primary.symbol) =
      [⟨16, str "main", 1⟩, ⟨32, str "free_buffers", 2⟩] := by decide +kernel
  rw [hlist] at hperm
  exact ⟨syms, hrun, hperm, hall⟩

end Sys16.Nm32
