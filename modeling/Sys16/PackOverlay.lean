import Sys16.PackLayout
import Sys16.TreeCapacity

/-!
# A filesystem on a pack

The image of `mkfs.py --disktab` written over the start of a pack of
`mkdisk.py`. The filesystem is at its place and the swap partition is left
alone, but block 0 comes with the header of the default drive type, whatever
type the pack was made for.
-/

namespace Sys16.PackOverlay

open ByteStore PyText PyStruct HostWalk MkfsImage MkfsBuild MkfsActs MkfsWalk MkfsInodes
open MkfsPacking MkfsRoundTrip HostFiles TreeRoundTrip TreeCapacity Mkdisk DcuMachine PackLayout

variable {s : Shape} {name : Str} {header fs : Bytes} {b : Build} {limit : ℕ} {now nblocks : ℤ}
  {tree : Option HostTree} {spec : List Str}

/-! ## The image -/

/-- An image of `--disktab` starts with the header of the default drive type. -/
theorem putDisktab_header {b' : Build} (h : putDisktab b true = .ok b') :
    disktab DEFAULT = .ok (slice b'.fs.data 0 92) := by
  obtain ⟨header, hheader, h⟩ := bind_eq_ok.mp h
  obtain rfl := Except.ok.inj h
  rw [hheader, slice_head (length_disktab hheader)]

/-- An image of `--disktab` has the blocks it was asked for, behind the header
of the default drive type. -/
theorem main_image (h : main limit now nblocks tree spec true = .ok b) :
    b.fs.data.length = nblocks.toNat * BSIZE ∧ 2 * BSIZE ≤ b.fs.data.length ∧
      disktab DEFAULT = .ok (slice b.fs.data 0 92) := by
  unfold main at h
  split at h
  · cases h
  obtain ⟨b₀, hbuild, hput⟩ := bind_eq_ok.mp h
  obtain ⟨b₂, fs₁, ws, hw⟩ := build_written (allNames_true spec) hbuild
  have htwo := Written.two_blocks hw
  have hlong : 92 ≤ b₀.fs.data.length := (by decide : 92 ≤ 2 * BSIZE).trans htwo
  obtain ⟨-, hlen, -⟩ := putDisktab_eq hput hlong
  refine ⟨?_, hlen ▸ htwo, putDisktab_header hput⟩
  rw [hlen, hw.image.length, hw.ledger.fresh.size, hw.shape.1]
  rfl

/-! ## The overlay -/

/-- Writing a filesystem on the pack of a drive type keeps the pack. -/
structure KeepsPack (s : Shape) (header fs : Bytes) : Prop where
  /-- Sector 0 carries the disktab of the type. -/
  sector0 : slice (overlay (pack s header) fs) 0 92 = header
  /-- The controller finds the shape that the pack named. -/
  geometry : headerGeometry (sectorAt (overlay (pack s header) fs) 0) =
    headerGeometry (sectorAt (pack s header) 0)
  /-- The superblock and everything after it are the filesystem's. -/
  filesystem : slice (overlay (pack s header) fs) SUPERBOFF (fs.length - SUPERBOFF) =
    fs.drop SUPERBOFF
  length : (overlay (pack s header) fs).length = (pack s header).length
  /-- Nothing changes from the first cylinder of the swap partition on. -/
  beyond : ∀ k : ℕ, root_cyls s * (layout s).spcyl * 512 ≤ (k : ℤ) →
    (overlay (pack s header) fs)[k]? = (pack s header)[k]?

theorem getElem?_overlay {img : Bytes} (h : fs.length ≤ img.length) (k : ℕ) :
    (overlay img fs)[k]? = if k < fs.length then fs[k]? else img[k]? := by
  unfold overlay
  rw [getElem?_setSlice (by omega)]
  simp only [Nat.zero_le, true_and, Nat.zero_add, Nat.sub_zero]

/-- The filesystem of the root partition ends before the swap partition. -/
theorem root_blocks_fit (hpos : 0 ≤ root_blocks s) :
    ((root_blocks s).toNat * BSIZE : ℤ) ≤ root_cyls s * (layout s).spcyl * 512 := by
  have hdef : root_blocks s = root_cyls s * (layout s).spcyl / 2 := rfl
  have hB : (BSIZE : ℤ) = 1024 := rfl
  rw [hB, Int.toNat_of_nonneg hpos]
  omega

/-- The root partition is on the pack. -/
theorem root_fits (s : Shape) : root_cyls s * (layout s).spcyl ≤ (layout s).spunit := by
  have hle : root_cyls s ≤ s.ncyl := by
    unfold root_cyls
    omega
  have hspunit : ((layout s).spunit : ℤ) = s.ncyl * (layout s).spcyl := by
    rw [← Nat.cast_mul]
    exact congrArg _ (Nat.mul_comm _ _)
  rw [hspunit]
  exact Int.mul_le_mul_of_nonneg_right hle (Int.natCast_nonneg _)

/-- A filesystem image as `mkfs.py` makes it for a root partition, against the pack. -/
structure Fitting (s : Shape) (header fs : Bytes) : Prop where
  header : header.length = 92
  long : SUPERBOFF ≤ fs.length
  short : (fs.length : ℤ) ≤ root_cyls s * (layout s).spcyl * 512

theorem Fitting.le_pack (h : Fitting s header fs) : fs.length ≤ (pack s header).length := by
  have hroot := root_fits s
  have hshort := h.short
  rw [length_pack h.header]
  omega

/-- The start of an overlaid pack is the start of the filesystem image. -/
theorem Fitting.slice_start (h : Fitting s header fs) :
    slice (overlay (pack s header) fs) 0 92 = slice fs 0 92 := by
  have hlong := h.long
  have hS : SUPERBOFF = 512 := rfl
  refine slice_congr fun i _ hi => ?_
  rw [getElem?_overlay h.le_pack, if_pos (by omega)]

/-- Everything but the header is kept whatever the type. -/
theorem Fitting.keepsPack (h : Fitting s header fs) (hsame : slice fs 0 92 = header) :
    KeepsPack s header fs := by
  have hle := h.le_pack
  have hlong := h.long
  have hS : SUPERBOFF = 512 := rfl
  have hsector0 : slice (overlay (pack s header) fs) 0 92 = header :=
    h.slice_start.trans hsame
  have hlen : (overlay (pack s header) fs).length = (pack s header).length :=
    length_setSlice (by omega)
  have h92 : 92 ≤ (pack s header).length := by omega
  refine ⟨hsector0, ?_, ?_, hlen, fun k hk => ?_⟩
  · have hprefix : ∀ n w, n + w ≤ 92 →
        slice (overlay (pack s header) fs) n w = slice (pack s header) n w := by
      intro n w hw
      have hin := slice_slice (overlay (pack s header) fs) 0 92 n w hw
      rw [hsector0, Nat.zero_add] at hin
      rw [← hin, slice_pack h.header hw]
    rw [headerGeometry_sectorAt (by omega), headerGeometry_sectorAt (by omega),
      hprefix 0 4 (by omega), hprefix 8 2 (by omega), hprefix 10 2 (by omega)]
  · refine List.ext_getElem? fun i => ?_
    rw [getElem?_slice, List.getElem?_drop, getElem?_overlay hle]
    by_cases hi : i < fs.length - SUPERBOFF
    · rw [if_pos hi, if_pos (by omega)]
    · rw [if_neg hi, List.getElem?_eq_none (by omega)]
  · have hshort := h.short
    rw [getElem?_overlay hle, if_neg (by omega)]

/-- What `mkfs.py` makes for the root partition of a drive type fits its pack. -/
theorem main_fitting (h : disktabOf s name = .ok header)
    (hmkfs : main limit now (root_blocks s) tree spec true = .ok b) :
    Fitting s header b.fs.data := by
  obtain ⟨hlen, htwo, -⟩ := main_image hmkfs
  have hpos : 0 ≤ root_blocks s := by
    by_contra hneg
    unfold main at hmkfs
    rw [if_pos (by omega)] at hmkfs
    cases hmkfs
  refine ⟨length_disktabOf h, (by decide : SUPERBOFF ≤ 2 * BSIZE).trans htwo, ?_⟩
  rw [hlen]
  exact_mod_cast root_blocks_fit hpos

/-- A pack whose header survives is of the default type. -/
theorem default_of_sector0 (h : disktabOf s name = .ok header)
    (hmkfs : main limit now (root_blocks s) tree spec true = .ok b)
    (hsector0 : slice (overlay (pack s header) b.fs.data) 0 92 = header) :
    s = DRIVES DEFAULT ∧ headerName name = headerName DEFAULT.name := by
  have hheader : header = slice b.fs.data 0 92 :=
    hsector0.symm.trans (main_fitting h hmkfs).slice_start
  exact disktabOf_injective h (hheader ▸ (main_image hmkfs).2.2)

/-- Putting a filesystem on a pack keeps the pack if and only if the pack is of
the default drive type. -/
theorem keepsPack_iff (h : disktabOf s name = .ok header)
    (hmkfs : main limit now (root_blocks s) tree spec true = .ok b) :
    KeepsPack s header b.fs.data ↔
      s = DRIVES DEFAULT ∧ headerName name = headerName DEFAULT.name := by
  constructor
  · intro hkeeps
    exact default_of_sector0 h hmkfs hkeeps.sector0
  · rintro ⟨rfl, hname⟩
    exact (main_fitting h hmkfs).keepsPack
      (disktabOf_congr (main_image hmkfs).2.2 h hname.symm)

/-- The root partition of the default type has room for a small tree. -/
theorem smallTree_fits : Fits 9 0 (root_blocks (DRIVES DEFAULT)).toNat smallTree where
  depth := by decide
  names := by
    unfold NameFits
    decide
  sizes here content x h := by
    have hnodes : nodes smallTree.walk = [([], .dir), ([str "bin"], .dir),
        ([str "bin", str "sh"], .file [1, 2] true)] := by decide
    rw [hnodes] at h
    obtain ⟨_, hfile⟩ : here = [str "bin", str "sh"] ∧ Node.file content x = .file [1, 2] true := by
      simpa using h
    obtain ⟨rfl, _⟩ := Node.file.inj hfile
    decide
  links := by decide
  inodes := by decide
  blocks := by decide
  listed := by decide
  counted := by decide
  time := by decide

/-- A pack of the default type, with a filesystem of its own size. -/
theorem keepsPack_iff_default :
    ∃ header b, disktabOf (DRIVES DEFAULT) DEFAULT.name = .ok header ∧
      main 9 0 (root_blocks (DRIVES DEFAULT)) (some smallTree) [] true = .ok b ∧
      KeepsPack (DRIVES DEFAULT) header b.fs.data := by
  obtain ⟨header, h⟩ := exists_of_isOk (x := disktabOf (DRIVES DEFAULT) DEFAULT.name)
    (by decide +kernel)
  obtain ⟨b, hb⟩ := main_of_fits smallTree_fits true
  have hn : ((root_blocks (DRIVES DEFAULT)).toNat : ℤ) = root_blocks (DRIVES DEFAULT) := by decide
  rw [hn] at hb
  exact ⟨header, b, h, hb, (keepsPack_iff h hb).mpr ⟨rfl, rfl⟩⟩

/-- A drive type of two root cylinders with the tracks of the BASF one. -/
def smallPack : Shape := ⟨24, 3, 73, 11, 17⟩

/-- The small pack named 24 sectors and 3 tracks; with its filesystem on it, it
names the 22 and 5 of the default type. -/
theorem small_pack_relabelled :
    ∃ header b, disktabOf smallPack (str "small") = .ok header ∧
      main 9 0 (root_blocks smallPack) none [] true = .ok b ∧
      ¬ KeepsPack smallPack header b.fs.data ∧
      headerGeometry (sectorAt (pack smallPack header) 0) = some (24, 3) ∧
      headerGeometry (sectorAt (overlay (pack smallPack header) b.fs.data) 0) = some (22, 5) := by
  obtain ⟨header, h⟩ := exists_of_isOk (x := disktabOf smallPack (str "small")) (by decide +kernel)
  obtain ⟨b, hb⟩ := exists_of_isOk (x := main 9 0 (root_blocks smallPack) none [] true)
    (by decide +kernel)
  have hfit := main_fitting h hb
  have hle := hfit.le_pack
  have hlong : 512 ≤ b.fs.data.length := hfit.long
  have hlen : (overlay (pack smallPack header) b.fs.data).length = (pack smallPack header).length :=
    length_setSlice (by omega)
  refine ⟨header, b, h, hb, fun hkeeps => ?_, headerGeometry_pack h (by decide) (by decide), ?_⟩
  · have hshape := (default_of_sector0 h hb hkeeps.sector0).1
    exact absurd hshape (by decide)
  · exact headerGeometry_of_disktab (main_image hb).2.2 (by decide) (by decide) (by omega)
      hfit.slice_start

end Sys16.PackOverlay
