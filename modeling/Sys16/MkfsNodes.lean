import Sys16.MkfsFreeInodes
import Sys16.MkfsNamespace

/-!
# The device nodes of a built image

A `blk` or `chr` line of the spec goes through `int`, shifts and bitwise ors
into an inode, and the reader takes the inode apart again. The node that a line
makes is the one it asks for exactly when its kind is one of the two, its path
holds no zero, and its mode, major and minor fit twelve, sixteen and eight bits.
-/

namespace Sys16.MkfsNodes

open Function ByteStore LittleEndian PyText PyStruct PyDict HostWalk MkfsImage MkfsBlocks
open MkfsBuild MkfsActs MkfsWalk MkfsFinish MkfsInodes MkfsLinks MkfsRead MkfsRoundTrip
open MkfsNamespace MkfsFreeInodes S5Reader

variable {b b' b₀ : Build} {fs fs' : Fs} {d : Bytes} {path name line : Str} {n m limit : ℕ}
  {mode dev : ℤ} {addr : List ℤ} {P : Rule} {tree : Option HostTree} {spec : List Str}

/-! ## The line and the node -/

/-- A spec line for a node, as `build` takes it apart. -/
structure NodeLine where
  kind : Str
  path : Str
  mode : ℤ
  major : ℤ
  minor : ℤ
  deriving DecidableEq, Repr

/-- The fields of a line for a node. -/
def nodeLine (line : Str) : Except Failure NodeLine := do
  let kind ← part (specWords line) 0
  let path ← part (specWords line) 1
  let mode ← part (specWords line) 2 >>= int 8
  let major ← part (specWords line) 3 >>= int 10
  let minor ← part (specWords line) 4 >>= int 10
  return { kind, path, mode, major, minor }

/-- The file type of a kind of node. -/
def kindType (kind : Str) : ℤ := if kind = str "blk" then S_IFBLK else S_IFCHR

/-- The number of the inode that a line for a node allocates, after the lines
before it. -/
def lineNode (limit : ℕ) (now nblocks : ℤ) (tree : Option HostTree) (before : List Str)
    (line : Str) : Except Failure ℕ := do
  let b ← Build.start (Fs.init now nblocks.toNat (inodeCount nblocks.toNat))
  let b ← b.addTree limit tree
  let b ← before.foldlM (Build.applyLine limit) b
  let path ← part (specWords line) 1
  let (b, _) ← b.getdir limit (parentPath path)
  return b.fs.next_ino

/-- `dev >> 8` and `dev & 0xff` of the first address, as `s5extract.py` prints them. -/
def device (i : DiskInode) : ℕ × ℕ :=
  let dev := i.blk.getD 0 0
  (dev >>> 8, dev &&& 0xff)

/-- The image holds an inode at a path: the root, or an entry with the last
name of the path in the directory at the path above it. -/
inductive At (d : Bytes) : Str → ℕ → Prop
  | root : At d [sep] ROOTINO
  | entry {path name : Str} {m n : ℕ} {ents : List (ℕ × Str)} (hname : lastName path = .ok name)
      (habove : At d (parentPath path) m) (hents : readdir d m = .ok ents)
      (hmem : (n, name) ∈ ents) : At d path n

/-- The image has at the path of a line the node that the line asks for. -/
structure AsAsked (d : Bytes) (l : NodeLine) (n : ℕ) : Prop where
  kind : l.kind = str "blk" ∨ l.kind = str "chr"
  path : At d l.path n
  inode : ∃ i, inode d n = .ok i ∧ Int.land i.mode 0o170000 = kindType l.kind ∧
    Int.land i.mode 0o7777 = l.mode ∧ ((device i).1 : ℤ) = l.major ∧ ((device i).2 : ℤ) = l.minor

/-- A line whose fields all fit a node. -/
structure Fitting (l : NodeLine) : Prop where
  kind : l.kind = str "blk" ∨ l.kind = str "chr"
  path : 0 ∉ l.path
  mode : 0 ≤ l.mode ∧ l.mode ≤ 0o7777
  major : 0 ≤ l.major ∧ l.major < 65536
  minor : 0 ≤ l.minor ∧ l.minor < 256

/-! ## The fields of the inode -/

/-- A mode within its twelve bits leaves the type alone. -/
theorem mode_bits {x : ℕ} (hx : x < 2 ^ 12) (kind : Str) :
    Int.land (Int.lor (x : ℤ) (kindType kind)) 0o170000 = kindType kind ∧
      Int.land (Int.lor (x : ℤ) (kindType kind)) 0o7777 = x := by
  have hand : ∀ t : ℕ, t &&& 0o170000 = t → t &&& 0o7777 = 0 →
      (x ||| t) &&& 0o170000 = t ∧ (x ||| t) &&& 0o7777 = x := by
    intro t htype hperm
    have hlow : x &&& 0o7777 = x := Nat.and_two_pow_sub_one_of_lt_two_pow hx
    have hhigh : x &&& 0o170000 = 0 := by
      have hmask : 0o7777 &&& 0o170000 = 0 := by decide
      rw [← hlow, Nat.and_assoc, hmask, Nat.and_zero]
    rw [Nat.and_or_distrib_right, Nat.and_or_distrib_right, htype, hperm, hlow, hhigh,
      Nat.zero_or, Nat.or_zero]
    exact ⟨rfl, rfl⟩
  unfold kindType
  split
  · obtain ⟨h1, h2⟩ := hand 0o060000 (by decide) (by decide)
    exact ⟨congrArg Int.ofNat h1, congrArg Int.ofNat h2⟩
  · obtain ⟨h1, h2⟩ := hand 0o020000 (by decide) (by decide)
    exact ⟨congrArg Int.ofNat h1, congrArg Int.ofNat h2⟩

/-- Twelve bits of a mode are at most 0o7777. -/
theorem perm_range {x : ℤ} (h : 0 ≤ x) :
    0 ≤ Int.land x 0o7777 ∧ Int.land x 0o7777 ≤ 0o7777 := by
  obtain ⟨k, rfl⟩ := Int.eq_ofNat_of_zero_le h
  have hle : k &&& 0o7777 ≤ 0o7777 := Nat.and_le_right
  exact ⟨Int.natCast_nonneg (k &&& 0o7777), Int.ofNat_le.mpr hle⟩

/-- An address reads back below two to the twenty-four. -/
theorem readAddr_lt (a : ℤ) : readAddr a < 2 ^ 24 := by
  unfold readAddr
  rw [or_bytes₃]
  have h0 := (lowByte a).toNat_lt
  have h8 := (lowByte (a >>> 8)).toNat_lt
  have h16 := (lowByte (a >>> 16)).toNat_lt
  omega

/-- The major and minor of a device number that fits its address. -/
theorem device_bits (major minor : ℕ) (hmajor : major < 65536) (hminor : minor < 256) :
    readAddr (Int.lor ((major : ℤ) <<< 8) minor) >>> 8 = major ∧
      readAddr (Int.lor ((major : ℤ) <<< 8) minor) &&& 0xff = minor := by
  have hsum : major <<< 8 ||| minor = major * 256 + minor := by
    rw [← Nat.shiftLeft_add_eq_or_of_lt (show minor < 2 ^ 8 from hminor), Nat.shiftLeft_eq]
  have hdev : Int.lor ((major : ℤ) <<< 8) minor = ((major * 256 + minor : ℕ) : ℤ) :=
    congrArg Int.ofNat hsum
  rw [hdev, readAddr_nat (by omega), Nat.shiftRight_eq_div_pow,
    Nat.and_two_pow_sub_one_eq_mod _ 8]
  omega

/-- The inode of a node has the fields of its line exactly when they fit it. -/
theorem fields_iff {l : NodeLine} {i : DiskInode}
    (hmode : i.mode = Int.lor l.mode (kindType l.kind)) (hpos : 0 ≤ i.mode)
    (hdev : i.blk.getD 0 0 = readAddr (Int.lor (l.major <<< 8) l.minor)) :
    (Int.land i.mode 0o170000 = kindType l.kind ∧ Int.land i.mode 0o7777 = l.mode ∧
      ((device i).1 : ℤ) = l.major ∧ ((device i).2 : ℤ) = l.minor) ↔
    (0 ≤ l.mode ∧ l.mode ≤ 0o7777) ∧ (0 ≤ l.major ∧ l.major < 65536) ∧
      (0 ≤ l.minor ∧ l.minor < 256) := by
  have hdevice : device i = (readAddr (Int.lor (l.major <<< 8) l.minor) >>> 8,
      readAddr (Int.lor (l.major <<< 8) l.minor) &&& 0xff) := by
    unfold device
    rw [hdev]
  rw [hdevice]
  constructor
  · rintro ⟨_, hperm, hmajor, hminor⟩
    have hrange := perm_range hpos
    have hlt := readAddr_lt (Int.lor (l.major <<< 8) l.minor)
    have hlow := Nat.and_le_right (n := readAddr (Int.lor (l.major <<< 8) l.minor)) (m := 0xff)
    rw [Nat.shiftRight_eq_div_pow] at hmajor
    rw [hperm] at hrange
    dsimp only at hmajor hminor
    refine ⟨hrange, ?_, ?_⟩
    · omega
    · omega
  · rintro ⟨⟨hm0, hm1⟩, ⟨ha0, ha1⟩, hi0, hi1⟩
    obtain ⟨x, hx⟩ := Int.eq_ofNat_of_zero_le hm0
    obtain ⟨a, ha⟩ := Int.eq_ofNat_of_zero_le ha0
    obtain ⟨c, hc⟩ := Int.eq_ofNat_of_zero_le hi0
    obtain ⟨h1, h2⟩ := mode_bits (x := x) (by omega) l.kind
    obtain ⟨h3, h4⟩ := device_bits a c (by omega) (by omega)
    rw [hmode, hx, ha, hc]
    exact ⟨h1, h2, congrArg Int.ofNat h3, congrArg Int.ofNat h4⟩

/-! ## The node stays -/

/-- An inode with a mode and addresses. -/
def Kept (fs : Fs) (n : ℕ) (mode : ℤ) (addr : List ℤ) : Prop :=
  ∃ i, fs.inodes n = some i ∧ i.mode = mode ∧ i.addr = addr

theorem Kept.modify {g : Inode → Inode} (h : Kept fs n mode addr)
    (hg : m ≠ n ∨ ∀ i, (g i).mode = i.mode ∧ (g i).addr = i.addr) :
    Kept (fs.modify m g) n mode addr := by
  obtain ⟨i, hi, hmode, haddr⟩ := h
  unfold Kept
  rw [inodes_modify]
  by_cases hm : m = n
  · subst hm
    obtain ⟨hgm, hga⟩ := (hg.resolve_left (fun hne => hne rfl)) i
    exact ⟨g i, by rw [update_self, hi]; rfl, hgm.trans hmode, hga.trans haddr⟩
  · exact ⟨i, by rw [update_of_ne (Ne.symm hm)]; exact hi, hmode, haddr⟩

theorem Kept.allocated (h : Kept fs n mode addr) (hn : n < fs.next_ino) (k : ℤ) :
    Kept (MkfsActs.allocated fs k) n mode addr := by
  obtain ⟨i, hi, hmode, haddr⟩ := h
  refine ⟨i, ?_, hmode, haddr⟩
  rw [inodes_allocated, update_of_ne (by omega)]
  exact hi

theorem Kept.store {content : Bytes} (h : Kept fs n mode addr) (hm : m ≠ n)
    (hs : fs.store_data m content = .ok fs') : Kept fs' n mode addr := by
  have hmod := h.modify (g := storedInode fs.next_block content) (Or.inl hm)
  unfold Kept
  rw [store_data_inodes hs]
  exact hmod

/-- An inode that is not that of a directory, and stays as it is. -/
structure Apart (n : ℕ) (mode : ℤ) (addr : List ℤ) (b : Build) : Prop where
  known : n < b.fs.next_ino
  apart : ∀ path, b.dirs.get? path ≠ some n
  kept : Kept b.fs n mode addr

theorem Act.apart (h : Apart n mode addr b) (ha : Act P b b') : Apart n mode addr b' := by
  have hknown := h.known
  cases ha with
  | @mkdir path parent_path name parent ents hnew hparent hents hroom hrule habove hname =>
    refine ⟨Nat.lt_succ_of_lt hknown, fun p hp => ?_, ?_⟩
    · rcases Dict.get?_set_eq_some.mp hp with ⟨_, heq⟩ | ⟨_, hold⟩
      · omega
      · exact h.apart p hold
    · refine Kept.modify (Kept.modify (h.kept.allocated hknown _) (Or.inl (by omega))) (Or.inr ?_)
      exact fun _ => ⟨rfl, rfl⟩
  | @file here name mode content fs' ents hents hroom hstore hrule =>
    refine ⟨?_, h.apart, (h.kept.allocated hknown mode).store (by omega) hstore⟩
    have hnext := store_data_next_ino hstore
    have hsucc : (allocated b.fs mode).next_ino = b.fs.next_ino + 1 := rfl
    dsimp only
    omega
  | node hents hroom hrule =>
    exact ⟨Nat.lt_succ_of_lt hknown, h.apart,
      Kept.modify (h.kept.allocated hknown _) (Or.inl (by omega))⟩
  | link hents htarget hino hrule =>
    refine ⟨hknown, h.apart, h.kept.modify (Or.inr ?_)⟩
    exact fun _ => ⟨rfl, rfl⟩
  | @chmod path d mode hd =>
    refine ⟨hknown, h.apart, h.kept.modify (Or.inl ?_)⟩
    exact fun hdn => h.apart path (hdn ▸ hd)

/-- Storing the directories leaves it, and so does writing everything out. -/
theorem Apart.finish (h : Apart n mode addr b) (hf : b.finish = .ok b') :
    Kept b'.fs n mode addr := by
  obtain ⟨fs₁, fs₂, fs₃, hfin, _, _⟩ := finish_eq hf
  have hstored : Kept fs₁ n mode addr := by
    refine foldlM_invariant (I := fun f => Kept f n mode addr) (fun p _ f f' hk hone => ?_)
      h.kept hfin.store
    obtain ⟨blob, m, _, hm, hdata⟩ := storeDir_eq hone
    exact hk.store (fun heq => h.apart p.1 (heq ▸ hm)) hdata
  unfold Kept
  rw [hfin.same.inodes]
  exact hstored

/-- The node that a line makes. -/
theorem withNode_kept (fs : Fs) (mode dev : ℤ) :
    Kept (withNode fs mode dev) fs.next_ino mode ((List.replicate NADDR 0).set 0 dev) := by
  refine ⟨{ Inode.new mode 0 0 with addr := (List.replicate NADDR 0).set 0 dev }, ?_, rfl, rfl⟩
  unfold withNode
  rw [inodes_modify, update_self, inodes_allocated, update_self]
  rfl

/-! ## Its path -/

/-- The names that the reader returns hold no zero. -/
theorem readdir_nulFree {ents : List (ℕ × Str)} (h : readdir d m = .ok ents) :
    ∀ e ∈ ents, 0 ∉ e.2 := by
  intro e he hzero
  unfold readdir at h
  obtain ⟨i, _, h⟩ := bind_eq_ok.mp h
  obtain ⟨blob, _, h⟩ := bind_eq_ok.mp h
  obtain ⟨all, hall, h⟩ := bind_eq_ok.mp h
  rw [← Except.ok.inj h] at he
  obtain ⟨k, _, hk⟩ := exists_of_mem_right (mapM_eq_ok.mp hall) (List.mem_filter.mp he).1
  unfold entryAt at hk
  split at hk
  · obtain ⟨num, _, hk⟩ := bind_eq_ok.mp hk
    rw [← Except.ok.inj hk] at hzero
    obtain ⟨c, hc, hval⟩ := List.mem_map.mp hzero
    have hne := List.mem_takeWhile_imp hc
    rw [decide_eq_true_eq] at hne
    exact hne (UInt8.toNat_inj.mp hval)
  · cases hk

/-- A path at which the image holds something has no zero in it. -/
theorem At.nulFree (h : At d path n) : 0 ∉ path := by
  induction h with
  | root => decide
  | @entry path name m n ents hname habove hents hmem ih =>
    obtain ⟨p, hp⟩ := lastName_eq_ok.mp hname
    obtain ⟨hsplit, _⟩ := rsplit_eq_some.mp hp
    have hnul : 0 ∉ name := readdir_nulFree hents (n, name) hmem
    have hparent : 0 ∉ p := by
      unfold parentPath at ih
      rw [hp] at ih
      dsimp only at ih
      split at ih
      · next hnil =>
        rw [hnil]
        exact List.not_mem_nil
      · exact ih
    rw [hsplit, List.mem_append, List.mem_cons]
    rintro (hin | hsep | hin)
    · exact hparent hin
    · exact absurd hsep (by decide)
    · exact hnul hin

/-- The image has the directories of a build, each with its entries. -/
def ReadsDirs (b : Build) (d : Bytes) : Prop :=
  ∀ path ents, b.entries.get? path = some ents →
    ∃ m, b.dirs.get? path = some m ∧ readdir d m = .ok (ents.map cutEntry)

/-- An entry of a directory that the image holds at the path above. -/
theorem ReadsDirs.entry {ents : List Entry} (hr : ReadsDirs b d)
    (hdir : b.dirs.get? (parentPath path) = some m) (hat : At d (parentPath path) m)
    (hname : lastName path = .ok name) (hents : b.entries.get? (parentPath path) = some ents)
    (hmem : (n, name) ∈ ents) (hnul : 0 ∉ path) : At d path n := by
  obtain ⟨m', hm', hread⟩ := hr _ _ hents
  rw [hdir] at hm'
  obtain rfl := Option.some.inj hm'
  obtain ⟨p, hp⟩ := lastName_eq_ok.mp hname
  have hcut : cut name = name := by
    refine cut_of_notMem fun hin => hnul ?_
    rw [(rsplit_eq_some.mp hp).1]
    exact List.mem_append_right _ (List.mem_cons_of_mem _ hin)
  refine .entry hname hat hread (List.mem_map.mpr ⟨(n, name), hmem, ?_⟩)
  unfold cutEntry
  rw [hcut]

/-- Every directory of a build is in the image at its path. -/
theorem ReadsDirs.dirs (hr : ReadsDirs b d) (ht : Tables b) (hh : Held b)
    (hdir : b.dirs.get? path = some m) (hnul : 0 ∉ path) : At d path m := by
  induction hlen : path.length using Nat.strong_induction_on generalizing path m with
  | _ k ih =>
    by_cases hroot : m = ROOTINO
    · subst hroot
      rw [Dict.key_unique ht.inj hdir ht.root]
      exact .root
    · obtain ⟨nm, ents, parent, tail, hname, hents, hparent, hmem, _⟩ := hh.below path m hdir hroot
      have hne : path ≠ [sep] := by
        rintro rfl
        rw [ht.root] at hdir
        exact hroot (Option.some.inj hdir).symm
      have hshort := parentPath_length hname hne
      have habove := ih _ (hlen ▸ hshort) hparent (parentPath_nulFree hnul) rfl
      exact hr.entry hparent habove hname hents (List.mem_of_mem_drop hmem) hnul

/-! ## A line of a build -/

/-- What a line for a node does: the directory above is made, and then the node. -/
theorem applyLine_node (h : b.applyLine limit line = .ok b')
    (hline : strip (uncomment line) ≠ [])
    (hkind : ∀ kind, part (specWords line) 0 = .ok kind → kind ≠ str "dir" ∧ kind ≠ str "link") :
    ∃ l b₁ p ents name, nodeLine line = .ok l ∧ part (specWords line) 1 = .ok l.path ∧
      b.getdir limit (parentPath l.path) = .ok (b₁, p) ∧ lastName l.path = .ok name ∧
      b₁.entries.get? (parentPath l.path) = some ents ∧
      b' = ⟨withNode b₁.fs (Int.lor l.mode (kindType l.kind)) (Int.lor (l.major <<< 8) l.minor),
        b₁.dirs, b₁.entries.set (parentPath l.path) (ents ++ [(b₁.fs.next_ino, name)])⟩ := by
  obtain ⟨kind, path, name, hk, hpath, hname, hcase⟩ := applyLine_eq h hline
  obtain ⟨hdir, hlink⟩ := hkind kind hk
  rw [if_neg hdir] at hcase
  obtain ⟨b₁, p, hget, hentry⟩ := hcase
  unfold Build.specEntry at hentry
  rw [if_neg hlink] at hentry
  obtain ⟨mode, major, minor, ents, hmode, hmajor, hminor, hents, _, hb'⟩ := specNode_fields hentry
  refine ⟨⟨kind, path, mode, major, minor⟩, b₁, p, ents, name, ?_, hpath, hget, hname, hents, hb'⟩
  unfold nodeLine
  rw [hk, hpath]
  change ((part (specWords line) 2 >>= int 8) >>= fun _ => _) = _
  rw [hmode]
  change ((part (specWords line) 3 >>= int 10) >>= fun _ => _) = _
  rw [hmajor]
  change ((part (specWords line) 4 >>= int 10) >>= fun _ => _) = _
  rw [hminor]
  rfl

/-- The node of a line is apart from the directories. -/
theorem node_apart (ht : Tables b) (above name : Str) (ents : List Entry) (mode dev : ℤ) :
    Apart b.fs.next_ino mode ((List.replicate NADDR 0).set 0 dev)
      ⟨withNode b.fs mode dev, b.dirs, b.entries.set above (ents ++ [(b.fs.next_ino, name)])⟩ := by
  refine ⟨Nat.lt_succ_self _, fun p hp => ?_, withNode_kept b.fs mode dev⟩
  exact Nat.lt_irrefl _ (ht.dirs_lt p _ hp)

/-! ## A whole build -/

section Build

variable {before after : List Str} {now nblocks : ℤ} {nb ninodes : ℕ} {disktab : Bool}

/-- A line for a node in a build that completes: the node is an inode of the
result, and at its path in any image that has the directories of the build. -/
theorem build_node {fs₀ : Fs}
    (h : build limit fs₀ tree (before ++ line :: after) = .ok b)
    (hline : strip (uncomment line) ≠ [])
    (hkind : ∀ kind, part (specWords line) 0 = .ok kind → kind ≠ str "dir" ∧ kind ≠ str "link") :
    ∃ c₀ c₁ c₂ c₃ l p, Build.start fs₀ = .ok c₀ ∧ c₀.addTree limit tree = .ok c₁ ∧
      before.foldlM (Build.applyLine limit) c₁ = .ok c₂ ∧ nodeLine line = .ok l ∧
      part (specWords line) 1 = .ok l.path ∧
      c₂.getdir limit (parentPath l.path) = .ok (c₃, p) ∧
      Kept b.fs c₃.fs.next_ino (Int.lor l.mode (kindType l.kind))
        ((List.replicate NADDR 0).set 0 (Int.lor (l.major <<< 8) l.minor)) ∧
      (ReadsDirs b d → 0 ∉ l.path → At d l.path c₃.fs.next_ino) := by
  unfold build at h
  obtain ⟨c₀, hstart, h⟩ := bind_eq_ok.mp h
  obtain ⟨c₁, htree, h⟩ := bind_eq_ok.mp h
  obtain ⟨c₆, hspec, hfinish⟩ := bind_eq_ok.mp h
  rw [List.foldlM_append] at hspec
  obtain ⟨c₂, hbefore, hspec⟩ := bind_eq_ok.mp hspec
  rw [List.foldlM_cons] at hspec
  obtain ⟨c₄, hone, hafter⟩ := bind_eq_ok.mp hspec
  obtain ⟨hroot, _, rfl⟩ := start_eq hstart
  obtain ⟨done, hvisits⟩ := addTree_visits hroot htree
  have ht₀ : Tables (rooted fs₀) := rooted_tables hroot
  have hl₂ := spec_leads (hvisits.leads.tables ht₀)
    (N := fun _ => True) (fun _ _ _ _ _ _ _ => trivial) hbefore
  have ht₂ := hl₂.tables (hvisits.leads.tables ht₀)
  obtain ⟨l, c₃, p, ents, name, hl, hpath, hget, hname, hents, rfl⟩ :=
    applyLine_node hone hline hkind
  have hmakes := getdir_makes (N := fun _ => True) ht₂ (fun _ _ _ => trivial) hget
  have ht₃ := hmakes.leads.tables ht₂
  have hl₄ := applyLine_leads (N := fun _ => True) ht₂ (fun _ _ _ _ _ => trivial) hone
  have ht₄ := hl₄.tables ht₂
  have hl₆ := spec_leads ht₄ (N := fun _ => True) (fun _ _ _ _ _ _ _ => trivial) hafter
  have ht₆ := hl₆.tables ht₄
  have hh₆ : Held c₆ := Leads.held hl₆ ht₄ (Leads.held hl₄ ht₂
    (Leads.held hl₂ (hvisits.leads.tables ht₀) (Leads.held hvisits.leads ht₀ rooted_held)))
  have hg₆ := hl₆.grows ht₄
  have hapart := hl₆.invariant (fun _ _ hc ha => Act.apart hc ha)
    (node_apart ht₃ (parentPath l.path) name ents (Int.lor l.mode (kindType l.kind))
      (Int.lor (l.major <<< 8) l.minor))
  obtain ⟨_, _, _, _, hdirs, hentries⟩ := finish_eq hfinish
  refine ⟨_, c₁, c₂, c₃, l, p, hstart, htree, hbefore, hl, hpath, hget, hapart.finish hfinish,
    fun hr hnul => ?_⟩
  have hr₆ : ReadsDirs c₆ d := by
    unfold ReadsDirs at hr ⊢
    rw [hdirs, hentries] at hr
    exact hr
  have hparent := hg₆.dirs _ _ hmakes.found
  have habove := hr₆.dirs ht₆ hh₆ hparent (parentPath_nulFree hnul)
  obtain ⟨tail, htail⟩ := hg₆.entries _ _ (Dict.get?_set_self _ (parentPath l.path) _)
  exact hr₆.entry hparent habove hname htail (by simp) hnul

/-- The image that `main` writes has the directories of the build. -/
theorem Imaged.readsDirs {N : Str → Prop} {fs₀ : Fs} {ws : List (ℕ × Bytes)} {b₀ b₂ : Build}
    {fs₁ : Fs} (himage : Imaged b₀ b fs₁) (hw : Written N fs₀ tree b₂ fs₁ ws b₀) :
    ReadsDirs b₀ b.fs.data := by
  intro path ents hents
  have hentries : b.entries.get? path = some ents := by
    rw [himage.header]
    exact hents
  obtain ⟨m, hm, _, hread⟩ := himage.cut_entries hw hentries
  rw [himage.header] at hm
  exact ⟨m, hm, hread⟩

/-- Whenever `main` comes to write the image, the inode that a line for a node
allocated is the one that the line asks for, at its path, exactly when the
fields of the line fit it. -/
theorem node_as_asked_iff
    (h : main limit now nblocks tree (before ++ line :: after) disktab = .ok b)
    (hline : strip (uncomment line) ≠ [])
    (hkind : ∀ kind, part (specWords line) 0 = .ok kind → kind ≠ str "dir" ∧ kind ≠ str "link") :
    ∃ l n, nodeLine line = .ok l ∧ lineNode limit now nblocks tree before line = .ok n ∧
      (AsAsked b.fs.data l n ↔ Fitting l) := by
  obtain ⟨b₀, b₂, fs₁, ws, hbuild, hw, himage⟩ := main_imaged (allNames_true _) h
  obtain ⟨c₀, c₁, c₂, c₃, l, p, hstart, htree, hbefore, hl, hpath, hget, hkept, hat⟩ :=
    build_node (d := b.fs.data) hbuild hline hkind
  have hnode : lineNode limit now nblocks tree before line = .ok c₃.fs.next_ino := by
    refine bind_eq_ok.mpr ⟨c₀, hstart, bind_eq_ok.mpr ⟨c₁, htree, bind_eq_ok.mpr ⟨c₂, hbefore, ?_⟩⟩⟩
    exact bind_eq_ok.mpr ⟨l.path, hpath, bind_eq_ok.mpr ⟨(c₃, p), hget, rfl⟩⟩
  refine ⟨l, c₃.fs.next_ino, hl, hnode, ?_⟩
  have hreads := Imaged.readsDirs himage hw
  obtain ⟨i, hi, hmode, haddr⟩ := hkept
  have hib : b.fs.inodes c₃.fs.next_ino = some i := by rw [himage.header]; exact hi
  have hread := himage.inode hib
  have hi₁ : fs₁.inodes c₃.fs.next_ino = some i := himage.inodes ▸ hib
  obtain ⟨hn1, hn2⟩ := himage.readable.numbers _ i hi₁
  have hpos : 0 ≤ i.mode := by
    have hdisk := diskMode_some himage.readable.image hn1 hn2 hi₁
    omega
  have hdev : (i.addr.map readAddr).getD 0 0 =
      readAddr (Int.lor (l.major <<< 8) l.minor) := by
    rw [haddr]
    rfl
  have hfields := fields_iff (l := l)
    (i := ⟨i.mode, i.nlink, i.uid, i.gid, i.size, i.addr.map readAddr⟩) hmode hpos hdev
  constructor
  · rintro ⟨hk, hp, di, hdi, hfit⟩
    rw [hread] at hdi
    obtain rfl := Except.ok.inj hdi
    obtain ⟨hm, ha, hc⟩ := hfields.mp hfit
    exact ⟨hk, hp.nulFree, hm, ha, hc⟩
  · intro hf
    exact ⟨hf.kind, hat hreads hf.path, _, hread, hfields.mpr ⟨hf.mode, hf.major, hf.minor⟩⟩

end Build

/-- A disk with its major and minor, in a directory that the line makes. -/
theorem node_as_asked_disk : ∃ b n, main 9 0 40 none [str "blk /dev/hd 0640 3 1"] false = .ok b ∧
    lineNode 9 0 40 none [] (str "blk /dev/hd 0640 3 1") = .ok n ∧
    AsAsked b.fs.data ⟨str "blk", str "/dev/hd", 0o640, 3, 1⟩ n := by
  obtain ⟨b, hb⟩ := exists_of_isOk (x := main 9 0 40 none [str "blk /dev/hd 0640 3 1"] false)
    (by decide +kernel)
  have hwords : specWords (str "blk /dev/hd 0640 3 1") =
      [str "blk", str "/dev/hd", str "0640", str "3", str "1"] := by decide +kernel
  have hline : nodeLine (str "blk /dev/hd 0640 3 1") =
      .ok ⟨str "blk", str "/dev/hd", 0o640, 3, 1⟩ := by decide +kernel
  have hmain : main 9 0 40 none ([] ++ str "blk /dev/hd 0640 3 1" :: []) false = .ok b := hb
  obtain ⟨l, n, hl, hn, hiff⟩ := node_as_asked_iff hmain (by decide +kernel) (fun kind hk => by
    rw [hwords] at hk
    rw [← Except.ok.inj hk]
    exact ⟨by decide, by decide⟩)
  rw [hline] at hl
  obtain rfl := Except.ok.inj hl
  refine ⟨b, n, hb, hn, hiff.mpr ⟨Or.inl rfl, by decide, ?_, ?_, ?_⟩⟩
  · exact ⟨by decide, by decide⟩
  · exact ⟨by decide, by decide⟩
  · exact ⟨by decide, by decide⟩

/-- A minor that does not fit its eight bits: the build completes, and nothing
in the image is what the line asks for. -/
theorem wide_minor_misread : ∃ b l, main 9 0 40 none [str "chr /a 0644 1 256"] false = .ok b ∧
    nodeLine (str "chr /a 0644 1 256") = .ok l ∧ ∀ n, ¬AsAsked b.fs.data l n := by
  obtain ⟨b, hb⟩ := exists_of_isOk (x := main 9 0 40 none [str "chr /a 0644 1 256"] false)
    (by decide +kernel)
  have hline : nodeLine (str "chr /a 0644 1 256") =
      .ok ⟨str "chr", str "/a", 0o644, 1, 256⟩ := by decide +kernel
  refine ⟨b, _, hb, hline, fun n h => ?_⟩
  obtain ⟨i, _, _, _, _, hminor⟩ := h.inode
  have hle : (device i).2 ≤ 0xff := Nat.and_le_right
  dsimp only at hminor
  omega

end Sys16.MkfsNodes
