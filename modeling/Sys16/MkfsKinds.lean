import Sys16.MkfsLinks
import Sys16.MkfsNamespace
import Sys16.S5Walk

/-!
# What the inodes of a built image are

A build allocates three kinds of inodes: directories, which it keeps by path,
regular files, whose contents it stores, and device nodes. The mode of each
says which, as long as no spec line gives a directory the mode of something
else.
-/

namespace Sys16.MkfsKinds

open Function PyText PyStruct PyDict HostWalk MkfsImage MkfsBlocks MkfsBuild MkfsActs MkfsWalk
open MkfsFinish MkfsLinks MkfsNamespace S5Walk

variable {b b' : Build} {fs fs' : Fs} {path here name : Str} {parts : List Str} {mode : ℤ}
  {n m d limit : ℕ} {f : HostFile} {P : Rule}

/-! ## Modes -/

/-- The mode of an inode that has been allocated. -/
def modeOf (fs : Fs) (n : ℕ) : Option ℤ := (fs.inodes n).map Inode.mode

/-- A mode is that of a directory or of a regular file, not of both. -/
theorem not_dir_of_reg (h : S_ISREG mode = true) : S_ISDIR mode = false := by
  unfold S_ISREG at h
  unfold S_ISDIR
  rw [beq_iff_eq.mp h]
  decide

/-- A mode with the bit that device nodes have is that of neither. -/
theorem neither_of_testBit (h : mode.testBit 13 = true) :
    S_ISDIR mode = false ∧ S_ISREG mode = false := by
  have hbit : (Int.land mode 0o170000).testBit 13 = true := by
    rw [Int.testBit_land, h]
    decide
  constructor
  · refine beq_eq_false_iff_ne.mpr fun heq => ?_
    rw [heq] at hbit
    exact absurd hbit (by decide)
  · refine beq_eq_false_iff_ne.mpr fun heq => ?_
    rw [heq] at hbit
    exact absurd hbit (by decide)

/-- Whatever permission bits it is given, a device mode has the bit block and character
devices share. -/
theorem node_mode (k : ℤ) (kind : Str) :
    (Int.lor k (if kind = str "blk" then S_IFBLK else S_IFCHR)).testBit 13 = true := by
  have hbit : (if kind = str "blk" then S_IFBLK else S_IFCHR).testBit 13 = true := by
    split
    · decide
    · decide
  rw [Int.testBit_lor, hbit, Bool.or_true]

/-- The mode of a copied file is a regular one. -/
theorem file_mode (executable : Bool) :
    S_ISREG (Int.lor S_IFREG (if executable then 0o755 else 0o644)) = true := by
  cases executable
  · decide
  · decide

/-- Allocating an inode sets its mode and no other. -/
theorem modeOf_allocated (fs : Fs) (mode : ℤ) (m : ℕ) :
    modeOf (allocated fs mode) m = if m = fs.next_ino then some mode else modeOf fs m := by
  unfold modeOf
  rw [inodes_allocated]
  by_cases h : m = fs.next_ino
  · rw [if_pos h, h, update_self]
    rfl
  · rw [if_neg h, update_of_ne h]

/-- A change of an inode that keeps its mode keeps them all. -/
theorem modeOf_keep {g : Inode → Inode} (hg : ∀ i, (g i).mode = i.mode) (n m : ℕ) :
    modeOf (fs.modify n g) m = modeOf fs m := by
  unfold modeOf
  rw [inodes_modify]
  by_cases h : m = n
  · rw [h, update_self, Option.map_map]
    exact congrArg (fun k => (fs.inodes n).map k) (funext hg)
  · rw [update_of_ne h]

/-- A change of mode. -/
theorem modeOf_chmod (fs : Fs) (mode : ℤ) (n m : ℕ) :
    modeOf (fs.modify n fun i => { i with mode := mode }) m =
      if m = n then (modeOf fs n).map fun _ => mode else modeOf fs m := by
  unfold modeOf
  rw [inodes_modify]
  by_cases h : m = n
  · rw [if_pos h, h, update_self, Option.map_map, Option.map_map]
    rfl
  · rw [if_neg h, update_of_ne h]

/-- Making a directory sets its mode and no other. -/
theorem modeOf_withDir (fs : Fs) (parent m : ℕ) :
    modeOf (withDir fs parent) m =
      if m = fs.next_ino then some (Int.lor S_IFDIR 0o755) else modeOf fs m := by
  unfold withDir
  refine (modeOf_keep ?_ parent m).trans ((modeOf_keep ?_ fs.next_ino m).trans ?_)
  · exact fun _ => rfl
  · exact fun _ => rfl
  · exact modeOf_allocated fs _ m

/-- Storing a file changes no mode. -/
theorem modeOf_store {content : Bytes} (h : fs.store_data n content = .ok fs') (m : ℕ) :
    modeOf fs' m = modeOf fs m := by
  have hinodes : modeOf fs' m = modeOf (fs.modify n (storedInode fs.next_block content)) m := by
    unfold modeOf
    rw [store_data_inodes h]
  refine hinodes.trans (modeOf_keep ?_ n m)
  exact fun _ => rfl

/-! ## The three kinds -/

/-- Directories have the mode of a directory, inodes with stored contents that
of a regular file, and all others that of neither. -/
structure Kinds (b : Build) : Prop where
  tables : Tables b
  fresh : ∀ n mode, modeOf b.fs n = some mode → n < b.fs.next_ino
  dirs : ∀ path n, b.dirs.get? path = some n →
    ∃ mode, modeOf b.fs n = some mode ∧ S_ISDIR mode = true
  files : ∀ x ∈ b.fs.stored, ∃ mode, modeOf b.fs x.1 = some mode ∧ S_ISREG mode = true
  others : ∀ n mode, modeOf b.fs n = some mode → (∃ path, b.dirs.get? path = some n) ∨
    (∃ x ∈ b.fs.stored, x.1 = n) ∨ S_ISDIR mode = false ∧ S_ISREG mode = false

/-- An inode with the mode of a directory is one. -/
theorem Kinds.known (h : Kinds b) (hm : modeOf b.fs n = some mode) (hdir : S_ISDIR mode = true) :
    ∃ path, b.dirs.get? path = some n := by
  rcases h.others n mode hm with hd | ⟨x, hx, hxn⟩ | ⟨hno, _⟩
  · exact hd
  · obtain ⟨k, hk, hreg⟩ := h.files x hx
    rw [hxn, hm] at hk
    rw [Option.some.inj hk, not_dir_of_reg hreg] at hdir
    cases hdir
  · rw [hno] at hdir
    cases hdir

/-- An inode with the mode of a regular file has contents. -/
theorem Kinds.regular (h : Kinds b) (hm : modeOf b.fs n = some mode)
    (hreg : S_ISREG mode = true) : ∃ content, (n, content) ∈ b.fs.stored := by
  rcases h.others n mode hm with ⟨p, hd⟩ | ⟨x, hx, rfl⟩ | ⟨_, hno⟩
  · obtain ⟨k, hk, hdir⟩ := h.dirs p n hd
    rw [hm] at hk
    rw [← Option.some.inj hk, not_dir_of_reg hreg] at hdir
    cases hdir
  · exact ⟨x.2, hx⟩
  · rw [hno] at hreg
    cases hreg

/-- An act that allocates an inode of one of the kinds keeps them. -/
theorem Kinds.alloc (h : Kinds b) (ha : Act P b b') (hnext : b'.fs.next_ino = b.fs.next_ino + 1)
    (hmode : ∀ m, modeOf b'.fs m = if m = b.fs.next_ino then some mode else modeOf b.fs m)
    (hdirs : ∀ path n, b'.dirs.get? path = some n →
      n = b.fs.next_ino ∧ S_ISDIR mode = true ∨ b.dirs.get? path = some n)
    (hstored : ∀ x ∈ b'.fs.stored, x.1 = b.fs.next_ino ∧ S_ISREG mode = true ∨ x ∈ b.fs.stored)
    (hnew : (∃ path, b'.dirs.get? path = some b.fs.next_ino) ∨
      (∃ x ∈ b'.fs.stored, x.1 = b.fs.next_ino) ∨ S_ISDIR mode = false ∧ S_ISREG mode = false) :
    Kinds b' := by
  have hgrows := ha.grows h.tables
  have hself : modeOf b'.fs b.fs.next_ino = some mode := by rw [hmode, if_pos rfl]
  have hold : ∀ m k, modeOf b.fs m = some k → modeOf b'.fs m = some k := by
    intro m k hk
    have hlt := h.fresh m k hk
    rw [hmode, if_neg (by omega), hk]
  refine ⟨ha.tables h.tables, fun m k hk => ?_, fun p m hd => ?_, fun x hx => ?_,
    fun m k hk => ?_⟩
  · rw [hmode] at hk
    by_cases hm : m = b.fs.next_ino
    · omega
    · rw [if_neg hm] at hk
      have hlt := h.fresh m k hk
      omega
  · rcases hdirs p m hd with ⟨rfl, hdir⟩ | hd
    · exact ⟨mode, hself, hdir⟩
    · obtain ⟨k, hk, hdir⟩ := h.dirs p m hd
      exact ⟨k, hold m k hk, hdir⟩
  · rcases hstored x hx with ⟨hx, hreg⟩ | hx
    · exact ⟨mode, hx ▸ hself, hreg⟩
    · obtain ⟨k, hk, hreg⟩ := h.files x hx
      exact ⟨k, hold x.1 k hk, hreg⟩
  · rw [hmode] at hk
    by_cases hm : m = b.fs.next_ino
    · rw [if_pos hm] at hk
      rw [hm, ← Option.some.inj hk]
      exact hnew
    · rw [if_neg hm] at hk
      rcases h.others m k hk with ⟨p, hp⟩ | ⟨x, hx, hxm⟩ | hnode
      · exact Or.inl ⟨p, hgrows.dirs p m hp⟩
      · exact Or.inr (Or.inl ⟨x, hgrows.stored x hx, hxm⟩)
      · exact Or.inr (Or.inr hnode)

/-- A new directory keeps the kinds. -/
theorem makedir_kinds {parent : ℕ} (hk : Kinds b) (hnew : b.dirs.get? path = none)
    (hparent : b.dirs.get? (parentPath path) = some parent)
    (h : b.makedir path parent = .ok (b', d)) : Kinds b' := by
  have ha := (makedir_act (P := naming fun _ => True) h hnew hparent fun _ _ => trivial).1
  obtain ⟨ents, nm, _, _, _, _, rfl⟩ := makedir_eq h hnew hparent
  refine hk.alloc ha rfl (modeOf_withDir b.fs parent) (fun p n hd => ?_)
    (fun x hx => Or.inr hx) (Or.inl ⟨path, Dict.get?_set_self _ _ _⟩)
  rcases Dict.get?_set_eq_some.mp hd with ⟨_, hn⟩ | ⟨_, hold⟩
  · exact Or.inl ⟨hn, by decide⟩
  · exact Or.inr hold

/-- `getdir` keeps every inode of the kind it is listed as. -/
theorem getdir_kinds (hk : Kinds b) (h : b.getdir limit path = .ok (b', d)) : Kinds b' := by
  induction limit generalizing path b' d with
  | zero => cases h
  | succ limit ih =>
    cases hd : b.dirs.get? path with
    | some m =>
      obtain ⟨rfl, _⟩ := getdir_old hd h
      exact hk
    | none =>
      obtain ⟨limit', b₁, parent, hlimit, habove, hnew, hparent, hmake⟩ := getdir_new hk.tables h hd
      obtain rfl := Nat.succ.inj hlimit
      exact makedir_kinds (ih habove) hnew hparent hmake

/-- A host file keeps the kinds. -/
theorem addFile_kinds (hk : Kinds b) (h : b.addFile here f = .ok b') : Kinds b' := by
  cases hlink : f.islink with
  | true =>
    rw [addFile_link hlink h]
    exact hk
  | false =>
    obtain ⟨fs', ents, hents, hroom, hstore, rfl⟩ := addFile_eq hlink h
    have ha : Act (naming fun _ => True) b ⟨fs', b.dirs, b.entries.set here
        (ents ++ [(b.fs.next_ino, f.name)])⟩ := .file hents hroom hstore trivial
    have hstored := store_data_stored hstore
    have hin : (b.fs.next_ino, f.content) ∈ fs'.stored := by
      rw [hstored]
      exact List.mem_append_right _ (List.mem_singleton_self _)
    refine hk.alloc ha (store_data_next_ino hstore)
      (fun m => (modeOf_store hstore m).trans (modeOf_allocated b.fs _ m))
      (fun p n hd => Or.inr hd) (fun x hx => ?_) (Or.inr (Or.inl ⟨_, hin, rfl⟩))
    dsimp only at hx
    rw [hstored] at hx
    rcases List.mem_append.mp hx with hx | hx
    · exact Or.inr hx
    · rw [List.mem_singleton.mp hx]
      exact Or.inl ⟨rfl, file_mode f.executable⟩

/-- Copying the host tree keeps the kinds. -/
theorem addTree_kinds {tree : Option HostTree} (hk : Kinds b)
    (h : b.addTree limit tree = .ok b') : Kinds b' := by
  cases tree with
  | none =>
    cases h
    exact hk
  | some t =>
    refine foldlM_invariant (I := Kinds) (fun w _ c c' hc hone => ?_) hk h
    unfold Build.addDir at hone
    obtain ⟨⟨e, k⟩, hdir, hfiles⟩ := bind_eq_ok.mp hone
    exact foldlM_invariant (I := Kinds) (fun g _ _ _ hi hadd => addFile_kinds hi hadd)
      (getdir_kinds hc hdir) hfiles

/-! ## Spec lines -/

/-- A spec line that gives no directory the mode of something else. -/
def KeepsType (line : Str) : Prop :=
  part (specWords line) 0 = .ok (str "dir") →
    ∀ mode, (part (specWords line) 2 >>= int 8) = .ok mode →
      S_ISDIR (Int.lor S_IFDIR mode) = true

/-- A change that keeps modes, directories and contents keeps the kinds. -/
theorem Kinds.congr (h : Kinds b) (ht : Tables b') (hnext : b'.fs.next_ino = b.fs.next_ino)
    (hmode : ∀ m, modeOf b'.fs m = modeOf b.fs m) (hdirs : b'.dirs = b.dirs)
    (hstored : b'.fs.stored = b.fs.stored) : Kinds b' := by
  refine ⟨ht, fun m k hk => ?_, fun p m hd => ?_, fun x hx => ?_, fun m k hk => ?_⟩
  · rw [hmode] at hk
    exact hnext ▸ h.fresh m k hk
  · rw [hmode]
    exact h.dirs p m (hdirs ▸ hd)
  · rw [hmode]
    exact h.files x (hstored ▸ hx)
  · rw [hmode] at hk
    rw [hdirs, hstored]
    exact h.others m k hk

/-- The mode of a `dir` line. -/
theorem Kinds.chmod (h : Kinds b) (hd : b.dirs.get? path = some d) (hmode : S_ISDIR mode = true) :
    Kinds { b with fs := b.fs.modify d fun i => { i with mode := mode } } := by
  have ha : Act (naming fun _ => True) b
      { b with fs := b.fs.modify d fun i => { i with mode := mode } } := .chmod hd
  obtain ⟨old, hold, holddir⟩ := h.dirs path d hd
  have hself : ((modeOf b.fs d).map fun _ => mode) = some mode := by rw [hold]; rfl
  refine ⟨ha.tables h.tables, fun m k hk => ?_, fun p m hm => ?_, fun x hx => ?_, fun m k hk => ?_⟩
  · rw [modeOf_chmod] at hk
    by_cases hmd : m = d
    · exact hmd ▸ h.fresh d old hold
    · rw [if_neg hmd] at hk
      exact h.fresh m k hk
  · rw [modeOf_chmod]
    by_cases hmd : m = d
    · rw [if_pos hmd]
      exact ⟨mode, hself, hmode⟩
    · rw [if_neg hmd]
      exact h.dirs p m hm
  · obtain ⟨k, hk, hreg⟩ := h.files x hx
    -- a directory has no stored contents yet
    have hne : x.1 ≠ d := by
      intro heq
      rw [heq, hold] at hk
      rw [Option.some.inj hk, not_dir_of_reg hreg] at holddir
      cases holddir
    rw [modeOf_chmod, if_neg hne]
    exact ⟨k, hk, hreg⟩
  · rw [modeOf_chmod] at hk
    by_cases hmd : m = d
    · exact Or.inl ⟨path, hmd ▸ hd⟩
    · rw [if_neg hmd] at hk
      exact h.others m k hk

/-- A `dir` line keeps the kinds when its mode leaves the directory type. -/
theorem specDir_kinds (hk : Kinds b) (h : b.specDir limit path parts = .ok b')
    (hmode : ∀ mode, (part parts 2 >>= int 8) = .ok mode →
      S_ISDIR (Int.lor S_IFDIR mode) = true) : Kinds b' := by
  unfold Build.specDir at h
  obtain ⟨⟨b₁, m⟩, hdir, h₁⟩ := bind_eq_ok.mp h
  obtain ⟨mode, hint, h₂⟩ := bind_eq_ok.mp h₁
  obtain ⟨d, hd, h₃⟩ := bind_eq_ok.mp h₂
  cases h₃
  exact (getdir_kinds hk hdir).chmod (index_eq_ok.mp hd) (hmode mode hint)

/-- Any other line of the spec keeps the kinds. -/
theorem specEntry_kinds {kind : Str} (hk : Kinds b)
    (h : b.specEntry kind here name parts = .ok b') : Kinds b' := by
  have ha := specEntry_act (P := naming fun _ => True) h fun _ => trivial
  have ht := ha.tables hk.tables
  unfold Build.specEntry at h
  split at h
  · obtain ⟨target, tents, k, _, _, _, hlink⟩ := specLink_eq h
    obtain ⟨ents, _, _, rfl⟩ := link_eq hlink
    refine hk.congr ht rfl (fun m => modeOf_keep ?_ k m) rfl rfl
    exact fun _ => rfl
  · obtain ⟨k, dev, ents, _, _, rfl⟩ := specNode_eq h
    refine hk.alloc ha rfl (fun m => ?_) (fun p n hd => Or.inr hd) (fun x hx => Or.inr hx)
      (Or.inr (Or.inr (neither_of_testBit (node_mode k kind))))
    refine (modeOf_keep ?_ b.fs.next_ino m).trans (modeOf_allocated b.fs _ m)
    exact fun _ => rfl

/-- A line of the spec keeps the kinds when it keeps the type. -/
theorem applyLine_kinds {line : Str} (hk : Kinds b) (hline : KeepsType line)
    (h : b.applyLine limit line = .ok b') : Kinds b' := by
  by_cases hblank : strip (uncomment line) = []
  · rw [applyLine_blank h hblank]
    exact hk
  · obtain ⟨kind, path, nm, hkind, _, _, hcase⟩ := applyLine_eq h hblank
    by_cases hdir : kind = str "dir"
    · rw [if_pos hdir] at hcase
      exact specDir_kinds hk hcase (hline (hdir ▸ hkind))
    · rw [if_neg hdir] at hcase
      obtain ⟨b₁, d, hget, hentry⟩ := hcase
      exact specEntry_kinds (getdir_kinds hk hget) hentry

/-! ## Built images -/

/-- The build starts with its kinds in order. -/
theorem rooted_kinds (hroot : fs.next_ino = ROOTINO) (hempty : ∀ n, fs.inodes n = none)
    (hstored : fs.stored = []) : Kinds (rooted fs) := by
  have hmode : ∀ m, modeOf (rooted fs).fs m =
      if m = ROOTINO then some (Int.lor S_IFDIR 0o755) else none := by
    intro m
    have hnone : modeOf fs m = none := by
      unfold modeOf
      rw [hempty]
      rfl
    refine (modeOf_keep ?_ fs.next_ino m).trans ?_
    · exact fun _ => rfl
    · rw [modeOf_allocated, hroot, hnone]
  have hnext : (rooted fs).fs.next_ino = ROOTINO + 1 := congrArg (· + 1) hroot
  have hnil : (rooted fs).fs.stored = [] := hstored
  refine ⟨rooted_tables hroot, fun m k hk => ?_, fun p m hd => ?_, fun x hx => ?_, fun m k hk => ?_⟩
  · rw [hmode] at hk
    by_cases hm : m = ROOTINO
    · omega
    · rw [if_neg hm] at hk
      cases hk
  · rw [(rooted_dirs hd).2, hmode, if_pos rfl]
    exact ⟨_, rfl, by decide⟩
  · rw [hnil] at hx
    cases hx
  · rw [hmode] at hk
    by_cases hm : m = ROOTINO
    · exact Or.inl ⟨[sep], hm ▸ rfl⟩
    · rw [if_neg hm] at hk
      cases hk

/-- What is known of the inodes of a build that completes: which of them are
directories, that each directory below the root is held by one that is there,
that regular files are stored, and where the host files are. -/
structure Typed (tree : Option HostTree) (b : Build) : Prop where
  tables : b.dirs.get? [sep] = some ROOTINO ∧ b.dirs.values.Nodup ∧ b.entries.keys = b.dirs.keys
  held : ∀ path n, b.dirs.get? path = some n → n ≠ ROOTINO → HeldAt b path n
  named : ∀ path ents e, b.entries.get? path = some ents → e ∈ ents →
    ∃ i, b.fs.inodes e.1 = some i
  dirs : ∀ path n, b.dirs.get? path = some n →
    ∃ i, b.fs.inodes n = some i ∧ S_ISDIR i.mode = true
  known : ∀ n i, b.fs.inodes n = some i → S_ISDIR i.mode = true →
    ∃ path, b.dirs.get? path = some n
  regular : ∀ n i, b.fs.inodes n = some i → S_ISREG i.mode = true →
    ∃ content, (n, content) ∈ b.fs.stored
  files : ∀ p ∈ treeFiles tree, p.2.islink = false →
    ∃ ents ino i, b.entries.get? (imagePath p.1) = some ents ∧ (ino, p.2.name) ∈ ents ∧
      (ino, p.2.content) ∈ b.fs.stored ∧ b.fs.inodes ino = some i ∧ S_ISREG i.mode = true

/-- A mode is that of an inode on the table. -/
theorem modeOf_eq_some : modeOf fs n = some mode ↔ ∃ i, fs.inodes n = some i ∧ i.mode = mode := by
  unfold modeOf
  exact Option.map_eq_some_iff

/-- Storing the directories changes no mode, and writing the image out does not. -/
theorem finish_modes (h : b.finish = .ok b') :
    (∀ m, modeOf b'.fs m = modeOf b.fs m) ∧ ∀ x ∈ b.fs.stored, x ∈ b'.fs.stored := by
  obtain ⟨fs₁, fs₂, fs₃, hfin, _, _⟩ := finish_eq h
  have hstore := foldlM_invariant (I := fun f : Fs => (∀ m, modeOf f m = modeOf b.fs m) ∧
    ∀ x ∈ b.fs.stored, x ∈ f.stored) (fun p _ g g' hg hone => by
      obtain ⟨blob, d, _, _, hdata⟩ := storeDir_eq hone
      refine ⟨fun m => (modeOf_store hdata m).trans (hg.1 m), fun x hx => ?_⟩
      rw [store_data_stored hdata]
      exact List.mem_append_left _ (hg.2 x hx)) ⟨fun _ => rfl, fun _ hx => hx⟩ hfin.store
  refine ⟨fun m => ?_, fun x hx => ?_⟩
  · rw [← hstore.1 m]
    unfold modeOf
    rw [hfin.same.inodes]
  · rw [hfin.same.stored]
    exact hstore.2 x hx

variable {nblocks ninodes : ℕ} {now : ℤ} {tree : Option HostTree} {spec : List Str}

/-- What is known of the state in which a build stores the directories. -/
structure Gathered (tree : Option HostTree) (b : Build) : Prop where
  kinds : Kinds b
  linked : Linked b
  held : Held b
  files : ∀ p ∈ treeFiles tree, p.2.islink = false → FileAt b p.1 p.2

/-- A completed build has gathered the tree before it is finished. -/
theorem build_gathered (hspec : ∀ line ∈ spec, KeepsType line)
    (h : build limit (Fs.init now nblocks ninodes) tree spec = .ok b) :
    ∃ b₂, Gathered tree b₂ ∧ b₂.finish = .ok b := by
  obtain ⟨b₁, b₂, hroot, hroom, htree, hlines, hfinish⟩ := build_phases h
  obtain ⟨done, hvisits⟩ := addTree_visits hroot htree
  have ht₀ := rooted_tables hroot
  have ht₁ := hvisits.visited.tables
  have hleads := spec_leads (N := fun _ => True) ht₁ (fun _ _ _ _ _ _ _ => trivial) hlines
  have hheld₁ : Held b₁ := Leads.held hvisits.leads ht₀ rooted_held
  have hlinked₁ : Linked b₁ := Leads.linked hvisits.leads (rooted_linked hroot fun _ => rfl)
  have hlinked : Linked b₂ := Leads.linked hleads hlinked₁
  have hkinds₁ := addTree_kinds (rooted_kinds hroot (fun _ => rfl) rfl) htree
  have hkinds : Kinds b₂ := foldlM_invariant (I := Kinds)
    (fun line hl _ _ hc hone => applyLine_kinds hc (hspec line hl) hone) hkinds₁ hlines
  exact ⟨b₂, ⟨hkinds, hlinked, Leads.held hleads ht₁ hheld₁,
    fun p hp hlink => (hvisits.files p hp hlink).grows (hleads.grows ht₁)⟩, hfinish⟩

/-- A completed build is of the right kinds throughout. -/
theorem build_typed (hspec : ∀ line ∈ spec, KeepsType line)
    (h : build limit (Fs.init now nblocks ninodes) tree spec = .ok b) : Typed tree b := by
  obtain ⟨b₂, hg, hfinish⟩ := build_gathered hspec h
  have ht := hg.kinds.tables
  obtain ⟨hmodes, hstored⟩ := finish_modes hfinish
  obtain ⟨fs₁, fs₂, fs₃, hfin, hdirs, hentries⟩ := finish_eq hfinish
  have hinode : ∀ m k, modeOf b₂.fs m = some k → ∃ i, b.fs.inodes m = some i ∧ i.mode = k :=
    fun m k hk => modeOf_eq_some.mp ((hmodes m).trans hk)
  have hmode : ∀ m i, b.fs.inodes m = some i → modeOf b₂.fs m = some i.mode :=
    fun m i hi => (hmodes m).symm.trans (modeOf_eq_some.mpr ⟨i, hi, rfl⟩)
  refine ⟨?_, fun p m hd hm => ?_, fun p ents e hents he => ?_, fun p m hd => ?_,
    fun m i hi hdir => ?_, fun m i hi hreg => ?_, fun p hp hlink => ?_⟩
  · rw [hdirs, hentries]
    exact ⟨ht.root, ht.inj, ht.keys⟩
  · obtain ⟨nm, ents, parent, tail, hname, habove, hparent, hmem, hown⟩ :=
      hg.held.below p m (hdirs ▸ hd) hm
    exact ⟨nm, ents, parent, tail, hname, hentries ▸ habove, hdirs ▸ hparent, hmem, hentries ▸ hown⟩
  · have hnamed : e.1 ∈ MkfsActs.named b₂.entries :=
      mem_named.mpr ⟨p, ents, e.2, hentries ▸ hents, he⟩
    obtain ⟨i, hi⟩ := Option.isSome_iff_exists.mp ((hg.linked.allocated e.1).mpr hnamed)
    obtain ⟨j, hj, _⟩ := hinode e.1 i.mode (modeOf_eq_some.mpr ⟨i, hi, rfl⟩)
    exact ⟨j, hj⟩
  · obtain ⟨k, hk, hdir⟩ := hg.kinds.dirs p m (hdirs ▸ hd)
    obtain ⟨i, hi, hik⟩ := hinode m k hk
    exact ⟨i, hi, hik ▸ hdir⟩
  · obtain ⟨p, hp⟩ := hg.kinds.known (hmode m i hi) hdir
    exact ⟨p, hdirs ▸ hp⟩
  · obtain ⟨content, hx⟩ := hg.kinds.regular (hmode m i hi) hreg
    exact ⟨content, hstored _ hx⟩
  · obtain ⟨ents, ino, hents, hfind, hmem⟩ := hg.files p hp hlink
    obtain ⟨k, hk, hreg⟩ := hg.kinds.files _ hmem
    obtain ⟨i, hi, hik⟩ := hinode ino k hk
    exact ⟨ents, ino, i, hentries ▸ hents, List.mem_of_find?_eq_some hfind, hstored _ hmem, hi,
      hik ▸ hreg⟩

/-- A host tree alone gives a well-formed tree. -/
theorem wellFormed_tree (h : build limit fs tree [] = .ok b) : WellFormed b := by
  obtain ⟨b₁, b₂, hroot, _, htree, hlines, hfinish⟩ := build_phases h
  cases hlines
  obtain ⟨done, hvisits⟩ := addTree_visits hroot htree
  have ht₀ := rooted_tables hroot
  have hclean := Leads.clean hvisits.leads ht₀ rooted_clean
  have hheld : Held b₁ := Leads.held hvisits.leads ht₀ rooted_held
  have hw := (wellFormed_iff hvisits.visited.tables hheld).mpr hclean
  obtain ⟨fs₁, fs₂, fs₃, _, hdirs, hentries⟩ := finish_eq hfinish
  exact ⟨hentries ▸ hw.names, hdirs ▸ hentries ▸ hw.tree⟩

end Sys16.MkfsKinds
