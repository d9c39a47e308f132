import Sys16.Budgets
import Sys16.MkfsAccounting
import Sys16.MkfsFinish
import Sys16.MkfsWalk

/-!
# What a host tree takes

The passes of `build` over a host tree draw on two budgets, the inodes and the
blocks of the image, and they have their own reasons to end the program: a
recursion that is too deep, a file that is too large, a name or a number that
a directory entry has no room for.
-/

namespace Sys16.MkfsCapacity

open Function PyText PyStruct PyDict HostWalk Budgets MkfsImage MkfsBlocks MkfsBuild MkfsActs MkfsWalk
open MkfsAccounting MkfsFinish

variable {b b' : Build} {fs fs' : Fs} {path name : Str} {here front : List Str} {n d limit ino : ℕ}
  {content : Bytes} {f : HostFile} {files : List HostFile} {ents : List Entry}

/-- What an image can run out of. -/
inductive Resource where
  | inode
  | block

/-- A property of every resource is a property of inodes and of blocks. -/
theorem forall_resource {p : Resource → Prop} : (∀ i, p i) ↔ p .inode ∧ p .block := by
  refine ⟨fun h => ⟨h .inode, h .block⟩, fun h i => ?_⟩
  cases i with
  | inode => exact h.1
  | block => exact h.2

/-- What is left of it. -/
def left (fs : Fs) : Resource → ℕ
  | .inode => fs.ninodes - fs.next_ino
  | .block => fs.nblocks - fs.next_block

/-! ## Files -/

/-- On an image whose block numbers fit, those of a file there is room for do. -/
theorem words32_of_room (hs : fs.nblocks ≤ 2 ^ 32)
    (hroom : fileCost content ≤ fs.nblocks - fs.next_block) :
    Words32 (indirectWords fs.next_block (dataCount content)) := by
  rw [fileCost_eq] at hroom
  rw [words32_indirectWords]
  generalize dataCount content = n at hroom ⊢
  unfold cost at hroom
  refine ⟨fun hn => ?_, fun hn => ?_⟩
  · rw [if_pos hn] at hroom
    omega
  · rw [if_pos (show 10 < n by omega), if_pos hn] at hroom
    omega

/-- `store_data` completes exactly when the file is within the tables and its blocks are
there. -/
theorem store_data_fits (hs : fs.nblocks ≤ 2 ^ 32) :
    (∃ fs', fs.store_data ino content = .ok fs') ↔
      outerCount (dataCount content) ≤ NINDIR ∧ fileCost content ≤ fs.nblocks - fs.next_block := by
  rw [store_data_completes]
  exact ⟨fun ⟨hroom, houter, _⟩ => ⟨houter, hroom⟩,
    fun ⟨houter, hroom⟩ => ⟨hroom, houter, words32_of_room hs hroom⟩⟩

/-- What a completed `store_data` uses: the blocks of the file and nothing else. -/
theorem store_data_next (h : fs.store_data ino content = .ok fs') :
    fs'.nblocks = fs.nblocks ∧ fs'.ninodes = fs.ninodes ∧ fs'.next_ino = fs.next_ino ∧
      fs'.next_block = fs.next_block + fileCost content := by
  have hshape := store_data_shaped h
  obtain ⟨fs₁, happ, _, rfl⟩ := store_data_eq h
  have hnext := (Appends.next_eq happ).1
  rw [length_fileBlocks] at hnext
  exact ⟨hshape.nblocks, hshape.ninodes, store_data_next_ino h, hnext⟩

/-- `alloc_inode` completes exactly when an inode is left. -/
theorem alloc_inode_completes (fs : Fs) (mode : ℤ) :
    (∃ r, fs.alloc_inode mode 0 0 = .ok r) ↔ fs.next_ino < fs.ninodes := by
  unfold Fs.alloc_inode
  split
  · exact ⟨nofun, fun h => by omega⟩
  · exact ⟨fun _ => by omega, fun _ => ⟨_, rfl⟩⟩

/-- `append` completes exactly when the directory has its table. -/
theorem append_completes {e : Entry} :
    (∃ b', b.append path e = .ok b') ↔ ∃ ents, b.entries.get? path = some ents := by
  unfold Build.append
  constructor
  · rintro ⟨b', h⟩
    obtain ⟨ents, hents, _⟩ := bind_eq_ok.mp h
    exact ⟨ents, index_eq_ok.mp hents⟩
  · rintro ⟨ents, hents⟩
    exact ⟨_, bind_eq_ok.mpr ⟨ents, index_eq_ok.mpr hents, rfl⟩⟩

/-- What a host file takes. -/
def fileTakes (f : HostFile) : Resource → ℕ
  | .inode => if f.islink then 0 else 1
  | .block => if f.islink then 0 else fileCost f.content

/-- A file that an image can hold. -/
def FileFits (f : HostFile) : Prop := f.islink = false → outerCount (dataCount f.content) ≤ NINDIR

/-- The state while the files of a directory are added. -/
structure Adding (path : Str) (b : Build) : Prop where
  there : ∃ ents, b.entries.get? path = some ents
  small : b.fs.nblocks ≤ 2 ^ 32

/-- `addFile` completes exactly when the file fits and its resources are there. -/
theorem addFile_pass (h : Adding path b) : (∃ b', b.addFile path f = .ok b') ↔
    FileFits f ∧ ∀ i, fileTakes f i ≤ left b.fs i := by
  unfold Build.addFile FileFits
  cases hlink : f.islink with
  | true =>
    refine iff_of_true ⟨b, rfl⟩ ⟨nofun, fun i => ?_⟩
    cases i with
    | inode => exact (if_pos hlink).trans_le (Nat.zero_le _)
    | block => exact (if_pos hlink).trans_le (Nat.zero_le _)
  | false =>
    rw [if_neg Bool.false_ne_true]
    have hrest : ∀ r, b.fs.alloc_inode (Int.lor S_IFREG (if f.executable then 0o755 else 0o644)) 0 0 =
        .ok r → ((∃ b', (r.1.store_data r.2 f.content >>= fun fs =>
          Build.append { b with fs := fs } path (r.2, f.name)) = .ok b') ↔
        outerCount (dataCount f.content) ≤ NINDIR ∧
          fileCost f.content ≤ b.fs.nblocks - b.fs.next_block) := by
      rintro ⟨fs₁, n⟩ halloc
      obtain ⟨_, rfl, rfl⟩ := alloc_inode_eq halloc
      have happend : ∀ fs₂ : Fs, ∃ b', Build.append ⟨fs₂, b.dirs, b.entries⟩ path
          (b.fs.next_ino, f.name) = .ok b' := fun fs₂ => append_completes.mpr h.there
      exact (bind_completes_of_forall fun fs₂ _ => happend fs₂).trans (store_data_fits h.small)
    refine (bind_completes (alloc_inode_completes _ _) hrest).trans ?_
    have hinode : fileTakes f .inode = 1 := if_neg (by rw [hlink]; simp)
    have hblock : fileTakes f .block = fileCost f.content := if_neg (by rw [hlink]; simp)
    rw [forall_resource, hinode, hblock]
    unfold left
    dsimp only
    constructor
    · rintro ⟨hroom, houter, hblocks⟩
      exact ⟨fun _ => houter, by omega, hblocks⟩
    · rintro ⟨houter, hroom, hblocks⟩
      exact ⟨by omega, houter rfl, hblocks⟩

/-- A completed `addFile` leaves what it did not take. -/
theorem addFile_left (hadd : b.addFile path f = .ok b') :
    b'.fs.nblocks = b.fs.nblocks ∧ b'.fs.ninodes = b.fs.ninodes ∧
      ∀ i, left b'.fs i + fileTakes f i = left b.fs i := by
  cases hlink : f.islink with
  | true =>
    rw [addFile_link hlink hadd]
    refine ⟨rfl, rfl, fun i => ?_⟩
    cases i with
    | inode => exact congrArg (_ + ·) (if_pos hlink)
    | block => exact congrArg (_ + ·) (if_pos hlink)
  | false =>
    obtain ⟨fs', ents, hents, hroom, hstore, rfl⟩ := addFile_eq hlink hadd
    obtain ⟨hnb, hni, hnext, hblock⟩ := store_data_next hstore
    have hcover := (store_data_completes.mp ⟨fs', hstore⟩).1
    have hnb' : fs'.nblocks = b.fs.nblocks := hnb
    have hni' : fs'.ninodes = b.fs.ninodes := hni
    have hnext' : fs'.next_ino = b.fs.next_ino + 1 := hnext
    have hblock' : fs'.next_block = b.fs.next_block + fileCost f.content := hblock
    change fileCost f.content ≤ b.fs.nblocks - b.fs.next_block at hcover
    have hno : ¬f.islink = true := by rw [hlink]; simp
    refine ⟨hnb', hni', fun i => ?_⟩
    cases i with
    | inode =>
      unfold left fileTakes
      dsimp only
      rw [if_neg hno, hni', hnext']
      omega
    | block =>
      unfold left fileTakes
      dsimp only
      rw [if_neg hno, hnb', hblock']
      omega

/-- A completed `addFile` leaves the directory ready for the next file. -/
theorem addFile_adding {p : Str} (h : Adding p b) (hadd : b.addFile path f = .ok b') :
    Adding p b' := by
  obtain ⟨hnb, _⟩ := addFile_left hadd
  refine ⟨?_, hnb ▸ h.small⟩
  cases hlink : f.islink with
  | true =>
    rw [addFile_link hlink hadd]
    exact h.there
  | false =>
    obtain ⟨fs', ents, hents, _, _, rfl⟩ := addFile_eq hlink hadd
    obtain ⟨old, hold⟩ := h.there
    obtain ⟨tail, htail⟩ := entries_append (e := (b.fs.next_ino, f.name)) hents hold
    exact ⟨_, htail⟩

/-- The files of a directory draw on the budgets one by one. -/
theorem files_metered (path : Str) (files : List HostFile) :
    Metered (fun b f => Build.addFile b path f) files (fun _ b => Adding path b) FileFits fileTakes
      (fun b => left b.fs) :=
  ⟨fun _ _ _ _ _ h => addFile_pass h,
    fun _ _ _ _ _ _ h hadd => ⟨addFile_adding h hadd, (addFile_left hadd).2.2⟩⟩

/-! ## Directories -/

/-- What a directory takes with the files in it; the root directory is there already. -/
def dirTakes (w : List Str × List HostFile) : Resource → ℕ
  | .inode => (if w.1 = [] then 0 else 1) + total fileTakes (sortedFiles w.2) .inode
  | .block => total fileTakes (sortedFiles w.2) .block

/-- A directory that the recursion gets to, with files that an image can hold. -/
def DirFits (limit : ℕ) (w : List Str × List HostFile) : Prop :=
  (if w.1 = [] then 1 else 2) ≤ limit ∧ ∀ f ∈ sortedFiles w.2, FileFits f

/-- The state while the walk goes over the directories of the tree. -/
structure Walking (done : List (List Str × List HostFile)) (b : Build) : Prop where
  tables : Tables b
  small : b.fs.nblocks ≤ 2 ^ 32
  dirs : ∀ path, (∃ d, b.dirs.get? path = some d) ↔
    path = [sep] ∨ ∃ w ∈ done, path = imagePath w.1

/-- Where a directory of the walk comes from: it is the root, or it is new in
one that is there. -/
def Due (b : Build) (here : List Str) : Prop :=
  here = [] ∨ ∃ front name p, here = front ++ [name] ∧ HostName name ∧
    b.dirs.get? (imagePath front) = some p ∧ b.dirs.get? (imagePath here) = none

/-- `makedir` under a parent that exists completes exactly when an inode is left. -/
theorem makedir_completes {p : ℕ} (hents : b.entries.get? (parentPath path) = some ents)
    (hne : path ≠ parentPath path) (hname : lastName path = .ok name) :
    (∃ r, b.makedir path p = .ok r) ↔ b.fs.next_ino < b.fs.ninodes := by
  rw [← alloc_inode_completes b.fs (Int.lor S_IFDIR 0o755)]
  unfold Build.makedir
  refine bind_completes_of_forall fun r _ => ?_
  have hget : index (b.entries.set path [(r.2, str "."), (p, str "..")]) (parentPath path) =
      .ok ents := index_eq_ok.mpr (by rw [Dict.get?_set, if_neg hne, hents])
  exact ⟨_, bind_eq_ok.mpr ⟨ents, hget, bind_eq_ok.mpr ⟨name, hname, rfl⟩⟩⟩

/-- `getdir` of a directory that is there only looks it up. -/
theorem getdir_found (hd : b.dirs.get? path = some d) :
    (∃ r, b.getdir limit path = .ok r) ↔ 1 ≤ limit := by
  cases limit with
  | zero => exact ⟨nofun, nofun⟩
  | succ limit =>
    refine iff_of_true ⟨(b, d), ?_⟩ (Nat.succ_pos limit)
    unfold Build.getdir
    rw [hd]

/-- `getdir` of a new directory in one that is there needs an inode, and one
more level of recursion. -/
theorem getdir_due {p : ℕ} (ht : Tables b) (hname : HostName name)
    (hparent : b.dirs.get? (imagePath front) = some p)
    (hnew : b.dirs.get? (imagePath (front ++ [name])) = none) :
    (∃ r, b.getdir limit (imagePath (front ++ [name])) = .ok r) ↔
      2 ≤ limit ∧ b.fs.next_ino < b.fs.ninodes := by
  have hpath := parentPath_imagePath front hname
  obtain ⟨ents, hents⟩ := ht.get?_entries hparent
  have hne : imagePath (front ++ [name]) ≠ parentPath (imagePath (front ++ [name])) := by
    intro he
    rw [he, hpath, hparent] at hnew
    cases hnew
  have hmake := makedir_completes (p := p) (hpath.symm ▸ hents) hne (lastName_imagePath front hname)
  cases limit with
  | zero => exact ⟨nofun, fun h => absurd h.1 (by decide)⟩
  | succ limit =>
    unfold Build.getdir
    rw [hnew]
    dsimp only
    have hstep : ∀ r, b.getdir limit (parentPath (imagePath (front ++ [name]))) = .ok r →
        ((∃ r', r.1.makedir (imagePath (front ++ [name])) r.2 = .ok r') ↔
          b.fs.next_ino < b.fs.ninodes) := by
      intro r hr
      obtain ⟨hb, hd⟩ := getdir_old (hpath.symm ▸ hparent) hr
      rw [hb, hd]
      exact hmake
    refine (bind_completes (getdir_found (hpath.symm ▸ hparent)) hstep).trans ?_
    exact and_congr_left' (by omega)

/-- `getdir` of a directory that is due completes exactly when the limit and the inodes
allow it. -/
theorem getdir_pass (ht : Tables b) (hdue : Due b here) :
    (∃ r, b.getdir limit (imagePath here) = .ok r) ↔
      (if here = [] then 1 else 2) ≤ limit ∧
        (if here = [] then 0 else 1) ≤ b.fs.ninodes - b.fs.next_ino := by
  rcases hdue with rfl | ⟨front, name, p, rfl, hname, hparent, hnew⟩
  · rw [if_pos rfl, if_pos rfl]
    exact (getdir_found ht.root).trans (and_iff_left (Nat.zero_le _)).symm
  · have hne : front ++ [name] ≠ [] := by simp
    rw [if_neg hne, if_neg hne, getdir_due ht hname hparent hnew]
    exact and_congr_right' (by omega)

/-- What `getdir` of a directory of the walk leaves. -/
structure Made (here : List Str) (b b' : Build) : Prop where
  tables : Tables b'
  nblocks : b'.fs.nblocks = b.fs.nblocks
  ninodes : b'.fs.ninodes = b.fs.ninodes
  next_block : b'.fs.next_block = b.fs.next_block
  inode : b'.fs.ninodes - b'.fs.next_ino + (if here = [] then 0 else 1) =
    b.fs.ninodes - b.fs.next_ino
  there : ∃ d, b'.dirs.get? (imagePath here) = some d
  dirs : ∀ path, (∃ d, b'.dirs.get? path = some d) ↔
    path = imagePath here ∨ ∃ d, b.dirs.get? path = some d

/-- A completed `getdir` has made the directory it was asked for. -/
theorem getdir_made (ht : Tables b) (hdue : Due b here)
    (h : b.getdir limit (imagePath here) = .ok (b', d)) : Made here b b' := by
  rcases hdue with rfl | ⟨front, name, p, rfl, hname, hparent, hnew⟩
  · obtain ⟨rfl, _⟩ := getdir_old ht.root h
    exact ⟨ht, rfl, rfl, rfl, by rw [if_pos rfl, Nat.add_zero], ⟨_, ht.root⟩, fun path =>
      ⟨Or.inr, fun hp => hp.elim (fun he => he ▸ ⟨_, ht.root⟩) id⟩⟩
  · have hpath := parentPath_imagePath front hname
    obtain ⟨limit', b₁, parent, _, habove, hnew₁, hparent₁, hmake⟩ := getdir_new ht h hnew
    obtain ⟨rfl, _⟩ := getdir_old (hpath.symm ▸ hparent) habove
    have ha := (makedir_act (P := naming fun _ => True) hmake hnew₁ hparent₁ fun _ _ => trivial).1
    obtain ⟨ents, nm, _, _, hroom, _, rfl⟩ := makedir_eq hmake hnew₁ hparent₁
    have hnext : (withDir b₁.fs parent).next_ino = b₁.fs.next_ino + 1 := rfl
    have hni : (withDir b₁.fs parent).ninodes = b₁.fs.ninodes := rfl
    refine ⟨ha.tables ht, rfl, rfl, rfl, ?_, ⟨_, Dict.get?_set_self _ _ _⟩, fun path => ?_⟩
    · dsimp only
      rw [if_neg (by simp), hnext, hni]
      omega
    · constructor
      · rintro ⟨m, hm⟩
        rcases Dict.get?_set_eq_some.mp hm with ⟨rfl, _⟩ | ⟨_, hold⟩
        · exact Or.inl rfl
        · exact Or.inr ⟨m, hold⟩
      · rintro (rfl | ⟨m, hm⟩)
        · exact ⟨_, Dict.get?_set_self _ _ _⟩
        · exact ⟨m, Dict.get?_set_new hnew₁ hm⟩

/-- What adding files keeps of the tables. -/
theorem files_walking {files : List HostFile} (ht : Tables b)
    (h : files.foldlM (fun b f => Build.addFile b path f) b = .ok b') :
    Tables b' ∧ b'.dirs = b.dirs ∧ b'.fs.nblocks = b.fs.nblocks ∧
      b'.fs.ninodes = b.fs.ninodes := by
  refine foldlM_invariant (I := fun c => Tables c ∧ c.dirs = b.dirs ∧ c.fs.nblocks = b.fs.nblocks ∧
    c.fs.ninodes = b.fs.ninodes) (fun f _ c c' hc hone => ?_) ⟨ht, rfl, rfl, rfl⟩ h
  obtain ⟨htc, hd, hnb, hni⟩ := hc
  obtain ⟨hnb', hni', _⟩ := addFile_left hone
  refine ⟨addFile_tables htc hone, ?_, hnb'.trans hnb, hni'.trans hni⟩
  cases hlink : f.islink with
  | true =>
    rw [addFile_link hlink hone]
    exact hd
  | false =>
    obtain ⟨fs', ents, _, _, _, rfl⟩ := addFile_eq hlink hone
    exact hd

/-- A directory just made is ready for its files. -/
theorem Made.adding (hm : Made here b b') (hs : b.fs.nblocks ≤ 2 ^ 32) :
    Adding (imagePath here) b' := by
  obtain ⟨d, hd⟩ := hm.there
  exact ⟨hm.tables.get?_entries hd, hm.nblocks ▸ hs⟩

/-- `addDir` completes exactly when the directory fits and its resources are there. -/
theorem addDir_pass {w : List Str × List HostFile} (ht : Tables b) (hs : b.fs.nblocks ≤ 2 ^ 32)
    (hdue : Due b w.1) : (∃ b', b.addDir limit w = .ok b') ↔
      DirFits limit w ∧ ∀ i, dirTakes w i ≤ left b.fs i := by
  have hfiles : ∀ r, b.getdir limit (imagePath w.1) = .ok r →
      ((∃ b', (sortedFiles w.2).foldlM (fun b f => Build.addFile b (imagePath w.1) f) r.1 = .ok b') ↔
        (∀ f ∈ sortedFiles w.2, FileFits f) ∧
          (if w.1 = [] then 0 else 1) + total fileTakes (sortedFiles w.2) .inode ≤
            b.fs.ninodes - b.fs.next_ino ∧
          total fileTakes (sortedFiles w.2) .block ≤ b.fs.nblocks - b.fs.next_block) := by
    rintro ⟨c, m⟩ hdir
    have hmade := getdir_made ht hdue hdir
    have hinode := hmade.inode
    refine ((files_metered _ _).completes (List.nil_append _).symm (hmade.adding hs)).trans ?_
    rw [forall_resource]
    unfold left
    dsimp only
    rw [hmade.nblocks, hmade.next_block]
    refine and_congr_right' (and_congr_left' ?_)
    omega
  unfold Build.addDir DirFits
  refine (bind_completes (getdir_pass ht hdue) hfiles).trans ?_
  rw [forall_resource]
  unfold dirTakes left
  dsimp only
  constructor
  · rintro ⟨⟨hlimit, _⟩, hfits, hinode, hblock⟩
    exact ⟨⟨hlimit, hfits⟩, hinode, hblock⟩
  · rintro ⟨⟨hlimit, hfits⟩, hinode, hblock⟩
    exact ⟨⟨hlimit, by omega⟩, hfits, hinode, hblock⟩

/-- A pass over a directory makes it, and takes what the directory does. -/
theorem addDir_walking {done : List (List Str × List HostFile)} {w : List Str × List HostFile}
    (hw : Walking done b) (hdue : Due b w.1) (h : b.addDir limit w = .ok b') :
    Walking (done ++ [w]) b' ∧ ∀ i, left b'.fs i + dirTakes w i = left b.fs i := by
  unfold Build.addDir at h
  obtain ⟨⟨c, m⟩, hdir, hfiles⟩ := bind_eq_ok.mp h
  have hmade := getdir_made hw.tables hdue hdir
  have hadding := hmade.adding hw.small
  obtain ⟨ht, hd, hnb, hni⟩ := files_walking hmade.tables hfiles
  obtain ⟨_, hspent⟩ :=
    (files_metered _ _).spent (List.nil_append (sortedFiles w.2)).symm hadding hfiles
  refine ⟨⟨ht, by rw [hnb, hmade.nblocks]; exact hw.small, fun path => ?_⟩, ?_⟩
  · rw [hd, hmade.dirs, hw.dirs]
    constructor
    · rintro (rfl | hroot | ⟨v, hv, hpath⟩)
      · exact Or.inr ⟨w, by simp, rfl⟩
      · exact Or.inl hroot
      · exact Or.inr ⟨v, List.mem_append_left _ hv, hpath⟩
    · rintro (hroot | ⟨v, hv, hpath⟩)
      · exact Or.inr (Or.inl hroot)
      · rcases List.mem_append.mp hv with hv | hv
        · exact Or.inr (Or.inr ⟨v, hv, hpath⟩)
        · exact Or.inl (List.mem_singleton.mp hv ▸ hpath)
  · have hinode := hmade.inode
    have hi := hspent .inode
    have hb := hspent .block
    rw [forall_resource]
    unfold left at hi hb ⊢
    unfold dirTakes
    dsimp only at hi hb ⊢
    rw [hmade.nblocks, hmade.next_block] at hb
    omega

/-- A directory of the walk is due when those before it have been made. -/
theorem Walking.due {t : HostTree} {done rest : List (List Str × List HostFile)}
    {w : List Str × List HostFile} (hw : Walking done b) (hsplit : t.walk = done ++ w :: rest) :
    Due b w.1 := by
  have hhost : ∀ v ∈ t.walk, ∀ a ∈ v.1, HostName a := fun v hv =>
    hostName_of_objects (List.mem_flatMap.mpr ⟨v, hv, List.mem_cons_self⟩)
  have hself : ∀ a ∈ w.1, HostName a := hhost w (by rw [hsplit]; simp)
  rcases walk_first hsplit with ⟨_, hnil⟩ | ⟨front, name, hname, hfront⟩
  · exact Or.inl hnil
  · obtain ⟨v, hv, rfl⟩ := List.mem_map.mp hfront
    obtain ⟨p, hp⟩ := (hw.dirs (imagePath v.1)).mpr (Or.inr ⟨v, hv, rfl⟩)
    refine Or.inr ⟨v.1, name, p, hname, hself name (by rw [hname]; simp), hp, ?_⟩
    cases hd : b.dirs.get? (imagePath w.1) with
    | none => rfl
    | some m =>
      -- the directories that are there come before it in the walk
      exfalso
      rcases (hw.dirs _).mp ⟨m, hd⟩ with hroot | ⟨u, hu, hpath⟩
      · have hnil : w.1 = [] :=
          imagePath_injective hself (fun a ha => absurd ha List.not_mem_nil) hroot
        rw [hname] at hnil
        simp at hnil
      · have hsame := imagePath_injective hself
          (hhost u (by rw [hsplit]; exact List.mem_append_left _ hu)) hpath
        have hnodup := walk_nodup t
        rw [hsplit, List.map_append, List.nodup_append] at hnodup
        exact hnodup.2.2 u.1 (List.mem_map_of_mem hu) w.1 (by simp) hsame.symm

/-- The directories of a host tree draw on the budgets one by one. -/
theorem walk_metered (limit : ℕ) (t : HostTree) :
    Metered (Build.addDir limit) t.walk Walking (DirFits limit) dirTakes fun b => left b.fs :=
  ⟨fun _ _ _ _ hsplit hw => addDir_pass hw.tables hw.small (hw.due hsplit),
    fun _ _ _ _ _ hsplit hw h => addDir_walking hw (hw.due hsplit) h⟩

end Sys16.MkfsCapacity
