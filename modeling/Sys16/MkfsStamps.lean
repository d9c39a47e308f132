import Sys16.MkfsCapacity
import Sys16.MkfsPacking

/-!
# The inodes of a host tree

What the walk leaves in the inodes: modes that fit, one link to each file, and
as many links to a directory as it has subdirectories besides its own two. The
contents of the directories are stored next, which only fills in sizes and
addresses.
-/

namespace Sys16.MkfsStamps

open Function PyText PyStruct PyDict HostWalk ByteStore Budgets MkfsImage MkfsBlocks MkfsBuild
open MkfsActs MkfsWalk MkfsAccounting MkfsFinish MkfsCapacity MkfsPacking

variable {b b' : Build} {fs fs' : Fs} {path name : Str} {here front : List Str} {n d limit ino : ℕ}
  {content : Bytes} {f : HostFile} {i : Inode} {subs : List Str → ℕ}

/-- A file that needs no triple indirection has a size that fits. -/
theorem size_of_outer (h : outerCount (dataCount content) ≤ NINDIR) : content.length < 2 ^ 32 := by
  have hle := (outerCount_le _).mp h
  have hB : BSIZE = 1024 := rfl
  unfold dataCount chunkCount at hle
  rw [hB] at hle
  omega

/-- An inode whose fields fit, but for its links. -/
structure PlainInode (i : Inode) : Prop where
  mode : 0 ≤ i.mode ∧ i.mode < 2 ^ 16
  uid : i.uid < 2 ^ 16
  gid : i.gid < 2 ^ 16
  size : i.size < 2 ^ 32

/-- The inodes of a build, for the number of subdirectories that each directory
has so far. -/
structure Stamped (subs : List Str → ℕ) (b : Build) : Prop where
  next : 1 ≤ b.fs.next_ino ∧ b.fs.next_ino ≤ b.fs.ninodes
  fresh : ∀ n i, b.fs.inodes n = some i → 1 ≤ n ∧ n < b.fs.next_ino
  dirs : ∀ here, (∀ a ∈ here, HostName a) → ∀ n, b.dirs.get? (imagePath here) = some n →
    ∃ i, b.fs.inodes n = some i ∧ i.nlink = 2 + subs here
  plain : ∀ n i, b.fs.inodes n = some i →
    PlainInode i ∧ (i.nlink = 1 ∨ ∃ path, b.dirs.get? path = some n)

/-! ## The walk -/

/-- The mode of a copied file fits its field. -/
theorem fileMode_range (executable : Bool) :
    0 ≤ Int.lor S_IFREG (if executable then 0o755 else 0o644) ∧
      Int.lor S_IFREG (if executable then 0o755 else 0o644) < 2 ^ 16 := by
  cases executable
  · decide
  · decide

/-- The inode of a file that has been added. -/
theorem addFile_inodes (hlink : f.islink = false) (h : b.addFile path f = .ok b') :
    ∃ i, b'.fs.inodes = update b.fs.inodes b.fs.next_ino (some i) ∧ PlainInode i ∧ i.nlink = 1 ∧
      b'.dirs = b.dirs ∧ b'.fs.next_ino = b.fs.next_ino + 1 ∧ b'.fs.ninodes = b.fs.ninodes ∧
      b.fs.next_ino < b.fs.ninodes := by
  obtain ⟨fs', ents, hents, hroom, hstore, rfl⟩ := addFile_eq hlink h
  obtain ⟨_, hni, hnext, _⟩ := store_data_next hstore
  have hinodes := store_data_inodes hstore
  rw [inodes_modify, inodes_allocated, update_self, update_idem] at hinodes
  have hsize := size_of_outer (store_data_completes.mp ⟨_, hstore⟩).2.1
  exact ⟨_, hinodes, ⟨fileMode_range f.executable, Nat.two_pow_pos 16, Nat.two_pow_pos 16, hsize⟩,
    rfl, rfl, hnext, hni, hroom⟩

/-- Adding a file keeps the inodes stamped. -/
theorem addFile_stamped (ht : Tables b) (h : Stamped subs b) (hadd : b.addFile path f = .ok b') :
    Stamped subs b' := by
  cases hlink : f.islink with
  | true =>
    rw [addFile_link hlink hadd]
    exact h
  | false =>
    obtain ⟨i, hinodes, hplain, hone, hdirs, hnext, hni, hroom⟩ := addFile_inodes hlink hadd
    obtain ⟨hpos, _⟩ := h.next
    refine ⟨⟨by omega, by omega⟩, fun n j hj => ?_, fun here hhost n hd => ?_, fun n j hj => ?_⟩
    · rw [hinodes] at hj
      by_cases hn : n = b.fs.next_ino
      · exact ⟨by omega, by omega⟩
      · rw [update_of_ne hn] at hj
        obtain ⟨h1, h2⟩ := h.fresh n j hj
        exact ⟨h1, by omega⟩
    · rw [hdirs] at hd
      have hlt := ht.dirs_lt _ n hd
      rw [hinodes, update_of_ne (by omega)]
      exact h.dirs here hhost n hd
    · rw [hinodes] at hj
      rw [hdirs]
      by_cases hn : n = b.fs.next_ino
      · rw [hn, update_self] at hj
        exact Option.some.inj hj ▸ ⟨hplain, Or.inl hone⟩
      · rw [update_of_ne hn] at hj
        exact h.plain n j hj

/-- The inodes once a directory has been made. -/
theorem withDir_inodes {parent : ℕ} (hne : parent ≠ fs.next_ino) (m : ℕ) :
    (withDir fs parent).inodes m =
      if m = fs.next_ino then some { Inode.new (Int.lor S_IFDIR 0o755) 0 0 with nlink := 2 }
      else if m = parent then (fs.inodes parent).map fun i => { i with nlink := i.nlink + 1 }
      else fs.inodes m := by
  unfold withDir
  rw [inodes_modify, inodes_modify, inodes_allocated, update_self, update_idem]
  by_cases hm : m = fs.next_ino
  · rw [if_pos hm, hm, update_of_ne hne.symm, update_self]
    rfl
  · rw [if_neg hm]
    by_cases hp : m = parent
    · rw [if_pos hp, hp, update_self, update_of_ne hne]
    · rw [if_neg hp, update_of_ne hp, update_of_ne hm]

/-- Making a directory keeps the inodes stamped, its parent with one subdirectory more. -/
theorem makedir_stamped {p : ℕ} (ht : Tables b) (h : Stamped subs b)
    (hhost : ∀ a ∈ front ++ [name], HostName a)
    (hnew : b.dirs.get? (imagePath (front ++ [name])) = none)
    (hparent : b.dirs.get? (imagePath front) = some p) (hnone : subs (front ++ [name]) = 0)
    (hmake : b.makedir (imagePath (front ++ [name])) p = .ok (b', d)) :
    Stamped (fun here => subs here + if here = front then 1 else 0) b' := by
  have hfront : ∀ a ∈ front, HostName a := fun a ha => hhost a (List.mem_append_left _ ha)
  have hpath := parentPath_imagePath front (hhost name (by simp))
  obtain ⟨ents, nm, _, _, hroom, _, rfl⟩ := makedir_eq hmake hnew (hpath.symm ▸ hparent)
  have hlt := ht.dirs_lt _ p hparent
  have hne : p ≠ b.fs.next_ino := by omega
  have hinodes := withDir_inodes hne
  obtain ⟨hpos, _⟩ := h.next
  have hdirs : ∀ q n, (b.dirs.set (imagePath (front ++ [name])) b.fs.next_ino).get? q = some n →
      q = imagePath (front ++ [name]) ∧ n = b.fs.next_ino ∨ b.dirs.get? q = some n := by
    intro q n hq
    rcases Dict.get?_set_eq_some.mp hq with hself | ⟨_, hold⟩
    · exact Or.inl hself
    · exact Or.inr hold
  refine ⟨⟨Nat.le_succ_of_le hpos, hroom⟩, fun n j hj => ?_, fun here hhere n hd => ?_,
    fun n j hj => ?_⟩
  · rw [hinodes] at hj
    have hnext : (withDir b.fs p).next_ino = b.fs.next_ino + 1 := rfl
    by_cases hn : n = b.fs.next_ino
    · exact ⟨by omega, by dsimp only; omega⟩
    · rw [if_neg hn] at hj
      obtain ⟨j', hj'⟩ : ∃ j', b.fs.inodes n = some j' := by
        by_cases hp : n = p
        · rw [if_pos hp, Option.map_eq_some_iff] at hj
          obtain ⟨j', hj', _⟩ := hj
          exact ⟨j', by rw [hp]; exact hj'⟩
        · exact ⟨j, by rw [if_neg hp] at hj; exact hj⟩
      obtain ⟨h1, h2⟩ := h.fresh n j' hj'
      exact ⟨h1, by dsimp only; omega⟩
  · rw [hinodes]
    rcases hdirs _ n hd with ⟨hq, rfl⟩ | hold
    · obtain rfl := imagePath_injective hhere hhost hq
      refine ⟨_, if_pos rfl, ?_⟩
      rw [hnone, if_neg (by simp)]
    · have hn := ht.dirs_lt _ n hold
      obtain ⟨j, hj, hlink⟩ := h.dirs here hhere n hold
      rw [if_neg (by omega)]
      by_cases hp : n = p
      · have hsame : here = front := imagePath_injective hhere hfront
          (Dict.key_unique ht.inj hold (hp ▸ hparent))
        rw [if_pos hp, ← hp, hj]
        exact ⟨_, rfl, by rw [if_pos hsame]; dsimp only; omega⟩
      · have hother : here ≠ front := by
          rintro rfl
          exact hp (Option.some.inj (hold.symm.trans hparent))
        rw [if_neg hp, if_neg hother]
        exact ⟨j, hj, hlink⟩
  · have hgrows : ∀ m q, b.dirs.get? q = some m →
        ∃ q, (b.dirs.set (imagePath (front ++ [name])) b.fs.next_ino).get? q = some m :=
      fun m q hq => ⟨q, Dict.get?_set_new hnew hq⟩
    rw [hinodes] at hj
    by_cases hn : n = b.fs.next_ino
    · rw [if_pos hn] at hj
      rw [← Option.some.inj hj, hn]
      exact ⟨⟨by decide, Nat.two_pow_pos 16, Nat.two_pow_pos 16, Nat.two_pow_pos 32⟩,
        Or.inr ⟨_, Dict.get?_set_self _ _ _⟩⟩
    · rw [if_neg hn] at hj
      by_cases hp : n = p
      · rw [if_pos hp, Option.map_eq_some_iff] at hj
        obtain ⟨jp, hjp, rfl⟩ := hj
        obtain ⟨hplain, _⟩ := h.plain p jp hjp
        exact ⟨⟨hplain.mode, hplain.uid, hplain.gid, hplain.size⟩, Or.inr (hp ▸ hgrows p _ hparent)⟩
      · rw [if_neg hp] at hj
        obtain ⟨hplain, hlink⟩ := h.plain n j hj
        exact ⟨hplain, hlink.imp_right fun ⟨q, hq⟩ => hgrows n q hq⟩

/-- The subdirectories of a directory that a walk has. -/
def subdirs (walk : List (List Str × List HostFile)) (here : List Str) : ℕ :=
  walk.countP fun w => w.1 ≠ [] ∧ w.1.dropLast = here

variable {t : HostTree} {before rest : List (List Str × List HostFile)}
  {w : List Str × List HostFile}

/-- One more directory of the walk is one more subdirectory of its parent. -/
theorem subdirs_concat (walk : List (List Str × List HostFile)) (w : List Str × List HostFile)
    (here : List Str) : subdirs (walk ++ [w]) here =
      subdirs walk here + if w.1 ≠ [] ∧ w.1.dropLast = here then 1 else 0 := by
  unfold subdirs
  rw [List.countP_append, List.countP_singleton]
  simp only [decide_eq_true_eq]

/-- A directory has no subdirectory before it has been made. -/
theorem subdirs_before (hsplit : t.walk = before ++ w :: rest) : subdirs before w.1 = 0 := by
  refine List.countP_eq_zero.mpr fun v hv hsub => ?_
  obtain ⟨hne, hself⟩ := of_decide_eq_true hsub
  obtain ⟨xs, ys, rfl⟩ := List.append_of_mem hv
  have hv' : t.walk = xs ++ v :: (ys ++ w :: rest) := by rw [hsplit]; simp
  rcases walk_first hv' with ⟨_, hnil⟩ | ⟨front, name, hname, hfront⟩
  · exact hne hnil
  · rw [hname, List.dropLast_concat] at hself
    have hnodup := walk_nodup t
    rw [hsplit, List.map_append, List.nodup_append] at hnodup
    refine hnodup.2.2 w.1 ?_ w.1 (by simp) rfl
    rw [List.map_append]
    exact List.mem_append_left _ (hself ▸ hfront)

/-- One step of the walk keeps the inodes stamped with the subdirectories seen so far. -/
theorem addDir_stamped (hsplit : t.walk = before ++ w :: rest) (hw : Walking before b)
    (h : Stamped (subdirs before) b) (hadd : b.addDir limit w = .ok b') :
    Stamped (subdirs (before ++ [w])) b' := by
  unfold Build.addDir at hadd
  obtain ⟨⟨c, m⟩, hdir, hfiles⟩ := bind_eq_ok.mp hadd
  have hc : Stamped (subdirs (before ++ [w])) c := by
    rcases hw.due hsplit with hroot | ⟨front, name, p, hself, hname, hparent, hnew⟩
    · have hsame : subdirs (before ++ [w]) = subdirs before := by
        funext here
        rw [subdirs_concat, if_neg fun hne => hne.1 hroot, Nat.add_zero]
      rw [hroot] at hdir
      obtain ⟨rfl, _⟩ := getdir_old hw.tables.root hdir
      rwa [hsame]
    · have hsubs : subdirs (before ++ [w]) =
          fun here => subdirs before here + if here = front then 1 else 0 := by
        funext here
        rw [subdirs_concat, hself, List.dropLast_concat]
        refine congrArg (_ + ·) (if_congr ?_ rfl rfl)
        exact ⟨fun hh => hh.2.symm, fun hh => ⟨by simp, hh.symm⟩⟩
      have hnone := subdirs_before hsplit
      have hhost : ∀ a ∈ w.1, HostName a := hostName_of_objects (t := t)
        (List.mem_flatMap.mpr ⟨w, by rw [hsplit]; simp, List.mem_cons_self⟩)
      rw [hself] at hdir hnew hnone hhost
      obtain ⟨_, b₁, q, _, habove, hnew₁, hparent₁, hmake⟩ := getdir_new hw.tables hdir hnew
      rw [parentPath_imagePath front hname] at habove hparent₁
      obtain ⟨rfl, _⟩ := getdir_old hparent habove
      rw [hsubs]
      exact makedir_stamped hw.tables h hhost hnew₁ hparent₁ hnone hmake
  have htc := (getdir_made hw.tables (hw.due hsplit) hdir).tables
  exact (foldlM_invariant (I := fun x => Tables x ∧ Stamped (subdirs (before ++ [w])) x)
    (fun f _ _ _ hx hone => ⟨addFile_tables hx.1 hone, addFile_stamped hx.1 hx.2 hone⟩)
    ⟨htc, hc⟩ hfiles).2

/-- The filesystem before anything has been put on it. -/
structure Empty (fs : Fs) : Prop where
  root : fs.next_ino = ROOTINO
  room : fs.next_ino < fs.ninodes
  inodes : ∀ n, fs.inodes n = none
  stored : fs.stored = []

/-- The walk starts from the root. -/
theorem rooted_walking (he : Empty fs) (hs : fs.nblocks ≤ 2 ^ 32) : Walking [] (rooted fs) := by
  refine ⟨rooted_tables he.root, hs, fun path => ⟨fun ⟨d, hd⟩ => Or.inl (rooted_dirs hd).1, ?_⟩⟩
  rintro (rfl | ⟨w, hw, _⟩)
  · exact ⟨_, (rooted_tables he.root).root⟩
  · cases hw

/-- The root is stamped before anything is walked. -/
theorem rooted_stamped (he : Empty fs) : Stamped (subdirs []) (rooted fs) := by
  have hinodes : ∀ m, (rooted fs).fs.inodes m = if m = ROOTINO then
      some { Inode.new (Int.lor S_IFDIR 0o755) 0 0 with nlink := 2 } else none := by
    intro m
    change (Fs.modify _ _ _).inodes m = _
    rw [inodes_modify, inodes_allocated, update_self, update_idem, he.root]
    by_cases hm : m = ROOTINO
    · rw [hm, update_self, if_pos rfl]
      rfl
    · rw [update_of_ne hm, if_neg hm]
      exact he.inodes m
  have hroot := he.root
  have hroom := he.room
  have hnext : (rooted fs).fs.next_ino = fs.next_ino + 1 := rfl
  have hni : (rooted fs).fs.ninodes = fs.ninodes := rfl
  have htwo : ROOTINO = 2 := rfl
  refine ⟨⟨by omega, by omega⟩, fun n i hi => ?_, fun here hhost n hd => ?_, fun n i hi => ?_⟩
  · rw [hinodes] at hi
    by_cases hn : n = ROOTINO
    · exact ⟨by omega, by omega⟩
    · rw [if_neg hn] at hi
      cases hi
  · rw [(rooted_dirs hd).2, hinodes, if_pos rfl]
    exact ⟨_, rfl, rfl⟩
  · rw [hinodes] at hi
    by_cases hn : n = ROOTINO
    · rw [if_pos hn] at hi
      rw [← Option.some.inj hi, hn]
      exact ⟨⟨by decide, Nat.two_pow_pos 16, Nat.two_pow_pos 16, Nat.two_pow_pos 32⟩,
        Or.inr ⟨_, (rooted_tables he.root).root⟩⟩
    · rw [if_neg hn] at hi
      cases hi

/-- The inodes once the whole tree has been added. -/
theorem walk_stamped (he : Empty fs) (hs : fs.nblocks ≤ 2 ^ 32)
    (h : t.walk.foldlM (Build.addDir limit) (rooted fs) = .ok b) :
    Stamped (subdirs t.walk) b :=
  (foldlM_through (I := fun before b => Walking before b ∧ Stamped (subdirs before) b)
    (fun _ _ _ _ _ hsplit hx hone => ⟨(addDir_walking hx.1 (hx.1.due hsplit) hone).1,
      addDir_stamped hsplit hx.1 hx.2 hone⟩)
    (List.nil_append t.walk).symm ⟨rooted_walking he hs, rooted_stamped he⟩ h).2

/-! ## The directories -/

/-- The blocks of a directory with a number of entries. -/
def dirCost (k : ℕ) : ℕ := cost (chunkCount BSIZE (k * 16))

/-- What storing a directory takes. -/
def storeTakes (p : Str × List Entry) : Resource → ℕ
  | .inode => 0
  | .block => dirCost p.2.length

/-- A directory that can be stored. -/
def StoreFits (p : Str × List Entry) : Prop :=
  (∀ e ∈ p.2, NameFits e.2 ∧ e.1 < 2 ^ 16) ∧ outerCount (chunkCount BSIZE (p.2.length * 16)) ≤ NINDIR

variable {p : Str × List Entry}

/-- `storeDir` completes exactly when the directory fits and its blocks are there. -/
theorem storeDir_pass (hd : ∃ d, b.dirs.get? p.1 = some d) (hs : fs.nblocks ≤ 2 ^ 32) :
    (∃ fs', b.storeDir fs p = .ok fs') ↔ StoreFits p ∧ ∀ i, storeTakes p i ≤ left fs i := by
  obtain ⟨d, hd⟩ := hd
  have hstore : ∀ blob, dirBlob p.2 = .ok blob →
      ((∃ fs', (index b.dirs p.1 >>= fun d => fs.store_data d blob) = .ok fs') ↔
        outerCount (chunkCount BSIZE (p.2.length * 16)) ≤ NINDIR ∧
          dirCost p.2.length ≤ fs.nblocks - fs.next_block) := by
    intro blob hblob
    rw [index_eq_ok.mpr hd]
    refine (store_data_fits hs).trans ?_
    rw [fileCost_eq, dataCount, length_dirBlob hblob]
    rfl
  unfold Build.storeDir StoreFits
  refine (bind_completes dirBlob_completes hstore).trans ?_
  rw [forall_resource, and_assoc]
  exact and_congr_right' (and_congr_right' (and_iff_right (Nat.zero_le _)).symm)

/-- A completed `storeDir` leaves what it did not take. -/
theorem storeDir_left (h : b.storeDir fs p = .ok fs') :
    fs'.nblocks = fs.nblocks ∧ ∀ i, left fs' i + storeTakes p i = left fs i := by
  obtain ⟨blob, d, hblob, _, hstore⟩ := storeDir_eq h
  obtain ⟨hnb, hni, hnext, hblock⟩ := store_data_next hstore
  have hcover := (store_data_completes.mp ⟨fs', hstore⟩).1
  have hcost : fileCost blob = dirCost p.2.length := by
    rw [fileCost_eq, dataCount, length_dirBlob hblob]
    rfl
  refine ⟨hnb, ?_⟩
  rw [forall_resource]
  unfold left storeTakes
  dsimp only
  rw [hnb, hni, hnext, hblock, hcost]
  rw [hcost] at hcover
  omega

/-- The directories draw on the blocks one by one. -/
theorem dirs_metered (hb : ∀ p ∈ b.entries.items, ∃ d, b.dirs.get? p.1 = some d) :
    Metered b.storeDir b.entries.items (fun _ fs => fs.nblocks ≤ 2 ^ 32) StoreFits storeTakes left :=
  ⟨fun _ p _ _ hsplit hs => storeDir_pass (hb p (by rw [hsplit]; simp)) hs,
    fun _ _ _ _ _ _ hs h => ⟨(storeDir_left h).1 ▸ hs, (storeDir_left h).2⟩⟩

/-- Inodes that differ in sizes and addresses only, with sizes that fit. -/
structure Restocked (fs fs' : Fs) : Prop where
  old : ∀ n i', fs'.inodes n = some i' → ∃ i, fs.inodes n = some i ∧ i'.nlink = i.nlink ∧
    (PlainInode i → PlainInode i')
  new : ∀ n i, fs.inodes n = some i → ∃ i', fs'.inodes n = some i' ∧ i'.nlink = i.nlink

theorem Restocked.refl (fs : Fs) : Restocked fs fs :=
  ⟨fun _ i hi => ⟨i, hi, rfl, id⟩, fun _ i hi => ⟨i, hi, rfl⟩⟩

/-- Restocking twice is restocking. -/
theorem Restocked.trans {fs'' : Fs} (h : Restocked fs fs') (k : Restocked fs' fs'') :
    Restocked fs fs'' := by
  refine ⟨fun n i'' hi'' => ?_, fun n i hi => ?_⟩
  · obtain ⟨i', hi', hlink', hplain'⟩ := k.old n i'' hi''
    obtain ⟨i, hi, hlink, hplain⟩ := h.old n i' hi'
    exact ⟨i, hi, hlink'.trans hlink, fun hp => hplain' (hplain hp)⟩
  · obtain ⟨i', hi', hlink⟩ := h.new n i hi
    obtain ⟨i'', hi'', hlink'⟩ := k.new n i' hi'
    exact ⟨i'', hi'', hlink'.trans hlink⟩

/-- Storing a file changes sizes and addresses of inodes only. -/
theorem store_data_restocked (h : fs.store_data ino content = .ok fs') : Restocked fs fs' := by
  have hinodes := store_data_inodes h
  rw [inodes_modify] at hinodes
  have hsize := size_of_outer (store_data_completes.mp ⟨fs', h⟩).2.1
  refine ⟨fun n i' hi' => ?_, fun n i hi => ?_⟩
  · rw [hinodes] at hi'
    by_cases hn : n = ino
    · rw [hn, update_self, Option.map_eq_some_iff] at hi'
      obtain ⟨i, hi, rfl⟩ := hi'
      exact ⟨i, by rw [hn]; exact hi, rfl, fun hp => ⟨hp.mode, hp.uid, hp.gid, hsize⟩⟩
    · rw [update_of_ne hn] at hi'
      exact ⟨i', hi', rfl, id⟩
  · rw [hinodes]
    by_cases hn : n = ino
    · rw [hn] at hi ⊢
      rw [update_self, hi]
      exact ⟨_, rfl, rfl⟩
    · rw [update_of_ne hn]
      exact ⟨i, hi, rfl⟩

/-- Storing the directories changes sizes and addresses of inodes only. -/
theorem storeDirs_restocked {items : List (Str × List Entry)}
    (h : items.foldlM b.storeDir fs = .ok fs') : Restocked fs fs' := by
  refine foldlM_invariant (I := Restocked fs) (fun p _ g g' hg hone => ?_) (.refl fs) h
  obtain ⟨_, _, _, _, hstore⟩ := storeDir_eq hone
  exact hg.trans (store_data_restocked hstore)

end Sys16.MkfsStamps
