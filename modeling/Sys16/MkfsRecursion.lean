import Sys16.LimitedRuns
import Sys16.MkfsNamespace

/-!
# The recursion of `getdir`

`getdir` calls itself on what `rsplit` leaves of a path until it comes to a
path that it knows. From an absolute path it comes to the root; a path that is
relative and has a separator leads to its first component, which is left as it
is for ever. A build therefore ends, with a result or an error of its own,
exactly when it comes to no such line.
-/

namespace Sys16.MkfsRecursion

open ByteStore PyText PyStruct PyDict HostWalk MkfsImage MkfsBuild MkfsActs MkfsWalk LimitedRuns

variable {b b' : Build} {fs : Fs} {path name line : Str} {n d limit : ℕ} {α : Type}
  {tree : Option HostTree} {spec : List Str} {P : Rule}

/-! ## What does not recurse -/

/-- A computation does not exceed the recursion limit. -/
abbrev Calm (x : Except Failure α) : Prop := Avoids .recursionError x

/-- A field that a line lacks is an `IndexError`, not a recursion that goes too deep. -/
theorem part_calm (parts : List Str) (k : ℕ) : Calm (part parts k) := by
  unfold part
  split
  · exact avoids_ok _
  · exact avoids_error nofun

/-- A key that a dictionary lacks is a `KeyError`. -/
theorem index_calm (dict : Dict Str α) (k : Str) : Calm (index dict k) := by
  unfold index
  split
  · exact avoids_ok _
  · exact avoids_error nofun

/-- The last name of a path comes without recursion. -/
theorem lastName_calm (path : Str) : Calm (lastName path) := by
  unfold lastName
  split
  · exact avoids_ok _
  · exact avoids_error nofun

/-- A text that is no number is a `ValueError`. -/
theorem int_calm (base : ℕ) (s : Str) : Calm (int base s) := by
  unfold int
  dsimp only
  split
  · exact avoids_error nofun
  · split
    · exact avoids_error nofun
    · exact avoids_ok _

/-- A field read as a number fails in one of those two ways only. -/
theorem number_calm (parts : List Str) (k base : ℕ) : Calm (part parts k >>= int base) :=
  (part_calm parts k).bind fun s => int_calm base s

/-- A number out of range is a `struct.error`. -/
theorem pack_calm (f : Format) (x : ℤ) : Calm (f.pack x) := by
  unfold Format.pack
  split
  · exact avoids_ok _
  · exact avoids_error nofun

/-- A character past Latin-1 is a `UnicodeEncodeError`. -/
theorem encodeLatin1_calm (s : Str) : Calm (encodeLatin1 s) := by
  refine avoids_mapM (fun c => ?_) s
  split
  · exact avoids_ok _
  · exact avoids_error nofun

/-- An image out of inodes ends the program, but not in a recursion. -/
theorem alloc_inode_calm (fs : Fs) (mode : ℤ) (uid gid : ℕ) :
    Calm (fs.alloc_inode mode uid gid) := by
  unfold Fs.alloc_inode
  split
  · exact avoids_error nofun
  · exact avoids_ok _

/-- Entering a name in a directory does not call `getdir`. -/
theorem append_calm (b : Build) (path : Str) (e : Entry) : Calm (b.append path e) :=
  (index_calm _ _).bind fun _ => avoids_ok _

/-- Neither does making a directory in one that is known. -/
theorem makedir_calm (b : Build) (path : Str) (parent : ℕ) : Calm (b.makedir path parent) :=
  (alloc_inode_calm _ _ _ _).bind fun _ => (index_calm _ _).bind fun _ =>
    (lastName_calm _).bind fun _ => avoids_ok _

/-- A block that is too long fails its assertion. -/
theorem put_calm (fs : Fs) (blk : ℕ) (buf : Bytes) : Calm (fs.put blk buf) := by
  unfold Fs.put
  split
  · exact avoids_ok _
  · exact avoids_error nofun

/-- An image out of blocks ends the program, but not in a recursion. -/
theorem alloc_block_calm (fs : Fs) : Calm fs.alloc_block := by
  unfold Fs.alloc_block
  split
  · exact avoids_error nofun
  · exact avoids_ok _

/-- The data blocks of a file are stored in a loop. -/
theorem putAll_calm (fs : Fs) (bufs : List Bytes) : Calm (fs.putAll bufs) := by
  induction bufs generalizing fs with
  | nil => exact avoids_ok _
  | cons buf bufs ih =>
    have hnew : Calm (fs.putNew buf) :=
      (alloc_block_calm fs).bind fun _ => (put_calm _ _ _).bind fun _ => avoids_ok _
    exact hnew.bind fun _ => (ih _).bind fun _ => avoids_ok _

/-- The words of an indirect block are packed at once. -/
theorem packWords_calm (words : List ℕ) : Calm (packWords words) :=
  (avoids_mapM (fun _ => pack_calm _ _) words).map

/-- An indirect block is allocated and stored without recursion. -/
theorem putWords_calm (fs : Fs) (words : List ℕ) : Calm (fs.putWords words) :=
  (alloc_block_calm fs).bind fun _ => (packWords_calm words).bind fun _ =>
    (put_calm _ _ _).bind fun _ => avoids_ok _

/-- The blocks under a double-indirect block are stored in a loop. -/
theorem putOuter_calm (fs : Fs) (parts : List (List ℕ)) (outer : List ℕ) :
    Calm (fs.putOuter parts outer) := by
  induction parts generalizing fs outer with
  | nil => exact avoids_ok _
  | cons ws parts ih =>
    refine (putWords_calm fs ws).bind fun r => ?_
    dsimp only
    split
    · exact avoids_error nofun
    · exact ih _ _

/-- A file of any size is stored without recursion. -/
theorem store_data_calm (fs : Fs) (ino : ℕ) (content : Bytes) :
    Calm (fs.store_data ino content) := by
  have hdouble : ∀ (fs : Fs) (rest : List ℕ), Calm (fs.store_double ino rest) := fun fs rest =>
    (putOuter_calm fs _ _).bind fun _ => (putWords_calm _ _).bind fun _ => avoids_ok _
  have hsingle : ∀ (fs : Fs) (rest : List ℕ), Calm (fs.store_single ino rest) := by
    intro fs rest
    refine (putWords_calm fs _).bind fun r => ?_
    dsimp only
    split
    · exact avoids_ok _
    · exact hdouble _ _
  refine (putAll_calm _ _).bind fun r => ?_
  dsimp only
  split
  · exact avoids_ok _
  · exact hsingle _ _

/-- A host file goes into a directory that is already there. -/
theorem addFile_calm (b : Build) (here : Str) (f : HostFile) : Calm (b.addFile here f) := by
  unfold Build.addFile
  split
  · exact avoids_ok _
  · exact (alloc_inode_calm _ _ _ _).bind fun _ => (store_data_calm _ _ _).bind fun _ =>
      append_calm _ _ _

/-- A `link` line looks its target up in the tables. -/
theorem specLink_calm (b : Build) (parent_path name : Str) (parts : List Str) :
    Calm (b.specLink parent_path name parts) := by
  have hlink : ∀ tino, Calm (b.link parent_path name tino) := by
    intro tino
    refine (append_calm _ _ _).bind fun r => ?_
    split
    · exact avoids_ok _
    · exact avoids_error nofun
  have htarget : ∀ (target : Str) (ents : List Entry), Calm (linkTarget target ents) :=
    fun target ents => avoids_foldlM (fun _ _ => (lastName_calm _).bind fun _ => avoids_ok _) _ _
  refine (part_calm _ _).bind fun target => (index_calm _ _).bind fun ents =>
    (htarget _ _).bind fun tino => ?_
  split
  · exact hlink _
  · exact avoids_error nofun

/-- Once the directory of a line is there, the rest of the line does not recurse. -/
theorem specEntry_calm (b : Build) (kind parent_path name : Str) (parts : List Str) :
    Calm (b.specEntry kind parent_path name parts) := by
  unfold Build.specEntry
  split
  · exact specLink_calm _ _ _ _
  · exact (number_calm _ _ _).bind fun _ => (alloc_inode_calm _ _ _ _).bind fun _ =>
      (number_calm _ _ _).bind fun _ => (number_calm _ _ _).bind fun _ => append_calm _ _ _

/-! ## Writing out does not recurse -/

/-- The finished directories are stored one after the other. -/
theorem storeDir_calm (b : Build) (fs : Fs) (p : Str × List Entry) : Calm (b.storeDir fs p) := by
  have hent : ∀ e : Entry, Calm (dirent e.1 e.2) := by
    intro e
    refine (encodeLatin1_calm _).bind fun nm => ?_
    split
    · exact avoids_error nofun
    · exact (pack_calm _ _).bind fun _ => avoids_ok _
  have hblob : Calm (dirBlob p.2) := (avoids_mapM hent p.2).map
  exact hblob.bind fun _ => (index_calm _ _).bind fun _ => store_data_calm _ _ _

/-- The inodes are written in a loop. -/
theorem write_inodes_calm (fs : Fs) : Calm fs.write_inodes := by
  have hpack : ∀ i, Calm (fs.pack_inode i) := fun i =>
    (pack_calm _ _).bind fun _ => (pack_calm _ _).bind fun _ => (pack_calm _ _).bind fun _ =>
      (pack_calm _ _).bind fun _ => (pack_calm _ _).bind fun _ => (pack_calm _ _).bind fun _ =>
        avoids_ok _
  refine (avoids_mapM (fun k => ?_) _).bind fun _ => avoids_ok _
  unfold Fs.inodeWrite
  split
  · exact (hpack _).bind fun _ => avoids_ok _
  · exact avoids_ok _

/-- A block is freed without recursion, also when the list spills. -/
theorem bfree_calm (fs : Fs) (bno : ℕ) : Calm (fs.bfree bno) := by
  have hspill : Calm (fs.spill bno) := by
    unfold Fs.spill
    split
    · exact (pack_calm _ _).bind fun _ => (packWords_calm _).bind fun _ =>
        (put_calm _ _ _).bind fun _ => avoids_ok _
    · exact avoids_ok _
  exact hspill.bind fun _ => avoids_ok _

/-- The free list is built in a loop. -/
theorem build_free_list_calm (fs : Fs) : Calm fs.build_free_list := by
  have hall : ∀ (bs : List ℕ) (fs : Fs), Calm (fs.bfreeAll bs) := by
    intro bs
    induction bs with
    | nil => exact fun _ => avoids_ok _
    | cons k bs ih => exact fun fs => (bfree_calm fs k).bind fun _ => ih _
  exact (bfree_calm _ _).bind fun _ => hall _ _

/-- The fields of the superblock are packed one by one. -/
theorem write_superblock_calm (fs : Fs) : Calm fs.write_superblock :=
  (avoids_mapM (fun _ => (pack_calm _ _).map) _).bind fun _ => (pack_calm _ _).bind fun _ =>
    (pack_calm _ _).bind fun _ => (encodeLatin1_calm _).bind fun _ =>
      (encodeLatin1_calm _).bind fun _ => avoids_ok _

/-- So nothing after the spec lines can recurse too deep. -/
theorem finish_calm (b : Build) : Calm b.finish :=
  (avoids_foldlM (storeDir_calm b) _ _).bind fun _ => (write_inodes_calm _).bind fun _ =>
    (build_free_list_calm _).bind fun _ => (write_superblock_calm _).bind fun _ => avoids_ok _

/-! ## Paths -/

/-- A path from the root. -/
def Absolute (path : Str) : Prop := path.head? = some sep

/-- The directory of an absolute path has one too. -/
theorem absolute_parent (h : Absolute path) : Absolute (parentPath path) := by
  unfold parentPath
  cases hr : rsplit path with
  | none =>
    dsimp only
    split
    · rfl
    · exact h
  | some r =>
    have hsplit := (rsplit_eq_some.mp hr).1
    dsimp only
    split
    · rfl
    · next hne =>
      unfold Absolute at h ⊢
      rw [hsplit, List.head?_append_of_ne_nil _ hne] at h
      exact h

/-- An absolute path has a last name, if an empty one. -/
theorem absolute_lastName (h : Absolute path) : ∃ name, lastName path = .ok name := by
  cases hr : rsplit path with
  | none => exact absurd (List.mem_of_mem_head? h) (rsplit_eq_none.mp hr)
  | some r => exact ⟨r.2, lastName_eq_ok.mpr ⟨r.1, hr⟩⟩

/-- What `getdir` goes on with for a relative path is a relative path again. -/
theorem relative_parent (h : ¬Absolute path) (hne : path ≠ []) :
    ¬Absolute (parentPath path) ∧ parentPath path ≠ [] := by
  unfold parentPath
  cases hr : rsplit path with
  | none =>
    dsimp only
    rw [if_neg hne]
    exact ⟨h, hne⟩
  | some r =>
    have hsplit := (rsplit_eq_some.mp hr).1
    have hp : r.1 ≠ [] := by
      intro hnil
      rw [hnil] at hsplit
      exact h (by rw [hsplit]; rfl)
    dsimp only
    rw [if_neg hp]
    refine ⟨fun hab => h ?_, hp⟩
    unfold Absolute at hab ⊢
    rw [hsplit, List.head?_append_of_ne_nil _ hp]
    exact hab

/-- The directories of a build have absolute paths. -/
def Keyed (b : Build) : Prop := ∀ path d, b.dirs.get? path = some d → Absolute path

/-- Every act of `build` leaves the known directories under absolute paths. -/
theorem Act.keyed (h : Keyed b) (ha : Act P b b') : Keyed b' := by
  cases ha with
  | @mkdir path parent_path name parent ents hnew hparent hents hroom hrule habove hname =>
    intro p m hp
    rcases Dict.get?_set_eq_some.mp hp with ⟨rfl, _⟩ | ⟨_, hold⟩
    · by_contra hrel
      by_cases hne : p = []
      · rw [hne] at hname
        cases hname
      · exact (relative_parent hrel hne).1 (habove ▸ h parent_path parent hparent)
    · exact h p m hold
  | file => exact h
  | node => exact h
  | link => exact h
  | chmod => exact h

/-- So does every run of acts. -/
theorem Leads.keyed (h : Leads P b b') (hb : Keyed b) : Keyed b' :=
  h.invariant (fun _ _ hk ha => Act.keyed hk ha) hb

/-- At the start the root is the one directory known. -/
theorem rooted_keyed : Keyed (rooted fs) := by
  intro path d hd
  rw [(rooted_dirs hd).1]
  rfl

/-! ## `getdir` -/

/-- A known directory takes a single call. -/
theorem getdir_known (hd : b.dirs.get? path = some d) (limit : ℕ) :
    b.getdir (limit + 1) path = .ok (b, d) := by
  unfold Build.getdir
  rw [hd]

/-- An unknown one takes a call for its parent first, under what is left of the limit. -/
theorem getdir_unknown (hd : b.dirs.get? path = none) (limit : ℕ) :
    b.getdir (limit + 1) path =
      b.getdir limit (parentPath path) >>= fun p => p.1.makedir path p.2 := by
  conv_lhs => unfold Build.getdir
  rw [hd]

/-- A call of `getdir` that returns does the same under any larger limit. -/
theorem getdir_stable (b : Build) (path : Str) : Stable fun limit => b.getdir limit path := by
  intro n
  induction n generalizing path with
  | zero => exact fun _ _ _ h => nomatch h
  | succ n ih =>
    intro m r hle h
    obtain ⟨m, rfl⟩ : ∃ k, m = k + 1 := ⟨m - 1, by omega⟩
    dsimp only at h ⊢
    cases hd : b.dirs.get? path with
    | some d =>
      rw [getdir_known hd] at h ⊢
      exact h
    | none =>
      rw [getdir_unknown hd] at h ⊢
      obtain ⟨p, hparent, hmake⟩ := bind_eq_ok.mp h
      exact bind_eq_ok.mpr ⟨p, ih _ m p (by omega) hparent, hmake⟩

/-- From an absolute path the recursion comes to a directory that is known. -/
theorem getdir_settles (ht : Tables b) (h : Absolute path) :
    Settles .recursionError fun limit => b.getdir limit path := by
  induction hlen : path.length using Nat.strong_induction_on generalizing path with
  | _ k ih =>
    cases hd : b.dirs.get? path with
    | some d =>
      refine ⟨.ok (b, d), avoids_ok _, 1, fun n hn => ?_⟩
      obtain ⟨n, rfl⟩ : ∃ k, n = k + 1 := ⟨n - 1, by omega⟩
      exact getdir_known hd n
    | none =>
      have hne : path ≠ [sep] := by
        rintro rfl
        rw [ht.root] at hd
        cases hd
      obtain ⟨name, hname⟩ := absolute_lastName h
      have habove := ih _ (hlen ▸ parentPath_length hname hne) (absolute_parent h) rfl
      obtain ⟨r, hr, L, hL⟩ := (settles_bind_iff (G := fun _ p => p.1.makedir path p.2)
        (getdir_stable b (parentPath path)) habove).mpr
          fun p _ _ => settles_const (makedir_calm _ _ _)
      refine ⟨r, hr, L + 1, fun n hn => ?_⟩
      obtain ⟨n, rfl⟩ : ∃ k, n = k + 1 := ⟨n - 1, by omega⟩
      exact (getdir_unknown hd n).trans (hL n (by omega))

/-- From a relative path it never does. -/
theorem getdir_recurses (hk : Keyed b) (h : ¬Absolute path) (hne : path ≠ []) (limit : ℕ) :
    b.getdir limit path = .error .recursionError := by
  induction limit generalizing path with
  | zero => rfl
  | succ limit ih =>
    obtain ⟨hrel, hne'⟩ := relative_parent h hne
    cases hd : b.dirs.get? path with
    | some d => exact absurd (hk path d hd) h
    | none =>
      rw [getdir_unknown hd, ih hrel hne']
      rfl

/-! ## Spec lines -/

/-- A line that is not blank and has a relative path with a separator. -/
def Relative (line : Str) : Prop :=
  strip (uncomment line) ≠ [] ∧
    ∃ path, part (specWords line) 1 = .ok path ∧ sep ∈ path ∧ ¬Absolute path

/-- A spec line that is applied is applied alike under any larger limit. -/
theorem applyLine_stable (b : Build) (line : Str) : Stable fun limit => b.applyLine limit line := by
  unfold Build.applyLine
  split
  · exact stable_const _
  · refine (stable_const _).bind fun kind => (stable_const _).bind fun path =>
      (stable_const _).bind fun name => ?_
    split
    · exact (getdir_stable b path).bind fun _ => stable_const _
    · exact (getdir_stable b (parentPath path)).bind fun _ => stable_const _

/-- Every other line ends, with a result or an error of its own. -/
theorem applyLine_settles (ht : Tables b) (h : ¬Relative line) :
    Settles .recursionError fun limit => b.applyLine limit line := by
  unfold Build.applyLine
  split
  · exact settles_const (avoids_ok _)
  · next hline =>
    refine (settles_bind_iff (stable_const _) (settles_const (part_calm _ _))).mpr
      fun kind _ _ => ?_
    refine (settles_bind_iff (stable_const _) (settles_const (part_calm _ _))).mpr
      fun path _ hpath => ?_
    refine (settles_bind_iff (stable_const _) (settles_const (lastName_calm _))).mpr
      fun name _ hname => ?_
    obtain ⟨p, hp⟩ := lastName_eq_ok.mp hname
    have hsep : sep ∈ path := by
      rw [(rsplit_eq_some.mp hp).1]
      simp
    have habs : Absolute path := by
      by_contra hrel
      exact h ⟨hline, path, hpath, hsep, hrel⟩
    split
    · refine (settles_bind_iff (getdir_stable b path) (getdir_settles ht habs)).mpr
        fun r _ _ => settles_const ?_
      exact (number_calm _ _ _).bind fun _ => (index_calm _ _).bind fun _ => avoids_ok _
    · exact (settles_bind_iff (getdir_stable b _) (getdir_settles ht (absolute_parent habs))).mpr
        fun r _ _ => settles_const (specEntry_calm _ _ _ _ _)

/-- A line with a relative path recurses without end. -/
theorem applyLine_recurses (hk : Keyed b) (h : Relative line) (limit : ℕ) :
    b.applyLine limit line = .error .recursionError := by
  obtain ⟨hline, path, hpath, hsep, hrel⟩ := h
  have hne : path ≠ [] := by
    rintro rfl
    cases hsep
  have hkind : ∃ kind, part (specWords line) 0 = .ok kind := by
    unfold part at hpath ⊢
    cases hwords : specWords line with
    | nil =>
      rw [hwords] at hpath
      cases hpath
    | cons kind words => exact ⟨kind, rfl⟩
  obtain ⟨kind, hkind⟩ := hkind
  have hname : ∃ name, lastName path = .ok name := by
    cases hr : rsplit path with
    | none => exact absurd hsep (rsplit_eq_none.mp hr)
    | some r => exact ⟨r.2, lastName_eq_ok.mpr ⟨r.1, hr⟩⟩
  obtain ⟨name, hname⟩ := hname
  obtain ⟨hrel', hne'⟩ := relative_parent hrel hne
  unfold Build.applyLine
  rw [if_neg hline]
  dsimp only
  rw [hkind, hpath]
  change (lastName path >>= fun _ => _) = _
  rw [hname]
  change (if kind = str "dir" then b.specDir limit path (specWords line) else
    b.getdir limit (parentPath path) >>= fun _ => _) = _
  split
  · unfold Build.specDir
    rw [getdir_recurses hk hrel hne limit]
    rfl
  · rw [getdir_recurses hk hrel' hne' limit]
    rfl

/-- The loop over the spec lines, with what follows it, ends exactly when it
comes to no line with a relative path. -/
theorem spec_settles_iff {G : Build → Except Failure Build} (hG : ∀ c, Calm (G c))
    (ht : Tables b) (hk : Keyed b) :
    Settles .recursionError (fun limit => spec.foldlM (Build.applyLine limit) b >>= G) ↔
      ∀ before line after, spec = before ++ line :: after →
        (∃ limit c, before.foldlM (Build.applyLine limit) b = .ok c) → ¬Relative line := by
  induction spec generalizing b with
  | nil =>
    refine ⟨fun _ before line after heq => ?_, fun _ => settles_const (hG b)⟩
    exact absurd heq (by simp)
  | cons first spec ih =>
    simp only [List.foldlM_cons, bind_assoc]
    by_cases hrel : Relative first
    · refine ⟨fun h => absurd h (not_settles fun limit => ?_), fun h => ?_⟩
      · rw [applyLine_recurses hk hrel limit]
        rfl
      · exact absurd hrel (h [] first spec rfl ⟨0, b, rfl⟩)
    · rw [settles_bind_iff (applyLine_stable b first) (applyLine_settles ht hrel)]
      have hnext : ∀ c n, b.applyLine n first = .ok c → Tables c ∧ Keyed c := by
        intro c n h
        have hleads := applyLine_leads (N := fun _ => True) ht (fun _ _ _ _ _ => trivial) h
        exact ⟨hleads.tables ht, Leads.keyed hleads hk⟩
      constructor
      · rintro h before line after heq ⟨n, c, hc⟩
        cases before with
        | nil =>
          obtain ⟨rfl, _⟩ := List.cons.inj heq
          exact hrel
        | cons l before =>
          obtain ⟨rfl, htail⟩ := List.cons.inj heq
          rw [List.foldlM_cons] at hc
          obtain ⟨c₁, hone, hrest⟩ := bind_eq_ok.mp hc
          obtain ⟨ht₁, hk₁⟩ := hnext c₁ n hone
          exact (ih ht₁ hk₁).mp (h c₁ n hone) before line after htail ⟨n, c, hrest⟩
      · intro h c₁ n hone
        obtain ⟨ht₁, hk₁⟩ := hnext c₁ n hone
        refine (ih ht₁ hk₁).mpr fun before line after heq hc => ?_
        obtain ⟨m, c, hc⟩ := hc
        refine h (first :: before) line after (congrArg (first :: ·) heq) ⟨max n m, c, ?_⟩
        rw [List.foldlM_cons]
        refine bind_eq_ok.mpr ⟨c₁, applyLine_stable b first n _ c₁ (Nat.le_max_left n m) hone, ?_⟩
        exact Stable.foldlM applyLine_stable before c₁ m _ c (Nat.le_max_right n m) hc

/-! ## A whole build -/

/-- So is a directory of the host tree. -/
theorem addDir_stable (b : Build) (w : List Str × List HostFile) :
    Stable fun limit => b.addDir limit w :=
  (getdir_stable b (imagePath w.1)).bind fun _ => stable_const _

/-- The paths of the host tree on the image are absolute. -/
theorem imagePath_absolute (here : List Str) : Absolute (imagePath here) := by
  unfold imagePath
  split
  · rfl
  · next hne =>
    obtain ⟨name, rest, rfl⟩ := List.exists_cons_of_ne_nil hne
    rfl

/-- The walk over the host tree ends. -/
theorem addTree_settles (ht : Tables b) (tree : Option HostTree) :
    Settles .recursionError fun limit => b.addTree limit tree := by
  cases tree with
  | none => exact settles_const (avoids_ok b)
  | some t =>
    refine settles_foldlM (I := Tables) addDir_stable (fun w _ c hc => ?_) (fun w _ n c c' hc h => ?_) ht
    · refine (settles_bind_iff (getdir_stable c _)
        (getdir_settles hc (imagePath_absolute w.1))).mpr fun r _ _ => settles_const ?_
      exact avoids_foldlM (fun _ _ => addFile_calm _ _ _) _ _
    · obtain ⟨⟨c₁, m⟩, hdir, hfiles⟩ := bind_eq_ok.mp h
      have hc₁ := (getdir_makes (N := fun _ => True) hc (fun _ _ _ => trivial) hdir).leads.tables hc
      exact foldlM_invariant (I := Tables) (fun f _ _ _ ha hadd => addFile_tables ha hadd) hc₁ hfiles

/-- A host tree that is added is added alike under any larger limit. -/
theorem addTree_stable (b : Build) (tree : Option HostTree) :
    Stable fun limit => b.addTree limit tree := by
  cases tree with
  | none => exact stable_const _
  | some t => exact Stable.foldlM addDir_stable t.walk b

/-- Making the root directory does not recurse. -/
theorem start_calm (fs : Fs) : Calm (Build.start fs) := by
  unfold Build.start
  refine (alloc_inode_calm fs _ 0 0).bind fun r => ?_
  dsimp only
  split
  · exact avoids_ok _
  · exact avoids_error nofun

/-- The lines of the spec that a build has applied when it comes to the next one. -/
def Applies (fs : Fs) (tree : Option HostTree) (before : List Str) : Prop :=
  ∃ limit b₀ b₁ c, Build.start fs = .ok b₀ ∧ b₀.addTree limit tree = .ok b₁ ∧
    before.foldlM (Build.applyLine limit) b₁ = .ok c

/-- A build ends, with a result or an error other than that of the recursion
limit and the same under every limit from some depth on, exactly when no line
that it comes to has a relative path with a separator. -/
theorem build_terminates_iff (fs : Fs) (tree : Option HostTree) (spec : List Str) :
    Settles .recursionError (fun limit => build limit fs tree spec) ↔
      ∀ before line after, spec = before ++ line :: after → Applies fs tree before →
        ¬Relative line := by
  unfold build
  cases hstart : Build.start fs with
  | error e =>
    have he : e ≠ .recursionError := by
      rintro rfl
      exact start_calm fs hstart
    refine ⟨fun _ before line after _ happ => ?_, fun _ => settles_const (avoids_error he)⟩
    obtain ⟨_, b₀, _, _, hb₀, _⟩ := happ
    rw [hstart] at hb₀
    cases hb₀
  | ok b₀ =>
    obtain ⟨hroot, _, rfl⟩ := start_eq hstart
    have ht₀ : Tables (rooted fs) := rooted_tables hroot
    change Settles .recursionError (fun limit => (rooted fs).addTree limit tree >>= fun b =>
      spec.foldlM (Build.applyLine limit) b >>= Build.finish) ↔ _
    rw [settles_bind_iff (addTree_stable _ tree) (addTree_settles ht₀ tree)]
    have hnext : ∀ c n, (rooted fs).addTree n tree = .ok c → Tables c ∧ Keyed c := by
      intro c n h
      obtain ⟨done, hvisits⟩ := addTree_visits hroot h
      exact ⟨hvisits.leads.tables ht₀, Leads.keyed hvisits.leads rooted_keyed⟩
    constructor
    · rintro h before line after heq ⟨n, c₀, c₁, c, hc₀, hc₁, hc⟩
      rw [hstart] at hc₀
      cases hc₀
      obtain ⟨ht₁, hk₁⟩ := hnext c₁ n hc₁
      exact (spec_settles_iff finish_calm ht₁ hk₁).mp (h c₁ n hc₁) before line after heq ⟨n, c, hc⟩
    · intro h c₁ n hc₁
      obtain ⟨ht₁, hk₁⟩ := hnext c₁ n hc₁
      refine (spec_settles_iff finish_calm ht₁ hk₁).mpr fun before line after heq hc => ?_
      obtain ⟨m, c, hc⟩ := hc
      refine h before line after heq ⟨max n m, rooted fs, c₁, c, hstart, ?_, ?_⟩
      · exact addTree_stable _ tree n _ c₁ (Nat.le_max_left n m) hc₁
      · exact Stable.foldlM applyLine_stable before c₁ m _ c (Nat.le_max_right n m) hc

/-- A relative path with a separator: `getdir` comes to its first component,
and from there to the same path again. -/
theorem relative_path_recurses :
    ¬Settles .recursionError fun limit => build limit (Fs.init 0 40 512) none
      [str "dir foo/bar 0755"] := by
  refine not_settles fun limit => ?_
  have hstart : Build.start (Fs.init 0 40 512) = .ok (rooted (Fs.init 0 40 512)) := rfl
  have hrel : Relative (str "dir foo/bar 0755") := by
    have hwords : part (specWords (str "dir foo/bar 0755")) 1 = .ok (str "foo/bar") := by
      decide +kernel
    exact ⟨by decide +kernel, str "foo/bar", hwords, by decide, by unfold Absolute; decide⟩
  unfold build
  rw [hstart]
  change ((rooted (Fs.init 0 40 512)).applyLine limit (str "dir foo/bar 0755") >>= pure) >>=
    Build.finish = _
  rw [applyLine_recurses rooted_keyed hrel limit]
  rfl

end Sys16.MkfsRecursion
