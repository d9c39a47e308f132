import Sys16.HostFiles
import Sys16.TreeExtract

/-!
# From the host to an image and back

`tools/mkfs.py` builds an image from a host tree, and `tools/s5extract.py`
extracts that image. Every entry of a directory of the image stands for a
directory or a regular file of the tree, and every one of those is there, so
that the directory which is extracted is the tree: without its symbolic links,
and without what is more than thirteen names down.
-/

namespace Sys16.TreeRoundTrip

open PyText PyStruct PyDict PosixPath HostWalk MkfsImage MkfsBlocks MkfsBuild MkfsActs MkfsWalk
open MkfsFinish MkfsKinds MkfsRoundTrip S5Reader S5Walk S5Extract TreeExtract HostFiles

variable {b b' : Build} {fs fs' : Fs} {path name : Str} {names here front : List Str} {n d limit : ℕ}
  {ents : List Entry} {e : Entry} {f : HostFile} {walk : List (List Str × List HostFile)}
  {t : HostTree} {node : Node} {o : Object}

/-! ## The nodes of a host tree -/

/-- What a directory of a walk has besides symbolic links. -/
def nodesIn (w : List Str × List HostFile) : List Object :=
  (w.1, .dir) :: (sortedFiles w.2).filterMap fun f =>
    if f.islink then none else some (w.1 ++ [f.name], .file f.content f.executable)

/-- The directories and the regular files of a walk. -/
def nodes (walk : List (List Str × List HostFile)) : List Object := walk.flatMap nodesIn

/-- A node is a directory of the walk or one of its regular files. -/
theorem mem_nodes : o ∈ nodes walk ↔ (o.2 = .dir ∧ o.1 ∈ walk.map Prod.fst) ∨
    ∃ here f, (here, f) ∈ hostFiles walk ∧ f.islink = false ∧
      o = (here ++ [f.name], .file f.content f.executable) := by
  unfold nodes nodesIn hostFiles
  simp only [List.mem_flatMap, List.mem_cons, List.mem_filterMap, List.mem_map, Prod.mk.injEq]
  constructor
  · rintro ⟨w, hw, rfl | ⟨f, hf, ho⟩⟩
    · exact Or.inl ⟨rfl, w, hw, rfl⟩
    · cases hlink : f.islink with
      | true =>
        rw [hlink, if_pos rfl] at ho
        cases ho
      | false =>
        rw [hlink, if_neg Bool.false_ne_true] at ho
        exact Or.inr ⟨w.1, f, ⟨w, hw, f, hf, rfl, rfl⟩, hlink, (Option.some.inj ho).symm⟩
  · rintro (⟨hdir, w, hw, hself⟩ | ⟨here, f, ⟨w, hw, g, hg, rfl, rfl⟩, hlink, rfl⟩)
    · exact ⟨w, hw, Or.inl (Prod.ext hself.symm hdir)⟩
    · exact ⟨w, hw, Or.inr ⟨g, hg, by rw [hlink]; rfl⟩⟩

/-- Each node has its own names. -/
theorem nodes_nodup (t : HostTree) : ((nodes t.walk).map Prod.fst).Nodup := by
  refine List.Nodup.sublist ?_ (objects_nodup t)
  unfold nodes objects
  rw [List.map_flatMap]
  refine List.Sublist.flatMap_right _ fun w _ => ?_
  unfold nodesIn
  rw [List.map_cons]
  refine List.Sublist.cons_cons _ ?_
  induction sortedFiles w.2 with
  | nil => exact List.Sublist.slnil
  | cons f files ih =>
    cases hlink : f.islink with
    | true =>
      rw [List.filterMap_cons_none (by rw [hlink]; rfl), List.map_cons]
      exact ih.cons _
    | false =>
      rw [List.filterMap_cons_some (by rw [hlink]; rfl), List.map_cons, List.map_cons]
      exact ih.cons_cons _

/-- The directory above one of the walk is in the walk. -/
theorem walk_above (h : front ++ [name] ∈ t.walk.map Prod.fst) : front ∈ t.walk.map Prod.fst := by
  obtain ⟨w, hw, hself⟩ := List.mem_map.mp h
  obtain ⟨done, rest, hsplit⟩ := List.append_of_mem hw
  rcases walk_first hsplit with ⟨_, hnil⟩ | ⟨front', name', hw', hfront⟩
  · exact absurd (hself.symm.trans hnil) (by simp)
  · obtain rfl := List.append_inj_left' (hself.symm.trans hw') rfl
    rw [hsplit, List.map_append]
    exact List.mem_append_left _ hfront

/-- What is on the way to a node is a directory. -/
theorem nodes_above (h : (names, node) ∈ nodes t.walk) (hfront : front <+: names)
    (hne : front ≠ names) : (front, .dir) ∈ nodes t.walk := by
  induction names using List.reverseRecOn generalizing node with
  | nil => exact absurd (List.prefix_nil.mp hfront) hne
  | append_singleton names a ih =>
    have hdir : (names, .dir) ∈ nodes t.walk := by
      rcases mem_nodes.mp h with ⟨_, hmem⟩ | ⟨here, f, hf, _, ho⟩
      · exact mem_nodes.mpr (Or.inl ⟨rfl, walk_above hmem⟩)
      · obtain rfl := List.append_inj_left' (Prod.mk.inj ho).1 rfl
        obtain ⟨w, hw, hpair⟩ := List.mem_flatMap.mp hf
        obtain ⟨g, _, hg⟩ := List.mem_map.mp hpair
        exact mem_nodes.mpr (Or.inl ⟨rfl, List.mem_map.mpr ⟨w, hw, (Prod.mk.inj hg).1⟩⟩)
    rcases List.prefix_concat_iff.mp hfront with rfl | hprefix
    · exact absurd rfl hne
    · by_cases heq : front = names
      · exact heq ▸ hdir
      · exact ih hdir hprefix heq

/-- The names of a node are names of the host. -/
theorem hostName_of_nodes (h : o ∈ nodes t.walk) : ∀ a ∈ o.1, HostName a := by
  have hsub : o.1 ∈ objects t.walk := by
    unfold objects
    rcases mem_nodes.mp h with ⟨_, hmem⟩ | ⟨here, f, hf, _, rfl⟩
    · obtain ⟨w, hw, hself⟩ := List.mem_map.mp hmem
      exact List.mem_flatMap.mpr ⟨w, hw, hself ▸ List.mem_cons_self⟩
    · obtain ⟨w, hw, hpair⟩ := List.mem_flatMap.mp hf
      obtain ⟨g, hg, hpair⟩ := List.mem_map.mp hpair
      obtain ⟨rfl, rfl⟩ := Prod.mk.inj hpair
      exact List.mem_flatMap.mpr ⟨w, hw, List.mem_cons_of_mem _ (List.mem_map.mpr ⟨g, hg, rfl⟩)⟩
  exact hostName_of_objects hsub

/-! ## What entries stand for -/

/-- The mode of a host file on an image. -/
def fileMode (f : HostFile) : ℤ := Int.lor S_IFREG (if f.executable then 0o755 else 0o644)

/-- The mode of a file is that of a regular one. -/
theorem reg_fileMode (f : HostFile) : S_ISREG (fileMode f) = true := file_mode f.executable

/-- And has an execute bit when the file has. -/
theorem executable_fileMode (f : HostFile) :
    Int.land (fileMode f) 0o111 ≠ 0 ↔ f.executable = true := by
  unfold fileMode
  cases f.executable
  · decide
  · decide

/-- What an entry of a directory of a build stands for. -/
inductive Stands (walk : List (List Str × List HostFile)) (b : Build) (path : Str) (e : Entry) :
    Prop
  | dots (h : e.2 = str "." ∨ e.2 = str "..")
  | dir {here : List Str} (hpath : path = imagePath here)
      (hmem : here ++ [e.2] ∈ walk.map Prod.fst)
      (hd : b.dirs.get? (imagePath (here ++ [e.2])) = some e.1)
  | file {here : List Str} {f : HostFile} (hpath : path = imagePath here)
      (hf : (here, f) ∈ hostFiles walk) (hlink : f.islink = false) (hname : e.2 = f.name)
      (hstored : (e.1, f.content) ∈ b.fs.stored) (hmode : modeOf b.fs e.1 = some (fileMode f))

/-- Modes that are known stay. -/
def KeepsModes (b b' : Build) : Prop := ∀ m k, modeOf b.fs m = some k → modeOf b'.fs m = some k

/-- What stands on the image stays there. -/
theorem Stands.grows (h : Stands walk b path e) (hg : Grows b b') (hm : KeepsModes b b') :
    Stands walk b' path e := by
  cases h with
  | dots h => exact .dots h
  | dir hpath hmem hd => exact .dir hpath hmem (hg.dirs _ _ hd)
  | file hpath hf hlink hname hstored hmode =>
    exact .file hpath hf hlink hname (hg.stored _ hstored) (hm _ _ hmode)

/-- A build whose entries all stand for something of the walk. -/
structure Mirror (walk : List (List Str × List HostFile)) (b : Build) : Prop where
  kinds : Kinds b
  stands : ∀ path ents e, b.entries.get? path = some ents → e ∈ ents → Stands walk b path e

/-- A file that is added mirrors one of the tree. -/
theorem addFile_mirror (h : Mirror walk b) (hf : (here, f) ∈ hostFiles walk)
    (hadd : b.addFile (imagePath here) f = .ok b') : Mirror walk b' := by
  refine ⟨addFile_kinds h.kinds hadd, ?_⟩
  cases hlink : f.islink with
  | true =>
    rw [addFile_link hlink hadd]
    exact h.stands
  | false =>
    obtain ⟨fs', ents, hents, hroom, hstore, rfl⟩ := addFile_eq hlink hadd
    have ha : Act (naming fun _ => True) b ⟨fs', b.dirs, b.entries.set (imagePath here)
        (ents ++ [(b.fs.next_ino, f.name)])⟩ := .file hents hroom hstore trivial
    have hmode : ∀ m, modeOf fs' m =
        if m = b.fs.next_ino then some (fileMode f) else modeOf b.fs m :=
      fun m => (modeOf_store hstore m).trans (modeOf_allocated b.fs _ m)
    intro path ents' e hpath he
    rcases mem_set_append hents hpath he with ⟨rfl, rfl⟩ | ⟨old, hold, he⟩
    · refine .file rfl hf hlink rfl ?_ ?_
      · dsimp only
        rw [store_data_stored hstore]
        simp
      · exact (hmode _).trans (if_pos rfl)
    · refine (h.stands path old e hold he).grows (ha.grows h.kinds.tables) fun m k hk => ?_
      have hlt := h.kinds.fresh m k hk
      exact (hmode m).trans ((if_neg (by omega)).trans hk)

/-- A directory that is made mirrors one of the walk. -/
theorem makedir_mirror {p : ℕ} (h : Mirror walk b)
    (hmem : here ++ [name] ∈ walk.map Prod.fst) (hname : HostName name)
    (hnew : b.dirs.get? (imagePath (here ++ [name])) = none)
    (hparent : b.dirs.get? (parentPath (imagePath (here ++ [name]))) = some p)
    (hmake : b.makedir (imagePath (here ++ [name])) p = .ok (b', d)) : Mirror walk b' := by
  refine ⟨makedir_kinds h.kinds hnew hparent hmake, ?_⟩
  have ha := (makedir_act (P := naming fun _ => True) hmake hnew hparent fun _ _ => trivial).1
  obtain ⟨ents, nm, hents, hnm, hroom, rfl, rfl⟩ := makedir_eq hmake hnew hparent
  rw [lastName_imagePath here hname] at hnm
  obtain rfl := Except.ok.inj hnm
  have hget := Dict.get?_set_new (v := newEntries b.fs.next_ino p)
    (h.kinds.tables.entries_none hnew) hents
  intro path ents' e hpath he
  rcases mem_set_append hget hpath he with ⟨rfl, rfl⟩ | ⟨old, hold, he⟩
  · exact .dir (parentPath_imagePath here hname) hmem (Dict.get?_set_self _ _ _)
  · rcases mem_set_newEntries hold he with hdot | hdot | ⟨old', hold', he'⟩
    · exact .dots (Or.inl hdot)
    · exact .dots (Or.inr hdot)
    · refine (h.stands path old' e hold' he').grows (ha.grows h.kinds.tables) fun m k hk => ?_
      have hlt := h.kinds.fresh m k hk
      exact (modeOf_withDir b.fs p m).trans ((if_neg (by omega)).trans hk)

/-- A directory of the walk is made with those above it, all of them of the walk. -/
theorem getdir_mirror (h : Mirror t.walk b) (hmem : here ∈ t.walk.map Prod.fst)
    (hdir : b.getdir limit (imagePath here) = .ok (b', d)) : Mirror t.walk b' := by
  induction limit generalizing here b' d with
  | zero => cases hdir
  | succ limit ih =>
    cases hd : b.dirs.get? (imagePath here) with
    | some m =>
      obtain ⟨rfl, _⟩ := getdir_old hd hdir
      exact h
    | none =>
      obtain ⟨limit', b₁, parent, hlimit, habove, hnew, hparent, hmake⟩ :=
        getdir_new h.kinds.tables hdir hd
      obtain rfl := Nat.succ.inj hlimit
      cases here using List.reverseRecOn with
      | nil => exact absurd (hd.symm.trans h.kinds.tables.root) (by simp)
      | append_singleton here name =>
        have hname : HostName name :=
          hostName_of_nodes (mem_nodes.mpr (Or.inl ⟨rfl, hmem⟩) : (_, Node.dir) ∈ _) name (by simp)
        rw [parentPath_imagePath here hname] at habove
        exact makedir_mirror (ih (walk_above hmem) habove) hmem hname hnew hparent hmake

/-- A directory of the walk is added with its files, each of them mirrored. -/
theorem addDir_mirror {w : List Str × List HostFile} (h : Mirror t.walk b) (hw : w ∈ t.walk)
    (hadd : b.addDir limit w = .ok b') : Mirror t.walk b' := by
  unfold Build.addDir at hadd
  obtain ⟨⟨c, m⟩, hdir, hfiles⟩ := bind_eq_ok.mp hadd
  have hc := getdir_mirror h (List.mem_map_of_mem hw) hdir
  refine foldlM_invariant (I := Mirror t.walk) (fun f hf _ _ hi hone => ?_) hc hfiles
  exact addFile_mirror hi (List.mem_flatMap.mpr ⟨w, hw, List.mem_map_of_mem hf⟩) hone

/-- A pass over a directory makes it, and keeps those that are there. -/
theorem addDir_found {w : List Str × List HostFile} (ht : Tables b)
    (hadd : b.addDir limit w = .ok b') :
    Tables b' ∧ Grows b b' ∧ ∃ n, b'.dirs.get? (imagePath w.1) = some n := by
  unfold Build.addDir at hadd
  obtain ⟨⟨c, m⟩, hdir, hfiles⟩ := bind_eq_ok.mp hadd
  have hmakes := getdir_makes (N := fun _ => True) ht (fun _ _ _ => trivial) hdir
  have hc := hmakes.leads.tables ht
  have hgrows : Tables b' ∧ Grows c b' := by
    refine foldlM_invariant (I := fun x => Tables x ∧ Grows c x) (fun f _ x x' hx hone => ?_)
      ⟨hc, .refl c⟩ hfiles
    cases hlink : f.islink with
    | true =>
      rw [addFile_link hlink hone]
      exact hx
    | false =>
      obtain ⟨fs', ents, hents, hroom, hstore, rfl⟩ := addFile_eq hlink hone
      have ha : Act (naming fun _ => True) x ⟨fs', x.dirs, x.entries.set (imagePath w.1)
          (ents ++ [(x.fs.next_ino, f.name)])⟩ := .file hents hroom hstore trivial
      exact ⟨ha.tables hx.1, hx.2.trans (ha.grows hx.1)⟩
  exact ⟨hgrows.1, (hmakes.leads.grows ht).trans hgrows.2, m, hgrows.2.dirs _ m hmakes.found⟩

/-- What is built from a host tree alone: an image whose directories are those
of the tree, with entries that stand for what is in them. -/
structure Mirrored (t : HostTree) (b : Build) : Prop where
  built : Built (some t) b
  stands : ∀ path ents e, b.entries.get? path = some ents → e ∈ ents → Stands t.walk b path e
  dirs : ∀ here ∈ t.walk.map Prod.fst, ∃ n, b.dirs.get? (imagePath here) = some n

/-- The root mirrors the top of the tree. -/
theorem rooted_mirror (hroot : fs.next_ino = ROOTINO) (hempty : ∀ n, fs.inodes n = none)
    (hstored : fs.stored = []) : Mirror walk (rooted fs) :=
  ⟨rooted_kinds hroot hempty hstored, fun _ _ _ hents he => .dots (rooted_names hents he)⟩

/-- An image without spec lines mirrors its tree. -/
theorem main_mirrored {now nblocks : ℤ} {disktab : Bool}
    (h : MkfsBuild.main limit now nblocks (some t) [] disktab = .ok b) : Mirrored t b := by
  obtain ⟨b₀, _, fs₁, ws, hbuild, _, himage⟩ :=
    main_imaged (allNames_nulFree fun _ hl => absurd hl List.not_mem_nil) h
  obtain ⟨b₁, _, hroot, _, htree, hlines, hfinish⟩ := build_phases hbuild
  cases hlines
  change t.walk.foldlM (Build.addDir limit) _ = .ok b₁ at htree
  have hmirror : Mirror t.walk b₁ :=
    foldlM_invariant (I := Mirror t.walk) (fun _ hw _ _ hc hone => addDir_mirror hc hw hone)
      (rooted_mirror hroot (fun _ => rfl) rfl) htree
  have hdirs₁ := foldlM_each (I := Tables)
    (Q := fun w c => ∃ n, c.dirs.get? (imagePath w.1) = some n)
    (fun w _ _ hc hone => ⟨(addDir_found hc hone).1, (addDir_found hc hone).2.2⟩)
    (fun _ _ _ _ hc hone ⟨n, hn⟩ => ⟨n, (addDir_found hc hone).2.1.dirs _ n hn⟩)
    (rooted_tables hroot) htree
  obtain ⟨hmodes, hstored⟩ := finish_modes hfinish
  obtain ⟨_, _, _, _, hdirs, hentries⟩ := finish_eq hfinish
  have hgrows : Grows b₁ b := by
    rw [himage.header]
    exact ⟨fun p m hd => hdirs ▸ hd, fun p ents hp => ⟨[], by rw [List.append_nil]; exact hentries ▸ hp⟩,
      hstored⟩
  have hkeep : KeepsModes b₁ b := fun m k hk => by
    rw [himage.header]
    exact (hmodes m).trans hk
  refine ⟨main_built plainLines_nil (fun hno => absurd rfl hno) h, fun path ents e hents he => ?_,
    fun here hmem => ?_⟩
  · have hents₁ : b₁.entries.get? path = some ents := by
      rw [← hentries, ← show b.entries = b₀.entries by rw [himage.header]]
      exact hents
    exact (hmirror.stands path ents e hents₁ he).grows hgrows hkeep
  · obtain ⟨w, hw, rfl⟩ := List.mem_map.mp hmem
    obtain ⟨n, hn⟩ := hdirs₁ w hw
    exact ⟨n, hgrows.dirs _ n hn⟩

/-! ## What is on the image -/

variable {m ino : ℕ} {x : Found} {out : Str}

/-- Names lead to an inode that is what the tree has there. -/
inductive Shows (t : HostTree) (b : Build) (names : List Str) (m : ℕ) : Prop
  | dir (hmem : names ∈ t.walk.map Prod.fst) (hd : b.dirs.get? (imagePath names) = some m)
  | file {here : List Str} {f : HostFile} (hf : (here, f) ∈ hostFiles t.walk)
      (hlink : f.islink = false) (hnames : names = here ++ [f.name])
      (hstored : (m, f.content) ∈ b.fs.stored) (hmode : modeOf b.fs m = some (fileMode f))

/-- The names of a directory of the walk are names of the host. -/
theorem hostName_of_dirs (h : names ∈ t.walk.map Prod.fst) : ∀ a ∈ names, HostName a :=
  hostName_of_nodes (o := (names, .dir)) (mem_nodes.mpr (Or.inl ⟨rfl, h⟩))

/-- An inode with the mode of a host file is read as a regular file with that mode. -/
theorem Mirrored.mode (h : Mirrored t b) (hmode : modeOf b.fs m = some (fileMode f)) {i : DiskInode}
    (hi : S5Reader.inode b.fs.data m = .ok i) : i.mode = fileMode f := by
  obtain ⟨j, hj, hjmode⟩ := modeOf_eq_some.mp hmode
  obtain ⟨di, hdi, hdmode⟩ := h.built.inode m j hj
  rw [hi] at hdi
  rw [Except.ok.inj hdi, hdmode, hjmode]

/-- An entry of a directory of the tree is what the tree has there. -/
theorem Mirrored.entry (h : Mirrored t b) (hhere : ∀ a ∈ here, HostName a)
    (hd : b.dirs.get? (imagePath here) = some n) (he : HasEntry b.fs.data n name m) :
    Shows t b (here ++ [name]) m := by
  obtain ⟨ents, hents, hread⟩ := h.built.readdir hd
  obtain ⟨ents', hread', hmem, hproper⟩ := he
  rw [hread] at hread'
  obtain rfl := Except.ok.inj hread'
  cases h.stands _ ents (m, name) hents hmem with
  | dots hdots => exact absurd hdots (not_or.mpr hproper)
  | @dir here' hpath hwalk hdir =>
    have hhost := hostName_of_dirs hwalk
    obtain rfl := imagePath_injective hhere (fun a ha => hhost a (List.mem_append_left _ ha)) hpath
    exact .dir hwalk hdir
  | @file here' f hpath hf hlink hname hstored hmode =>
    have hin : (here', f) ∈ treeFiles (some t) := hf
    have hhost := hostName_of_treeFiles hin
    obtain rfl := imagePath_injective hhere (fun a ha => hhost a (List.mem_append_left _ ha)) hpath
    exact .file hf hlink (congrArg (fun a => here ++ [a]) hname) hstored hmode

/-- What is below a directory of the tree is what the tree has there. -/
theorem Mirrored.below (h : Mirrored t b) (hb : Below b.fs.data ino names m)
    (hhere : ∀ a ∈ here, HostName a) (hd : b.dirs.get? (imagePath here) = some ino) :
    Shows t b (here ++ names) m := by
  induction hb generalizing here with
  | entry he => exact h.entry hhere hd he
  | @under ino sub n name names he hdir hb ih =>
    cases h.entry hhere hd he with
    | dir hmem hsub =>
      rw [List.append_cons]
      exact ih (hostName_of_dirs hmem) hsub
    | file hf hlink hnames hstored hmode =>
      -- a regular file has nothing below it
      obtain ⟨i, hi, hisdir⟩ := hdir
      rw [h.mode hmode hi, not_dir_of_reg (reg_fileMode _)] at hisdir
      cases hisdir

/-- What the tree has is there. -/
theorem Mirrored.there (h : Mirrored t b) (ho : o ∈ nodes t.walk) (hne : o.1 ≠ []) :
    ∃ m, Below b.fs.data 2 o.1 m := by
  rcases mem_nodes.mp ho with ⟨_, hmem⟩ | ⟨here, f, hf, hlink, rfl⟩
  · obtain ⟨m, hm⟩ := h.dirs _ hmem
    rcases h.built.path_below (hostName_of_dirs hmem) hm with ⟨hnil, _⟩ | hb
    · exact absurd hnil hne
    · exact ⟨m, hb⟩
  · obtain ⟨m, _, hb, _⟩ := h.built.hostFile hf hlink
    exact ⟨m, hb⟩

/-- An object that the walk of the image lists is a node of the tree, and it is
extracted as that. -/
structure Extracts (t : HostTree) (d : Bytes) (out : Str) (x : Found) (o : Object) : Prop where
  node : o ∈ nodes t.walk
  below : o.1 ≠ []
  short : o.1.length ≤ 13
  path : x.path = spell o.1
  script : extractEntry d out x = (script out o, none)

/-- What the walk lists on the image is extracted as the node of the tree that it mirrors.
-/
theorem Mirrored.extracts (h : Mirrored t b) (out : Str) (hx : Lists b.fs.data 13 2 [] x) :
    ∃ o, Extracts t b.fs.data out x o := by
  obtain ⟨hinode, names, hshort, hb, hpath⟩ := hx
  have hshows : Shows t b ([] ++ names) x.ino :=
    h.below hb (fun a ha => absurd ha List.not_mem_nil) h.built.typed.tables.1
  cases hshows with
  | dir hmem hd =>
    obtain ⟨i, hi, hdir⟩ := h.built.directory hd
    rw [hinode] at hi
    obtain rfl := Except.ok.inj hi
    refine ⟨(names, .dir), mem_nodes.mpr (Or.inl ⟨rfl, hmem⟩), hb.ne_nil, hshort, hpath, ?_⟩
    unfold extractEntry
    dsimp only
    rw [if_pos hdir, hpath]
    rfl
  | @file here f hf hlink hnames hstored hmode =>
    have himode := h.mode hmode hinode
    have hreg : S_ISREG x.inode.mode = true := himode ▸ reg_fileMode f
    obtain ⟨di, hdi, hdata⟩ := h.built.file x.ino f.content hstored
    rw [hinode] at hdi
    obtain rfl := Except.ok.inj hdi
    refine ⟨(names, .file f.content f.executable),
      mem_nodes.mpr (Or.inr ⟨here, f, hf, hlink, Prod.ext hnames rfl⟩), hb.ne_nil, hshort, hpath, ?_⟩
    have hbits : Int.land x.inode.mode 0o111 ≠ 0 ↔ f.executable = true :=
      himode ▸ executable_fileMode f
    unfold extractEntry
    dsimp only
    rw [if_neg (Bool.eq_false_iff.mp (not_dir_of_reg hreg)), if_pos hreg, hdata, hpath]
    dsimp only
    rw [if_congr hbits rfl rfl]
    rfl

/-! ## The tree that comes out -/

/-- What an extraction leaves of a host tree: its directories and its regular
files, of at most thirteen names, and nothing else that was not there. -/
structure Reproduced (t : HostTree) (cwd : List Str) (out : Str) (start h : Host) : Prop where
  tree : ∀ names node, h (resolve cwd out ++ names) = some node ↔
    (names, node) ∈ nodes t.walk ∧ names.length ≤ 13
  way : ∀ place ∈ trail cwd out, h place = some .dir
  others : ∀ place, place ∉ trail cwd out → ¬resolve cwd out <+: place → h place = start place

/-- The objects of a host tree, as far down as extraction goes. -/
structure Shallow (t : HostTree) (objects : List Object) : Prop where
  distinct : (objects.map Prod.fst).Nodup
  mem : ∀ o, o ∈ objects ↔ o ∈ nodes t.walk ∧ o.1.length ≤ 13

/-- One path is one node. -/
theorem same_node (ho : o ∈ nodes t.walk) {o' : Object} (ho' : o' ∈ nodes t.walk)
    (hnames : o.1 = o'.1) : o = o' :=
  List.inj_on_of_nodup_map (nodes_nodup t) ho ho' hnames

/-- The nodes of at most thirteen names are a tree themselves. -/
theorem Shallow.treelike {objects : List Object} (h : Shallow t objects) : Treelike objects := by
  refine ⟨h.distinct, fun o ho o' ho' hprefix hfile => ?_, fun o ho a ha => ?_⟩
  · obtain ⟨hnode, _⟩ := (h.mem o).mp ho
    obtain ⟨hnode', _⟩ := (h.mem o').mp ho'
    by_contra hne
    have hnames : o.1 ≠ o'.1 := fun he => hne (same_node hnode hnode' he)
    exact hfile (congrArg Prod.snd (same_node hnode (nodes_above hnode' hprefix hnames) rfl))
  · exact isName_of_host (hostName_of_nodes ((h.mem o).mp ho).1 a ha)

/-- What is expected of the host is what they are. -/
theorem Shallow.expected_iff {objects : List Object} (h : Shallow t objects) :
    expected objects names = some node ↔ (names, node) ∈ nodes t.walk ∧ names.length ≤ 13 := by
  rw [HostFiles.expected_iff h.distinct, h.mem]
  intro o ho front hfront
  obtain ⟨hnode, hshort⟩ := (h.mem o).mp ho
  by_cases he : front = o.1
  · exact he ▸ List.mem_map_of_mem ho
  · exact List.mem_map.mpr
      ⟨_, (h.mem _).mpr ⟨nodes_above hnode hfront he, hfront.length_le.trans hshort⟩, rfl⟩

/-- The top of the tree is a node. -/
theorem root_mem (t : HostTree) : ([], .dir) ∈ nodes t.walk :=
  mem_nodes.mpr (Or.inl ⟨rfl, List.mem_cons_self⟩)

/-- The run of the extraction: it makes the output directory, and then extracts
the objects of the tree. -/
theorem Mirrored.run (h : Mirrored t b) (out : Str) :
    ∃ objects, Shallow t (([], .dir) :: objects) ∧ (S5Extract.main b.fs.data out).1 = [.makedirs out] ∧
      (S5Extract.main b.fs.data out).2.1 = objects.flatMap (HostFiles.script out) ∧
      (S5Extract.main b.fs.data out).2.2 = none := by
  obtain ⟨found, hwalk, hnodup, hmem, hend, _⟩ := h.built.extracted out
  obtain ⟨s, hs⟩ := h.built.sizes
  have hall : ∀ x ∈ found, ∃ o, Extracts t b.fs.data out x o :=
    fun x hx => h.extracts out ((hmem x).mp hx)
  have : Nonempty Object := ⟨([], .dir)⟩
  choose! g hg using hall
  have hpaths : found.map Found.path = ((found.map g).map Prod.fst).map spell := by
    rw [List.map_map, List.map_map]
    exact List.map_congr_left fun x hx => (hg x hx).path
  have hroot : [] ∉ (found.map g).map Prod.fst := by
    rw [List.map_map]
    intro hmem
    obtain ⟨x, hx, hnil⟩ := List.mem_map.mp hmem
    exact (hg x hx).below hnil
  refine ⟨found.map g, ⟨List.nodup_cons.mpr ⟨hroot, (hpaths ▸ hnodup).of_map _⟩, fun o => ?_⟩,
    ?_, ?_, hend⟩
  · constructor
    · intro ho
      rcases List.mem_cons.mp ho with rfl | ho
      · exact ⟨root_mem t, Nat.zero_le 13⟩
      · obtain ⟨x, hx, rfl⟩ := List.mem_map.mp ho
        exact ⟨(hg x hx).node, (hg x hx).short⟩
    · rintro ⟨ho, hshort⟩
      by_cases hnil : o.1 = []
      · rw [same_node ho (root_mem t) hnil]
        exact List.mem_cons_self
      · obtain ⟨m, hb⟩ := h.there ho hnil
        obtain ⟨⟨i, hi⟩, _⟩ := h.built.below hb ⟨_, h.built.typed.tables.1⟩
        obtain ⟨di, hdi, _⟩ := h.built.inode m i hi
        have hx := (hmem ⟨spell o.1, m, di⟩).mpr ⟨hdi, o.1, hshort, hb, rfl⟩
        have hspell := (hg _ hx).path
        have hisname : ∀ o' : Object, o' ∈ nodes t.walk → ∀ a ∈ o'.1, IsName a :=
          fun o' ho' a ha => isName_of_host (hostName_of_nodes ho' a ha)
        have hnames : o.1 = (g ⟨spell o.1, m, di⟩).1 :=
          (components_spell (hisname o ho)).symm.trans
            ((congrArg components hspell).trans (components_spell (hisname _ (hg _ hx).node)))
        rw [same_node ho (hg _ hx).node hnames]
        exact List.mem_cons_of_mem _ (List.mem_map_of_mem hx)
  · unfold S5Extract.main
    rw [hs, hwalk]
  · have hends : ∀ x ∈ found, ¬Ends b.fs.data x := by
      intro x hx hends
      have hsome : (extractEntry b.fs.data out x).2.isSome = true := extractEntry_ends.mpr hends
      rw [(hg x hx).script] at hsome
      cases hsome
    unfold S5Extract.main
    rw [hs, hwalk]
    dsimp only
    rw [extractAll_actions, reached_eq hends, List.flatMap_map]
    exact List.flatMap_congr fun x hx => congrArg Prod.fst (hg x hx).script

/-- A host tree that an image is built from comes out of its extraction, into an
output directory that is free, as it was: each directory and each regular file
of at most thirteen names, with its contents and with whether it can be executed. -/
theorem tree_reproduced {now nblocks : ℤ} {disktab : Bool} {cwd : List Str} {start : Host}
    (hr : Ready cwd out start)
    (h : MkfsBuild.main limit now nblocks (some t) [] disktab = .ok b) :
    (S5Extract.main b.fs.data out).2.2 = none ∧
      ∃ h, performAll cwd start ((S5Extract.main b.fs.data out).1 ++
        (S5Extract.main b.fs.data out).2.1) = some h ∧ Reproduced t cwd out start h := by
  obtain ⟨objects, hshallow, hfirst, hrest, hend⟩ := (main_mirrored h).run out
  obtain ⟨h', hrun, hholds⟩ := extracted_host hshallow.treelike hr
  rw [hfirst, hrest]
  refine ⟨hend, h', hrun, fun names node => ?_, hholds.above, hholds.others⟩
  rw [hholds.below, hshallow.expected_iff]

/-- A directory with a program and a symbolic link. -/
def smallTree : HostTree where
  top := .dir (str "bin") (.file ⟨str "sh", false, true, [1, 2]⟩
    (.file ⟨str "csh", true, true, [1, 2]⟩ .empty)) .empty
  wellFormed := by
    have hname : ∀ name ∈ [str "bin", str "sh", str "csh"], HostName name := by
      simp only [List.forall_mem_cons, HostName]
      decide
    exact ⟨hname _ (by simp), List.not_mem_nil, ⟨hname _ (by simp), by decide, hname _ (by simp),
      List.not_mem_nil, trivial⟩, trivial⟩

/-- A host with a home directory only. -/
def homeOnly : Host := fun place => if place = [] ∨ place = [str "home"] then some .dir else none

/-- That host is ready for an extraction to `out`. -/
theorem homeOnly_ready : Ready [str "home"] (str "out") homeOnly := by
  have hout : resolve [str "home"] (str "out") = [str "home", str "out"] := by decide
  have htrail : ∀ place ∈ trail [str "home"] (str "out"),
      place = [str "home"] ∨ place = [str "home", str "out"] := by decide
  refine ⟨by decide, fun place hplace => ?_, fun names hne => ?_, fun place hplace hprefix => ?_⟩
  · rcases htrail place hplace with rfl | rfl
    · exact Or.inr rfl
    · exact Or.inl rfl
  · rw [hout]
    exact if_neg (by simp)
  · rw [hout] at hprefix ⊢
    rcases htrail place hplace with rfl | rfl
    · exact absurd hprefix.length_le (by simp)
    · rfl

/-- The program comes out, and the symbolic link does not. -/
theorem tree_reproduced_small :
    ∃ b h, MkfsBuild.main 9 0 40 (some smallTree) [] false = .ok b ∧
      performAll [str "home"] homeOnly ((S5Extract.main b.fs.data (str "out")).1 ++
        (S5Extract.main b.fs.data (str "out")).2.1) = some h ∧
      Reproduced smallTree [str "home"] (str "out") homeOnly h ∧
      h [str "home", str "out", str "bin", str "sh"] = some (.file [1, 2] true) ∧
      h [str "home", str "out", str "bin", str "csh"] = none := by
  obtain ⟨b, hb⟩ := exists_of_isOk
    (x := MkfsBuild.main 9 0 40 (some smallTree) [] false) (by decide +kernel)
  obtain ⟨_, h, hrun, hh⟩ := tree_reproduced homeOnly_ready hb
  have hnodes : nodes smallTree.walk =
      [([], .dir), ([str "bin"], .dir), ([str "bin", str "sh"], .file [1, 2] true)] := by
    decide +kernel
  have hout : resolve [str "home"] (str "out") = [str "home", str "out"] := by decide
  refine ⟨b, h, hb, hrun, hh, ?_, ?_⟩
  · refine (congrArg (fun p => h (p ++ [str "bin", str "sh"])) hout).symm.trans ?_
    exact (hh.tree _ _).mpr ⟨by rw [hnodes]; simp, by decide⟩
  · refine (congrArg (fun p => h (p ++ [str "bin", str "csh"])) hout).symm.trans ?_
    refine Option.eq_none_iff_forall_not_mem.mpr fun node hnode => ?_
    obtain ⟨hmem, _⟩ := (hh.tree _ node).mp hnode
    rw [hnodes] at hmem
    revert hmem
    simp [str]

end Sys16.TreeRoundTrip
