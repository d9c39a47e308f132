import Sys16.MkfsKinds
import Sys16.MkfsRoundTrip
import Sys16.S5Extract

/-!
# Extraction of an image that `tools/mkfs.py` built

The image of a build whose names form a well-formed tree is one that the walk
of `tools/s5fs.py` can go over, and the host files are regular files on it
under the names of the host. Extraction writes out those with at most thirteen
names; the walk does not go down any further.
-/

namespace Sys16.TreeExtract

open PyText PyStruct PyDict PosixPath HostWalk MkfsImage MkfsBuild MkfsActs MkfsWalk
open MkfsRoundTrip MkfsNamespace MkfsKinds S5Reader S5Walk S5Extract

variable {b : Build} {path name : Str} {names here : List Str} {n m ino : ℕ}
  {ents : List Entry} {tree : Option HostTree} {f : HostFile}

/-- A built image, as far as reading it goes. -/
structure Built (tree : Option HostTree) (b : Build) : Prop where
  typed : Typed tree b
  wellFormed : WellFormed b
  sizes : ∃ s, sizes b.fs.data = .ok s
  inode : ∀ n i, b.fs.inodes n = some i →
    ∃ di, S5Reader.inode b.fs.data n = .ok di ∧ di.mode = i.mode
  file : ∀ n content, (n, content) ∈ b.fs.stored →
    ∃ di, S5Reader.inode b.fs.data n = .ok di ∧ data b.fs.data di = .ok content
  entries : ∀ path ents, b.entries.get? path = some ents →
    ∃ m, b.dirs.get? path = some m ∧ readdir b.fs.data m = .ok ents

/-- Spec lines with names that an image can hold, and with modes for
directories only. -/
structure PlainLines (spec : List Str) : Prop where
  names : ∀ line ∈ spec, ∀ path, part (specWords line) 1 = .ok path → NulFree path
  modes : ∀ line ∈ spec, KeepsType line

theorem plainLines_nil : PlainLines [] :=
  ⟨fun _ h => absurd h List.not_mem_nil, fun _ h => absurd h List.not_mem_nil⟩

/-- What `main` writes is built from the tree. -/
theorem main_built {limit : ℕ} {now nblocks : ℤ} {spec : List Str} {disktab : Bool}
    (hplain : PlainLines spec) (hw : spec ≠ [] → WellFormed b)
    (h : MkfsBuild.main limit now nblocks tree spec disktab = .ok b) : Built tree b := by
  obtain ⟨b₀, b₂, fs₁, ws, hbuild, hwritten, himage⟩ :=
    main_imaged (allNames_nulFree hplain.names) h
  have htyped := build_typed hplain.modes hbuild
  have hentries : b.entries = b₀.entries := by rw [himage.header]
  have hdirs : b.dirs = b₀.dirs := by rw [himage.header]
  have hwell : WellFormed b := by
    by_cases hspec : spec = []
    · rw [hspec] at hbuild
      have hw₀ := wellFormed_tree hbuild
      exact ⟨hentries ▸ hw₀.names, hdirs ▸ hentries ▸ hw₀.tree⟩
    · exact hw hspec
  refine ⟨?_, hwell, sizes_ok himage.long, fun n i hi => ⟨_, himage.inode hi, rfl⟩,
    fun n content hx => (himage.file hx).2, fun path ents hents => ?_⟩
  · rw [himage.header]
    exact ⟨htyped.tables, htyped.held, htyped.named, htyped.dirs, htyped.known, htyped.regular,
      htyped.files⟩
  · obtain ⟨m, hd, _, hread⟩ := himage.entries hwritten hents
    exact ⟨m, hd, hread⟩

/-! ## The walk of a built image -/

/-- A directory of the build is one on the image. -/
theorem Built.directory (h : Built tree b) (hd : b.dirs.get? path = some n) :
    IsDirectory b.fs.data n := by
  obtain ⟨i, hi, hdir⟩ := h.typed.dirs path n hd
  obtain ⟨di, hdi, hmode⟩ := h.inode n i hi
  exact ⟨di, hdi, hmode ▸ hdir⟩

/-- A directory of the image is one of the build. -/
theorem Built.known (h : Built tree b) {i : Inode} (hi : b.fs.inodes n = some i)
    (hdir : IsDirectory b.fs.data n) : ∃ path, b.dirs.get? path = some n := by
  obtain ⟨di, hdi, hisdir⟩ := hdir
  obtain ⟨dj, hdj, hmode⟩ := h.inode n i hi
  rw [hdi] at hdj
  rw [Except.ok.inj hdj, hmode] at hisdir
  exact h.typed.known n i hi hisdir

/-- A directory of the build reads back. -/
theorem Built.readdir (h : Built tree b) (hd : b.dirs.get? path = some n) :
    ∃ ents, b.entries.get? path = some ents ∧ S5Reader.readdir b.fs.data n = .ok ents := by
  have hkey : path ∈ b.entries.keys := h.typed.tables.2.2 ▸ Dict.mem_keys_of_get? hd
  obtain ⟨ents, hents⟩ := Dict.get?_of_mem_keys hkey
  obtain ⟨k, hk, hread⟩ := h.entries path ents hents
  rw [hd] at hk
  exact ⟨ents, hents, Option.some.inj hk ▸ hread⟩

/-- A directory's entries are in order on the image. -/
theorem Built.dirOk (h : Built tree b) (hents : b.entries.get? path = some ents) :
    DirOk b.fs.data ents := by
  obtain ⟨hnodup, hnames⟩ := h.wellFormed.names path ents hents
  refine ⟨?_, fun e he _ => (hnames e he).2, fun e he _ => ?_⟩
  · exact (List.pairwise_map.mp hnodup).imp fun hne _ _ => hne
  · obtain ⟨i, hi⟩ := h.typed.named path ents e hents he
    obtain ⟨di, hdi, _⟩ := h.inode e.1 i hi
    exact ⟨di, hdi⟩

/-- An entry that is read names an inode of the build, by a name. -/
theorem Built.entry (h : Built tree b) (hd : b.dirs.get? path = some n)
    (he : HasEntry b.fs.data n name m) : (∃ i, b.fs.inodes m = some i) ∧ IsName name := by
  obtain ⟨ents, hents, hread⟩ := h.readdir hd
  obtain ⟨ents', hread', hmem, hproper⟩ := he
  rw [hread] at hread'
  obtain rfl := Except.ok.inj hread'
  obtain ⟨hne, hsep⟩ := (h.wellFormed.names path ents hents).2 (m, name) hmem
  exact ⟨h.typed.named path ents (m, name) hents hmem, hne, hsep, hproper.1, hproper.2⟩

/-- What is below a directory are inodes of the build, by names. -/
theorem Built.below (h : Built tree b) (hb : Below b.fs.data ino names n)
    (hino : ∃ path, b.dirs.get? path = some ino) :
    (∃ i, b.fs.inodes n = some i) ∧ ∀ a ∈ names, IsName a := by
  induction hb with
  | entry he =>
    obtain ⟨path, hd⟩ := hino
    obtain ⟨hi, hname⟩ := h.entry hd he
    exact ⟨hi, fun a ha => List.mem_singleton.mp ha ▸ hname⟩
  | under he hdir _ ih =>
    obtain ⟨path, hd⟩ := hino
    obtain ⟨⟨i, hi⟩, hname⟩ := h.entry hd he
    obtain ⟨hn, hrest⟩ := ih (h.known hi hdir)
    refine ⟨hn, fun a ha => ?_⟩
    rcases List.mem_cons.mp ha with rfl | ha
    · exact hname
    · exact hrest a ha

/-- The walk can go over a built image. -/
theorem Built.sound (h : Built tree b) : Sound b.fs.data 2 := by
  have hroot := h.typed.tables.1
  refine ⟨?_, fun names n hb hdir => ?_⟩
  · obtain ⟨ents, hents, hread⟩ := h.readdir hroot
    exact ⟨ents, hread, h.dirOk hents⟩
  · obtain ⟨⟨i, hi⟩, _⟩ := h.below hb ⟨_, hroot⟩
    obtain ⟨path, hd⟩ := h.known hi hdir
    obtain ⟨ents, hents, hread⟩ := h.readdir hd
    exact ⟨ents, hread, h.dirOk hents⟩

/-! ## Where the host files are -/

/-- A name the host allows is a name. -/
theorem isName_of_host (h : HostName name) : IsName name :=
  ⟨h.1, h.2.1, h.2.2.2.1, h.2.2.2.2⟩

/-- The host files of a tree have names that the host allows, and so have the
directories on the way to them. -/
theorem hostName_of_treeFiles (h : (here, f) ∈ treeFiles tree) :
    ∀ a ∈ here ++ [f.name], HostName a := by
  cases tree with
  | none => cases h
  | some t =>
    obtain ⟨w, hw, hf⟩ := List.mem_flatMap.mp h
    obtain ⟨g, hg, hpair⟩ := List.mem_map.mp hf
    obtain ⟨rfl, rfl⟩ := Prod.mk.inj hpair
    refine hostName_of_objects (t := t) (List.mem_flatMap.mpr ⟨w, hw, ?_⟩)
    exact List.mem_cons_of_mem _ (List.mem_map_of_mem hg)

/-- A directory of the build with the path of a host directory is below the
root by its names. -/
theorem Built.path_below (h : Built tree b) (hhost : ∀ a ∈ here, HostName a)
    (hd : b.dirs.get? (imagePath here) = some n) :
    here = [] ∧ n = ROOTINO ∨ Below b.fs.data 2 here n := by
  induction here using List.reverseRecOn generalizing n with
  | nil =>
    have hroot := h.typed.tables.1
    exact Or.inl ⟨rfl, Option.some.inj (hd.symm.trans hroot)⟩
  | append_singleton here name ih =>
    have hname : HostName name := hhost name (by simp)
    have hne : n ≠ ROOTINO := by
      rintro rfl
      have hpath := Dict.key_unique h.typed.tables.2.1 hd h.typed.tables.1
      have hnil : here ++ [name] = [] :=
        imagePath_injective hhost (fun a ha => absurd ha List.not_mem_nil) hpath
      exact absurd hnil (by simp)
    obtain ⟨nm, ents, parent, tail, hlast, hents, hparent, hmem, _⟩ := h.typed.held _ n hd hne
    rw [lastName_imagePath here hname] at hlast
    rw [parentPath_imagePath here hname] at hents hparent
    obtain rfl := Except.ok.inj hlast
    obtain ⟨k, hk, hread⟩ := h.entries _ ents hents
    rw [hparent] at hk
    obtain rfl := Option.some.inj hk
    have hentry : HasEntry b.fs.data parent name n :=
      ⟨ents, hread, List.mem_of_mem_drop hmem, (isName_of_host hname).ne_dot,
        (isName_of_host hname).ne_dotdot⟩
    rcases ih (fun a ha => hhost a (List.mem_append_left _ ha)) hparent with ⟨rfl, rfl⟩ | hb
    · exact Or.inr (.entry hentry)
    · exact Or.inr (hb.concat (h.directory hparent) hentry)

/-- A host file is below the root by its names, as a regular file with its contents. -/
theorem Built.hostFile (h : Built tree b) (hf : (here, f) ∈ treeFiles tree)
    (hlink : f.islink = false) : ∃ ino di, Below b.fs.data 2 (here ++ [f.name]) ino ∧
      S5Reader.inode b.fs.data ino = .ok di ∧ S_ISREG di.mode = true ∧
      data b.fs.data di = .ok f.content := by
  have hhost := hostName_of_treeFiles hf
  have hname := isName_of_host (hhost f.name (by simp))
  obtain ⟨ents, ino, i, hents, hmem, hstored, hi, hreg⟩ := h.typed.files (here, f) hf hlink
  obtain ⟨k, hk, hread⟩ := h.entries _ ents hents
  obtain ⟨di, hdi, hdata⟩ := h.file ino f.content hstored
  obtain ⟨dj, hdj, hmode⟩ := h.inode ino i hi
  rw [hdi] at hdj
  rw [← hmode, ← Except.ok.inj hdj] at hreg
  have hentry : HasEntry b.fs.data k f.name ino :=
    ⟨ents, hread, hmem, hname.ne_dot, hname.ne_dotdot⟩
  refine ⟨ino, di, ?_, hdi, hreg, hdata⟩
  rcases h.path_below (fun a ha => hhost a (List.mem_append_left _ ha)) hk with ⟨hnil, rfl⟩ | hb
  · rw [hnil]
    exact .entry hentry
  · exact hb.concat (h.directory hk) hentry

/-! ## Extraction -/

variable {d : Bytes} {out : Str} {content : Bytes} {x : Found}

/-- A file is written out: its contents are written to its path, and nothing
else is written to that place. -/
structure WrittenOut (actions : List Action) (path : Str) (content : Bytes) : Prop where
  write : .write path content ∈ actions
  only : ∀ cwd other content', .write other content' ∈ actions →
    resolve cwd other = resolve cwd path → content' = content

/-- An object that the walk of a built image lists is an inode of the build, by names. -/
theorem Built.lists (h : Built tree b) {k : ℕ} (hx : Lists b.fs.data k 2 [] x) :
    (∃ i, b.fs.inodes x.ino = some i ∧ x.inode.mode = i.mode) ∧
      ∃ names, names.length ≤ k ∧ (∀ a ∈ names, IsName a) ∧ x.path = spell names := by
  obtain ⟨hinode, names, hk, hb, hpath⟩ := hx
  obtain ⟨⟨i, hi⟩, hnames⟩ := h.below hb ⟨_, h.typed.tables.1⟩
  obtain ⟨di, hdi, hmode⟩ := h.inode x.ino i hi
  rw [hinode] at hdi
  exact ⟨⟨i, hi, Except.ok.inj hdi ▸ hmode⟩, names, hk, hnames, hpath⟩

/-- Extraction of a built image comes to its end. -/
theorem Built.extracted (h : Built tree b) (out : Str) : ∃ found, walk b.fs.data = .ok found ∧
    (found.map Found.path).Nodup ∧ (∀ x, x ∈ found ↔ Lists b.fs.data 13 2 [] x) ∧
    (S5Extract.main b.fs.data out).2.2 = none ∧
    ∀ a, a ∈ (S5Extract.main b.fs.data out).2.1 ↔
      ∃ x ∈ found, a ∈ (extractEntry b.fs.data out x).1 := by
  obtain ⟨found, hwalk, hnodup, hmem⟩ := walk_eq h.sound
  obtain ⟨s, hs⟩ := h.sizes
  have hends : ∀ x ∈ found, ¬Ends b.fs.data x := by
    rintro x hx ⟨_, hreg, hfail⟩
    have hlists := (hmem x).mp hx
    obtain ⟨⟨i, hi, hmode⟩, _⟩ := h.lists hlists
    obtain ⟨content, hstored⟩ := h.typed.regular x.ino i hi (hmode ▸ hreg)
    obtain ⟨di, hdi, hdata⟩ := h.file x.ino content hstored
    rw [hlists.1] at hdi
    rw [Except.ok.inj hdi, hdata] at hfail
    cases hfail
  refine ⟨found, hwalk, hnodup, hmem, ?_, fun a => ?_⟩
  · unfold S5Extract.main
    rw [hs, hwalk]
    exact extractAll_complete hends
  · rw [mem_actions_iff]
    unfold listed
    rw [hs, hwalk]
    dsimp only
    rw [reached_eq hends]

/-- What is written to a place is the contents of a file that the walk lists there. -/
theorem Built.writes (h : Built tree b)
    (hw : .write path content ∈ (S5Extract.main b.fs.data out).2.1) :
    ∃ x names, Lists b.fs.data 13 2 [] x ∧ data b.fs.data x.inode = .ok content ∧
      path = target out x.path ∧ names.length ≤ 13 ∧ (∀ a ∈ names, IsName a) ∧
      x.path = spell names := by
  obtain ⟨found, _, _, hmem, _, hactions⟩ := h.extracted out
  obtain ⟨x, hx, hxw⟩ := (hactions _).mp hw
  obtain ⟨_, _, hpath, hdata⟩ := write_mem_iff.mp hxw
  have hlists := (hmem x).mp hx
  obtain ⟨_, names, hk, hnames, hspell⟩ := h.lists hlists
  exact ⟨x, names, hlists, hdata, hpath, hk, hnames, hspell⟩

/-- The path of a host file on the image spells its names. -/
theorem imagePath_spell (here : List Str) (name : Str) :
    imagePath (here ++ [name]) = spell (here ++ [name]) := if_neg (by simp)

/-- A host file with at most thirteen names is written out. -/
theorem Built.written (h : Built tree b) (hf : (here, f) ∈ treeFiles tree)
    (hlink : f.islink = false) (hlen : here.length < 13) (out : Str) :
    WrittenOut (S5Extract.main b.fs.data out).2.1
      (target out (imagePath (here ++ [f.name]))) f.content := by
  have hhost := hostName_of_treeFiles hf
  have hnames : ∀ a ∈ here ++ [f.name], IsName a := fun a ha => isName_of_host (hhost a ha)
  obtain ⟨ino, di, hb, hdi, hreg, hdata⟩ := h.hostFile hf hlink
  obtain ⟨found, _, hnodup, hmem, _, hactions⟩ := h.extracted out
  have hlists : Lists b.fs.data 13 2 [] ⟨spell (here ++ [f.name]), ino, di⟩ := by
    refine ⟨hdi, here ++ [f.name], ?_, hb, rfl⟩
    rw [List.length_append, List.length_singleton]
    omega
  have hx := (hmem _).mpr hlists
  rw [imagePath_spell]
  refine ⟨(hactions _).mpr ⟨_, hx, write_mem_iff.mpr ⟨not_dir_of_reg hreg, hreg, rfl, hdata⟩⟩, ?_⟩
  intro cwd other content' hw hplace
  obtain ⟨y, names, hy, hydata, hpath, _, hynames, hspell⟩ := h.writes hw
  rw [hpath, hspell, resolve_target hynames, resolve_target hnames] at hplace
  have hsame : y.path = spell (here ++ [f.name]) := by
    rw [hspell, List.append_cancel_left hplace]
  have heq := List.inj_on_of_nodup_map hnodup ((hmem y).mpr hy) hx hsame
  rw [heq] at hydata
  exact Except.ok.inj (hydata.symm.trans hdata)

end Sys16.TreeExtract
