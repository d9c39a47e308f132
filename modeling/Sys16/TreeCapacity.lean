import Sys16.MkfsStamps
import Sys16.TreeRoundTrip

/-!
# When `tools/mkfs.py` builds an image

The exact condition under which the program comes to write an image of a host
tree: every name fits a directory entry, every file does without triple
indirection, the nodes of the tree have inodes and blocks on the image, no
directory has too many subdirectories, and the numbers of the superblock fit.
-/

namespace Sys16.TreeCapacity

open PyText PyStruct PyDict HostWalk ByteStore Budgets MkfsImage MkfsBlocks MkfsBuild MkfsActs MkfsWalk
open MkfsAccounting MkfsFinish MkfsNamespace MkfsKinds MkfsCapacity MkfsPacking MkfsStamps HostFiles
open TreeRoundTrip

variable {b b' : Build} {fs fs' : Fs} {path name : Str} {here : List Str} {n limit : ℕ}
  {ents : List Entry} {e : Entry} {t : HostTree} {o : Object}

/-! ## What a walk leaves -/

/-- The state of a build after the walk. -/
structure Grown (t : HostTree) (b : Build) : Prop where
  walking : Walking t.walk b
  stamped : Stamped (subdirs t.walk) b
  stands : ∀ path ents e, b.entries.get? path = some ents → e ∈ ents → Stands t.walk b path e
  names : ∀ path ents, b.entries.get? path = some ents → NamesOk ents
  held : Held b
  files : ∀ p ∈ hostFiles t.walk, p.2.islink = false → FileAt b p.1 p.2

/-- After the walk the build has grown by the whole tree. -/
theorem walk_grown (he : Empty fs) (hs : fs.nblocks ≤ 2 ^ 32)
    (h : t.walk.foldlM (Build.addDir limit) (rooted fs) = .ok b) : Grown t b := by
  have ht₀ := rooted_tables he.root
  have htree : (rooted fs).addTree limit (some t) = .ok b := h
  obtain ⟨done, hvisits⟩ := addTree_visits he.root htree
  have hheld : Held b := Leads.held hvisits.leads ht₀ rooted_held
  have hclean := Leads.clean hvisits.leads ht₀ rooted_clean
  have hwalking := ((walk_metered limit t).spent (List.nil_append t.walk).symm
    (rooted_walking he hs) h).1
  have hmirror : Mirror t.walk b :=
    foldlM_invariant (I := Mirror t.walk) (fun _ hw _ _ hc hone => addDir_mirror hc hw hone)
      (rooted_mirror he.root he.inodes he.stored) h
  exact ⟨hwalking, walk_stamped he hs h, hmirror.stands,
    ((wellFormed_iff hvisits.visited.tables hheld).mpr hclean).names, hheld, hvisits.files⟩

/-! ## Directories -/

/-- The entries of a directory: its own two, and one for each node in it. -/
def entryCount (t : HostTree) (here : List Str) : ℕ :=
  2 + (nodes t.walk).countP fun o => o.1 ≠ [] ∧ o.1.dropLast = here

/-- An entry of a directory other than its own two is a node in it. -/
theorem Grown.node_of_entry (h : Grown t b) (hhere : ∀ a ∈ here, HostName a)
    (hents : b.entries.get? (imagePath here) = some ents) (he : e ∈ ents)
    (hproper : e.2 ≠ str "." ∧ e.2 ≠ str "..") : ∃ node, (here ++ [e.2], node) ∈ nodes t.walk := by
  cases h.stands _ ents e hents he with
  | dots hdots => exact absurd hdots (not_or.mpr hproper)
  | @dir here' hpath hwalk hdir =>
    have hhost := hostName_of_dirs hwalk
    obtain rfl := imagePath_injective hhere (fun a ha => hhost a (List.mem_append_left _ ha)) hpath
    exact ⟨.dir, mem_nodes.mpr (Or.inl ⟨rfl, hwalk⟩)⟩
  | @file here' f hpath hf hlink hname hstored hmode =>
    have hnode : (here' ++ [f.name], Node.file f.content f.executable) ∈ nodes t.walk :=
      mem_nodes.mpr (Or.inr ⟨here', f, hf, hlink, rfl⟩)
    have hhost := hostName_of_nodes hnode
    obtain rfl := imagePath_injective hhere (fun a ha => hhost a (List.mem_append_left _ ha)) hpath
    exact ⟨_, hname ▸ hnode⟩

/-- A node in a directory has an entry there. -/
theorem Grown.entry_of_node (h : Grown t b) {node : Node}
    (hnode : (here ++ [name], node) ∈ nodes t.walk) (hents : b.entries.get? (imagePath here) = some ents) :
    ∃ e ∈ ents, e.2 = name := by
  have hhost := hostName_of_nodes hnode
  rcases mem_nodes.mp hnode with ⟨_, hmem⟩ | ⟨here', f, hf, hlink, ho⟩
  · obtain ⟨w, hw, hself⟩ := List.mem_map.mp hmem
    obtain ⟨n, hn⟩ := (h.walking.dirs (imagePath (here ++ [name]))).mpr (Or.inr ⟨w, hw, by rw [hself]⟩)
    have hne : n ≠ ROOTINO := by
      rintro rfl
      have hpath := Dict.key_unique h.walking.tables.inj hn h.walking.tables.root
      have hnil : here ++ [name] = [] :=
        imagePath_injective hhost (fun a ha => absurd ha List.not_mem_nil) hpath
      exact absurd hnil (by simp)
    obtain ⟨nm, ents', parent, tail, hlast, hents', _, hmem', _⟩ := h.held.below _ n hn hne
    rw [lastName_imagePath here (hhost name (by simp))] at hlast
    rw [parentPath_imagePath here (hhost name (by simp)), hents] at hents'
    obtain rfl := Except.ok.inj hlast
    obtain rfl := Option.some.inj hents'
    exact ⟨_, List.mem_of_mem_drop hmem', rfl⟩
  · obtain ⟨hself, _⟩ := Prod.mk.inj ho
    obtain rfl := List.append_inj_left' hself rfl
    obtain rfl := List.singleton_injective (List.append_cancel_left hself)
    obtain ⟨ents', ino, hents', hfind, _⟩ := h.files _ hf hlink
    rw [hents] at hents'
    obtain rfl := Option.some.inj hents'
    exact ⟨_, List.mem_of_find?_eq_some hfind, rfl⟩

/-- A directory has an entry for each node in it, and no more. -/
theorem Grown.entries_length (h : Grown t b) (hhere : ∀ a ∈ here, HostName a)
    (hents : b.entries.get? (imagePath here) = some ents) : ents.length = entryCount t here := by
  obtain ⟨d, p, tail, _, rfl⟩ := h.walking.tables.dots _ ents hents
  have hnodup := (h.names _ _ hents).1
  change (str "." :: str ".." :: tail.map Prod.snd).Nodup at hnodup
  obtain ⟨hdot, hrest⟩ := List.nodup_cons.mp hnodup
  obtain ⟨hdotdot, htail⟩ := List.nodup_cons.mp hrest
  have hproper : ∀ e ∈ tail, e.2 ≠ str "." ∧ e.2 ≠ str ".." := fun e he =>
    ⟨fun heq => hdot (List.mem_cons_of_mem _ (heq ▸ List.mem_map_of_mem he)),
      fun heq => hdotdot (heq ▸ List.mem_map_of_mem he)⟩
  have hL : (tail.map fun e => here ++ [e.2]).Nodup := by
    rw [show (fun e : Entry => here ++ [e.2]) = (fun a => here ++ [a]) ∘ Prod.snd from rfl,
      ← List.map_map]
    exact htail.map fun a c hac => by simpa using hac
  have hR : (((nodes t.walk).filter fun o => o.1 ≠ [] ∧ o.1.dropLast = here).map Prod.fst).Nodup :=
    (nodes_nodup t).sublist (List.filter_sublist.map _)
  have hmem : ∀ x, x ∈ (tail.map fun e => here ++ [e.2]) ↔
      x ∈ ((nodes t.walk).filter fun o => o.1 ≠ [] ∧ o.1.dropLast = here).map Prod.fst := by
    intro x
    simp only [List.mem_map, List.mem_filter, decide_eq_true_eq]
    constructor
    · rintro ⟨e, he, rfl⟩
      obtain ⟨node, hnode⟩ := h.node_of_entry hhere hents (List.mem_append_right _ he) (hproper e he)
      exact ⟨_, ⟨hnode, by simp, List.dropLast_concat⟩, rfl⟩
    · rintro ⟨⟨names, node⟩, ⟨hnode, hne, hself⟩, rfl⟩
      dsimp only at hne hself ⊢
      obtain ⟨name, rfl⟩ : ∃ name, names = here ++ [name] :=
        ⟨_, hself ▸ (List.dropLast_concat_getLast hne).symm⟩
      obtain ⟨e, he, hname⟩ := h.entry_of_node hnode hents
      have hhost : HostName name := hostName_of_nodes hnode name (by simp)
      refine ⟨e, ?_, by rw [hname]⟩
      rcases List.mem_append.mp he with he | he
      · -- the first two entries are not nodes
        exfalso
        rcases List.mem_cons.mp he with rfl | he
        · exact hhost.2.2.2.1 hname.symm
        · rw [List.mem_singleton.mp he] at hname
          exact hhost.2.2.2.2 hname.symm
      · exact he
  have hperm := (List.perm_ext_iff_of_nodup hL hR).mpr hmem
  have hlen := hperm.length_eq
  rw [List.length_map, List.length_map, ← List.countP_eq_length_filter] at hlen
  unfold entryCount
  rw [List.length_append, hlen]
  rfl

/-- The directories of the tree are those of the build. -/
theorem Grown.keys_perm (h : Grown t b) :
    b.entries.keys.Perm (t.walk.map fun w => imagePath w.1) := by
  have hnodup : (t.walk.map fun w => imagePath w.1).Nodup := by
    rw [show (fun w : List Str × List HostFile => imagePath w.1) = imagePath ∘ Prod.fst from rfl,
      ← List.map_map]
    refine (walk_nodup t).map_on fun x hx y hy hxy => ?_
    exact imagePath_injective (hostName_of_dirs hx) (hostName_of_dirs hy) hxy
  refine (List.perm_ext_iff_of_nodup b.entries.nodup hnodup).mpr fun path => ?_
  have hroot : ∃ w ∈ t.walk, imagePath w.1 = [sep] := ⟨_, List.mem_cons_self, rfl⟩
  have hdir : path ∈ b.entries.keys ↔ ∃ d, b.dirs.get? path = some d := by
    rw [h.walking.tables.keys]
    exact ⟨Dict.get?_of_mem_keys, fun ⟨_, hd⟩ => Dict.mem_keys_of_get? hd⟩
  rw [show path ∈ List.map Prod.fst b.entries.items ↔ path ∈ b.entries.keys from Iff.rfl, hdir,
    h.walking.dirs, List.mem_map]
  constructor
  · rintro (rfl | ⟨w, hw, rfl⟩)
    · exact hroot
    · exact ⟨w, hw, rfl⟩
  · rintro ⟨w, hw, rfl⟩
    exact Or.inr ⟨w, hw, rfl⟩

/-! ## What the nodes take -/

/-- What a node of a tree takes on an image. -/
def nodeTakes (t : HostTree) (o : Object) : Resource → ℕ
  | .inode => 1
  | .block =>
    match o.2 with
    | .dir => dirCost (entryCount t o.1)
    | .file content _ => fileCost content

variable {w : List Str × List HostFile}

/-- What the nodes of one directory take: its own inode and blocks, and those of its
files. -/
theorem nodesIn_takes (t : HostTree) (w : List Str × List HostFile) :
    total (nodeTakes t) (nodesIn w) .inode = 1 + total fileTakes (sortedFiles w.2) .inode ∧
      total (nodeTakes t) (nodesIn w) .block =
        dirCost (entryCount t w.1) + total fileTakes (sortedFiles w.2) .block := by
  unfold nodesIn
  rw [total_cons, total_cons]
  refine ⟨congrArg (1 + ·) ?_, congrArg (dirCost (entryCount t w.1) + ·) ?_⟩ <;>
  · induction sortedFiles w.2 with
    | nil => rfl
    | cons f files ih =>
      cases hlink : f.islink with
      | true =>
        rw [List.filterMap_cons_none (by rw [hlink]; rfl), total_cons, ih, fileTakes, if_pos hlink,
          Nat.zero_add]
      | false =>
        rw [List.filterMap_cons_some (by rw [hlink]; rfl), total_cons, total_cons, ih, fileTakes,
          if_neg (by rw [hlink]; simp)]
        rfl

/-- The blocks of the nodes are those of the files and those of the directories. -/
theorem nodes_blocks (t : HostTree) : total (nodeTakes t) (nodes t.walk) .block =
    total (fun w _ => dirCost (entryCount t w.1)) t.walk Resource.block +
      total dirTakes t.walk .block := by
  unfold nodes
  rw [total_flatMap, ← total_add]
  exact total_congr fun w _ => (nodesIn_takes t w).2

/-- The inodes of the nodes are one more than the walk allocates. -/
theorem nodes_inodes (t : HostTree) :
    total (nodeTakes t) (nodes t.walk) .inode = total dirTakes t.walk .inode + 1 := by
  have hbelow : ∀ w ∈ t.top.walkFrom [], w.1 ≠ [] := by
    intro w hw hnil
    have hnodup := walk_nodup t
    rw [HostTree.walk, List.map_cons, List.nodup_cons] at hnodup
    exact hnodup.1 (List.mem_map.mpr ⟨w, hw, hnil⟩)
  have hrest : total (fun w => total (nodeTakes t) (nodesIn w)) (t.top.walkFrom []) .inode =
      total dirTakes (t.top.walkFrom []) .inode := by
    refine total_congr fun w hw => ?_
    rw [(nodesIn_takes t w).1, dirTakes, if_neg (hbelow w hw)]
  unfold nodes
  rw [total_flatMap, HostTree.walk, total_cons, total_cons, hrest, (nodesIn_takes t _).1, dirTakes,
    if_pos rfl]
  omega

/-- Every object of the tree takes one inode. -/
theorem total_inodes (t : HostTree) (l : List Object) : total (nodeTakes t) l .inode = l.length := by
  induction l with
  | nil => rfl
  | cons o l ih =>
    rw [total_cons, ih, List.length_cons, Nat.add_comm]
    rfl

/-- The blocks of the directories as the build has them. -/
theorem Grown.store_total (h : Grown t b) : total storeTakes b.entries.items .block =
    total (fun w _ => dirCost (entryCount t w.1)) t.walk Resource.block := by
  let g : Str → Resource → ℕ := fun path _ =>
    (b.entries.get? path).elim 0 fun ents => dirCost ents.length
  have hget : ∀ {path ents}, b.entries.get? path = some ents →
      g path .block = dirCost ents.length := by
    intro path ents hents
    change (b.entries.get? path).elim 0 _ = _
    rw [hents]
    rfl
  have hitems : total storeTakes b.entries.items .block = total g b.entries.keys .block := by
    unfold Dict.keys
    rw [total_map]
    exact total_congr fun p hp => (hget (Dict.get?_eq_some.mpr hp)).symm
  rw [hitems, total_perm h.keys_perm, total_map]
  refine total_congr fun w hw => ?_
  obtain ⟨d, hd⟩ := (h.walking.dirs (imagePath w.1)).mpr (Or.inr ⟨w, hw, rfl⟩)
  obtain ⟨ents, hents⟩ := h.walking.tables.get?_entries hd
  rw [hget hents, h.entries_length (hostName_of_dirs (List.mem_map_of_mem hw)) hents]

/-! ## Writing it out -/

/-- Numbers of the superblock are the same for filesystems of one shape with as
many inodes. -/
theorem superFits_congr (hs : Shaped fs fs') (hnext : fs'.next_ino = fs.next_ino) :
    SuperFits fs' ↔ SuperFits fs := by
  have hfree : fs'.free_ino = fs.free_ino := by
    unfold Fs.free_ino
    rw [hnext, hs.ninodes]
  constructor
  · intro h
    exact ⟨hs.iblocks ▸ h.isize, hs.nblocks ▸ h.fsize, hfree ▸ h.inodes, hs.now ▸ h.time,
      hs.ninodes ▸ hnext ▸ h.tinode⟩
  · intro h
    exact ⟨hs.iblocks.symm ▸ h.isize, hs.nblocks.symm ▸ h.fsize, hfree.symm ▸ h.inodes,
      hs.now.symm ▸ h.time, by rw [hs.ninodes, hnext]; exact h.tinode⟩

/-- The i-list can be written out when no directory has too many subdirectories. -/
theorem Grown.inodes_fit (h : Grown t b) (hr : Restocked b.fs fs) (hni : fs.ninodes = b.fs.ninodes) :
    (∃ fs', fs.write_inodes = .ok fs') ↔
      (∀ w ∈ t.walk, subdirs t.walk w.1 + 2 < 2 ^ 15) ∧ 0 ≤ fs.now ∧ fs.now < 2 ^ 32 := by
  have hst := h.stamped
  have hdir : ∀ w ∈ t.walk, ∃ n i, 1 ≤ n ∧ n ≤ fs.ninodes ∧ fs.inodes n = some i ∧
      i.nlink = 2 + subdirs t.walk w.1 := by
    intro w hw
    obtain ⟨n, hn⟩ := (h.walking.dirs (imagePath w.1)).mpr (Or.inr ⟨w, hw, rfl⟩)
    obtain ⟨i, hi, hlink⟩ := hst.dirs w.1 (hostName_of_dirs (List.mem_map_of_mem hw)) n hn
    obtain ⟨i', hi', hlink'⟩ := hr.new n i hi
    obtain ⟨h1, hlt⟩ := hst.fresh n i hi
    have hroom := hst.next.2
    exact ⟨n, i', h1, by omega, hi', hlink'.trans hlink⟩
  rw [write_inodes_completes]
  constructor
  · intro hall
    refine ⟨fun w hw => ?_, ?_⟩
    · obtain ⟨n, i, h1, hn, hi, hlink⟩ := hdir w hw
      have hfit := (hall n i h1 hn hi).1.nlink
      omega
    · obtain ⟨n, i, h1, hn, hi, _⟩ := hdir _ List.mem_cons_self
      exact (hall n i h1 hn hi).2
  · rintro ⟨hlinks, htime⟩ n i' _ _ hi'
    obtain ⟨i, hi, hlink', hplain'⟩ := hr.old n i' hi'
    obtain ⟨hplain, hlink⟩ := hst.plain n i hi
    obtain ⟨hmode, huid, hgid, hsize⟩ := hplain' hplain
    refine ⟨⟨hmode, ?_, huid, hgid, hsize⟩, htime⟩
    rw [hlink']
    rcases hlink with hone | ⟨path, hd⟩
    · rw [hone]
      decide
    · obtain ⟨w, hw, rfl⟩ : ∃ w ∈ t.walk, path = imagePath w.1 := by
        rcases (h.walking.dirs path).mp ⟨n, hd⟩ with rfl | hw
        · exact ⟨_, List.mem_cons_self, rfl⟩
        · exact hw
      obtain ⟨j, hj, hjlink⟩ := hst.dirs w.1 (hostName_of_dirs (List.mem_map_of_mem hw)) n hd
      rw [hi] at hj
      obtain rfl := Option.some.inj hj
      have hfit := hlinks w hw
      omega

/-- What a walk leads to can be written out when its directories can be stored,
its inodes fit, and so do the numbers of the superblock. -/
theorem Grown.finish_completes (h : Grown t b) : (∃ b', b.finish = .ok b') ↔
    ((∀ p ∈ b.entries.items, StoreFits p) ∧
      ∀ i, total storeTakes b.entries.items i ≤ left b.fs i) ∧
    (∀ w ∈ t.walk, subdirs t.walk w.1 + 2 < 2 ^ 15) ∧ SuperFits b.fs := by
  have hdirs : ∀ p ∈ b.entries.items, ∃ d, b.dirs.get? p.1 = some d := fun p hp =>
    h.walking.tables.get?_dirs (Dict.get?_eq_some.mpr hp)
  have hstore := (dirs_metered hdirs).completes (List.nil_append b.entries.items).symm
    h.walking.small
  have hrest : ∀ fs₁, b.entries.items.foldlM b.storeDir b.fs = .ok fs₁ →
      ((∃ b', (do
        let fs ← fs₁.write_inodes
        let fs ← fs.build_free_list
        let fs ← fs.write_superblock
        return { b with fs := fs } : Except Failure Build) = .ok b') ↔
      (∀ w ∈ t.walk, subdirs t.walk w.1 + 2 < 2 ^ 15) ∧ SuperFits b.fs) := by
    intro fs₁ hfold
    have hshape := storeDirs_shaped hfold
    have hnext : fs₁.next_ino = b.fs.next_ino :=
      foldlM_invariant (I := fun f : Fs => f.next_ino = b.fs.next_ino) (fun p _ f f' hf hone => by
        obtain ⟨_, _, _, _, hdata⟩ := storeDir_eq hone
        exact (store_data_next_ino hdata).trans hf) rfl hfold
    have htail : ∀ fs₂, fs₁.write_inodes = .ok fs₂ →
        ((∃ b', (do
          let fs ← fs₂.build_free_list
          let fs ← fs.write_superblock
          return { b with fs := fs } : Except Failure Build) = .ok b') ↔ SuperFits b.fs) := by
      intro fs₂ hwrite
      have hsame₂ : SameTables fs₁ fs₂ := by
        obtain ⟨ws, _, hwritten⟩ := write_inodes_eq hwrite
        rw [hwritten]
        rfl
      have hshape₂ := hshape.trans hsame₂.shaped
      obtain ⟨fs₃, hfree, hstacked, htfree⟩ :=
        build_free_list_completes (hshape₂.nblocks.trans_le h.walking.small)
      have hsame := build_free_list_same hfree
      have hshape₃ := hshape₂.trans hsame.shaped
      have hle : fs₃.tfree ≤ fs₃.nblocks := by
        rw [htfree, hsame.shaped.nblocks]
        exact Nat.sub_le _ _
      have hpure : ∀ g : Fs → Except Failure Build, (Except.ok fs₃ >>= g) = g fs₃ := fun _ => rfl
      rw [hfree, hpure]
      have hlast : (∃ b', (fs₃.write_superblock >>= fun fs => pure { b with fs := fs }) =
          (.ok b' : Except Failure Build)) ↔ ∃ fs', fs₃.write_superblock = .ok fs' :=
        bind_completes_of_forall fun fs _ => ⟨{ b with fs := fs }, rfl⟩
      refine (hlast.trans (write_superblock_completes hstacked hle)).trans ?_
      exact superFits_congr hshape₃ (hsame.next_ino.trans (hsame₂.next_ino.trans hnext))
    refine (bind_completes (h.inodes_fit (storeDirs_restocked hfold) hshape.ninodes) htail).trans ?_
    constructor
    · rintro ⟨⟨hlinks, _⟩, hsuper⟩
      exact ⟨hlinks, hsuper⟩
    · rintro ⟨hlinks, hsuper⟩
      exact ⟨⟨hlinks, hshape.now.symm ▸ hsuper.time⟩, hsuper⟩
  unfold Build.finish
  exact bind_completes hstore hrest

/-! ## The numbers -/

/-- The root takes one inode and no block. -/
theorem left_rooted (he : Empty fs) : left (rooted fs).fs .inode + 1 = left fs .inode ∧
    left (rooted fs).fs .block = left fs .block := by
  have hroom := he.room
  have hnext : (rooted fs).fs.next_ino = fs.next_ino + 1 := rfl
  have hninodes : (rooted fs).fs.ninodes = fs.ninodes := rfl
  refine ⟨?_, rfl⟩
  unfold left
  dsimp only
  omega

/-- Storing the directories takes no inode. -/
theorem total_stores (l : List (Str × List Entry)) : total storeTakes l .inode = 0 := by
  induction l with
  | nil => rfl
  | cons p l ih =>
    rw [total_cons, ih]
    rfl

/-- The numbers of a filesystem after the walk. -/
structure Counted (t : HostTree) (fs : Fs) (b : Build) : Prop where
  shaped : Shaped fs b.fs
  next_ino : b.fs.next_ino = (nodes t.walk).length + 2
  left : ∀ i, left b.fs i + total (nodeTakes t) (nodes t.walk) i =
    left fs i + total storeTakes b.entries.items i

/-- After the walk the numbers of the filesystem are those of the tree. -/
theorem walk_counted (he : Empty fs) (hs : fs.nblocks ≤ 2 ^ 32)
    (h : t.walk.foldlM (Build.addDir limit) (rooted fs) = .ok b) : Counted t fs b := by
  have htree : (rooted fs).addTree limit (some t) = .ok b := h
  obtain ⟨done, hvisits⟩ := addTree_visits he.root htree
  have hshape : Shaped (rooted fs).fs b.fs := Leads.shaped hvisits.leads
  have hspent := ((walk_metered limit t).spent (List.nil_append t.walk).symm
    (rooted_walking he hs) h).2
  have hinodes := nodes_inodes t
  obtain ⟨hroot, hblock⟩ := left_rooted he
  refine ⟨⟨hshape.nblocks, hshape.iblocks, hshape.first_data, hshape.ninodes, hshape.now,
    hshape.next_block⟩, ?_, fun i => ?_⟩
  · have hstamped := (walk_stamped he hs h).next.2
    have hlen := total_inodes t (nodes t.walk)
    have hsame : b.fs.ninodes = fs.ninodes := hshape.ninodes
    have htwo : fs.next_ino = 2 := he.root
    have hroom := he.room
    have hspent := hspent .inode
    unfold left at hspent hroot
    dsimp only at hspent hroot
    omega
  · have hspent := hspent i
    cases i with
    | inode =>
      rw [total_stores]
      omega
    | block =>
      rw [(walk_grown he hs h).store_total, nodes_blocks]
      omega

/-! ## A whole build -/

/-- The directories of what a walk leads to can be stored when the names of the
tree fit directory entries. -/
theorem Grown.stores_fit (h : Grown t b) (hnext : b.fs.next_ino = (nodes t.walk).length + 2)
    (hlt : b.fs.next_ino ≤ 2 ^ 16) :
    (∀ p ∈ b.entries.items, StoreFits p) ↔ ∀ o ∈ nodes t.walk, ∀ a ∈ o.1, NameFits a := by
  constructor
  · intro hall o ho a ha
    obtain ⟨front, rest, hself⟩ := List.append_of_mem ha
    -- the name is that of the node, or of a directory on the way to it
    have hnode : ∃ node, (front ++ [a], node) ∈ nodes t.walk := by
      by_cases hlast : front ++ [a] = o.1
      · exact ⟨o.2, by rw [hlast]; exact ho⟩
      · exact ⟨.dir, nodes_above ho ⟨rest, by rw [hself]; simp⟩ hlast⟩
    obtain ⟨node, hnode⟩ := hnode
    have hfront : (front, Node.dir) ∈ nodes t.walk :=
      nodes_above hnode (List.prefix_append _ _) (by simp)
    have hwalk : front ∈ t.walk.map Prod.fst := by
      rcases mem_nodes.mp hfront with ⟨_, hmem⟩ | ⟨_, f, _, _, ho⟩
      · exact hmem
      · cases (Prod.mk.inj ho).2
    obtain ⟨w, hw, rfl⟩ := List.mem_map.mp hwalk
    obtain ⟨d, hd⟩ := (h.walking.dirs (imagePath w.1)).mpr (Or.inr ⟨w, hw, rfl⟩)
    obtain ⟨ents, hents⟩ := h.walking.tables.get?_entries hd
    obtain ⟨e, he, rfl⟩ := h.entry_of_node hnode hents
    exact ((hall _ (Dict.get?_eq_some.mp hents)).1 e he).1
  · intro hnames p hp
    have hents := Dict.get?_eq_some.mpr hp
    obtain ⟨w, hw, hpath⟩ : ∃ w ∈ t.walk, p.1 = imagePath w.1 := by
      rcases (h.walking.dirs p.1).mp (h.walking.tables.get?_dirs hents) with hroot | hw
      · exact ⟨_, List.mem_cons_self, hroot⟩
      · exact hw
    have hhost : ∀ a ∈ w.1, HostName a := hostName_of_dirs (List.mem_map_of_mem hw)
    rw [hpath] at hents
    refine ⟨fun e he => ⟨?_, ?_⟩, ?_⟩
    · by_cases hproper : e.2 ≠ str "." ∧ e.2 ≠ str ".."
      · obtain ⟨node, hnode⟩ := h.node_of_entry hhost hents he hproper
        exact hnames _ hnode e.2 (by simp)
      · have hdots : ∀ name ∈ [str ".", str ".."], NameFits name := by
          simp only [List.forall_mem_cons, NameFits]
          decide
        refine hdots e.2 ?_
        by_cases hdot : e.2 = str "."
        · rw [hdot]
          exact List.mem_cons_self
        · rw [not_not.mp fun hdotdot => hproper ⟨hdot, hdotdot⟩]
          exact List.mem_cons_of_mem _ List.mem_cons_self
    · have hnamed := h.walking.tables.named_lt e.1 (mem_named.mpr ⟨_, _, e.2, hents, he⟩)
      omega
    · have hlen := h.entries_length hhost hents
      have hcount : entryCount t w.1 ≤ 2 + (nodes t.walk).length :=
        Nat.add_le_add_left List.countP_le_length 2
      have hB : BSIZE = 1024 := rfl
      rw [outerCount_le]
      unfold chunkCount
      rw [hB]
      omega

/-- What is known of the filesystem when the superblock can be written. -/
theorem superFits_next (h : SuperFits fs) (hle : fs.next_ino ≤ fs.ninodes) :
    fs.next_ino < 2 ^ 16 := by
  refine h.inodes _ ?_
  unfold Fs.free_ino
  rw [show fs.ninodes + 1 - fs.next_ino = fs.ninodes - fs.next_ino + 1 by omega, List.range'_succ]
  exact List.mem_cons_self

/-- On an empty filesystem `start` makes the root. -/
theorem start_rooted (he : Empty fs) : Build.start fs = .ok (rooted fs) := by
  obtain ⟨⟨fs₁, ino⟩, halloc⟩ := (alloc_inode_completes fs (Int.lor S_IFDIR 0o755)).mpr he.room
  have hroot : ino = ROOTINO := by
    rw [(alloc_inode_eq halloc).2.1]
    exact he.root
  cases hb : Build.start fs with
  | ok b => rw [(start_eq hb).2.2]
  | error e =>
    unfold Build.start at hb
    rw [halloc] at hb
    exact absurd ((if_pos hroot).symm.trans hb) nofun

/-- A tree that fits a filesystem with its directories made and its files
stored: the names, the budgets, the subdirectories and the superblock. -/
structure Holds (t : HostTree) (fs : Fs) : Prop where
  names : ∀ o ∈ nodes t.walk, ∀ a ∈ o.1, NameFits a
  room : ∀ i, total (nodeTakes t) (nodes t.walk) i ≤ left fs i
  links : ∀ w ∈ t.walk, subdirs t.walk w.1 + 2 < 2 ^ 15
  super : SuperFits { fs with next_ino := (nodes t.walk).length + 2 }

/-- After the walk `finish` completes exactly when the tree's blocks and inodes are there.
-/
theorem finish_holds (he : Empty fs) (hs : fs.nblocks ≤ 2 ^ 32)
    (h : t.walk.foldlM (Build.addDir limit) (rooted fs) = .ok b) :
    (∃ b', b.finish = .ok b') ↔ Holds t fs := by
  have hgrown := walk_grown he hs h
  have hcount := walk_counted he hs h
  have hshape := hcount.shaped
  have hsuper : SuperFits b.fs ↔ SuperFits { fs with next_ino := (nodes t.walk).length + 2 } :=
    superFits_congr ⟨hshape.nblocks, hshape.iblocks, hshape.first_data, hshape.ninodes, hshape.now,
      hshape.next_block⟩ hcount.next_ino
  have hroom : (∀ i, total storeTakes b.entries.items i ≤ left b.fs i) ↔
      ∀ i, total (nodeTakes t) (nodes t.walk) i ≤ left fs i := by
    refine forall_congr' fun i => ?_
    have hi := hcount.left i
    omega
  have hstores : SuperFits b.fs → ((∀ p ∈ b.entries.items, StoreFits p) ↔
      ∀ o ∈ nodes t.walk, ∀ a ∈ o.1, NameFits a) := fun hfits =>
    hgrown.stores_fit hcount.next_ino (superFits_next hfits hgrown.stamped.next.2).le
  rw [hgrown.finish_completes, hroom]
  constructor
  · rintro ⟨⟨hstore, hleft⟩, hlinks, hfits⟩
    exact ⟨(hstores hfits).mp hstore, hleft, hlinks, hsuper.mp hfits⟩
  · intro hh
    have hfits := hsuper.mpr hh.super
    exact ⟨⟨(hstores hfits).mpr hh.names, hh.room⟩, hh.links, hfits⟩

/-- A build without spec lines completes when the tree fits the filesystem. -/
theorem build_completes (he : Empty fs) (hs : fs.nblocks ≤ 2 ^ 32) :
    (∃ b, build limit fs (some t) [] = .ok b) ↔ (∀ w ∈ t.walk, DirFits limit w) ∧ Holds t fs := by
  have hwalk := (walk_metered limit t).completes (List.nil_append t.walk).symm (rooted_walking he hs)
  have hbuild : build limit fs (some t) [] =
      t.walk.foldlM (Build.addDir limit) (rooted fs) >>= Build.finish := by
    unfold build
    rw [start_rooted he]
    rfl
  rw [hbuild]
  refine (bind_completes hwalk fun b hb => finish_holds he hs hb).trans ?_
  constructor
  · rintro ⟨⟨hdirs, _⟩, hh⟩
    exact ⟨hdirs, hh⟩
  · rintro ⟨hdirs, hh⟩
    refine ⟨⟨hdirs, fun i => ?_⟩, hh⟩
    have hi := hh.room i
    obtain ⟨hroot, hblock⟩ := left_rooted he
    have hinodes := nodes_inodes t
    have hblocks := nodes_blocks t
    cases i with
    | inode => omega
    | block => omega

/-! ## The program -/

/-- The nodes of a tree, and the blocks they take. -/
def nodeCount (t : HostTree) : ℕ := (nodes t.walk).length

def blockCount (t : HostTree) : ℕ := total (nodeTakes t) (nodes t.walk) .block

/-- A tree that an image of `n` blocks can hold. -/
structure Fits (limit : ℕ) (now : ℤ) (n : ℕ) (t : HostTree) : Prop where
  /-- A directory is made with one call for itself and one for the directory it is in. -/
  depth : ∀ w ∈ t.walk, (if w.1 = [] then 1 else 2) ≤ limit
  names : ∀ o ∈ nodes t.walk, ∀ a ∈ o.1, NameFits a
  /-- No file needs a triple-indirect block. -/
  sizes : ∀ here content x, (here, Node.file content x) ∈ nodes t.walk →
    dataCount content ≤ 10 + 256 + 256 * 256
  /-- Each directory is linked from itself, from above and from each subdirectory. -/
  links : ∀ w ∈ t.walk, subdirs t.walk w.1 + 2 < 2 ^ 15
  /-- The first inode is not used, and neither is the last. -/
  inodes : nodeCount t + 2 ≤ inodeCount n
  blocks : 2 + inodeCount n / INOPB + blockCount t ≤ n
  /-- The free inodes that the superblock lists have 16-bit numbers. -/
  listed : min (nodeCount t + 101) (inodeCount n) < 2 ^ 16
  /-- The number of free inodes has 16 bits, too. -/
  counted : inodeCount n ≤ nodeCount t + 2 ^ 16
  time : 0 ≤ now ∧ now < 2 ^ 32

variable {now : ℤ}

/-- The inodes fill whole blocks, and there are at least 512 of them. -/
theorem inodeCount_blocks (n : ℕ) :
    (inodeCount n + INOPB - 1) / INOPB * INOPB = inodeCount n ∧ n ≤ 8 * inodeCount n + 7 ∧
      512 ≤ inodeCount n := by
  have hI : INOPB = 16 := rfl
  unfold inodeCount
  rw [hI]
  omega

/-- A filesystem just made is empty. -/
theorem init_empty (now : ℤ) (n : ℕ) : Empty (Fs.init now n (inodeCount n)) := by
  obtain ⟨hmult, _, hpos⟩ := inodeCount_blocks n
  refine ⟨rfl, ?_, fun _ => rfl, rfl⟩
  change 2 < (inodeCount n + INOPB - 1) / INOPB * INOPB
  omega

/-- The first numbers of a range lie below a bound exactly when the last of them does. -/
theorem forall_range'_take {s l k bound : ℕ} (hl : 0 < l) (hk : 0 < k) :
    (∀ x ∈ (List.range' s l).take k, x < bound) ↔ s + min k l ≤ bound := by
  rw [take_range', forall_range'_lt (by omega)]

/-- The superblock of the image that `main` sets up. -/
theorem superFits_init {n k : ℕ} (hk : k + 2 ≤ inodeCount n) :
    SuperFits { Fs.init now n (inodeCount n) with next_ino := k + 2 } ↔
      min (k + 101) (inodeCount n) < 2 ^ 16 ∧ inodeCount n ≤ k + 2 ^ 16 ∧ 0 ≤ now ∧ now < 2 ^ 32 := by
  obtain ⟨hmult, hn, hpos⟩ := inodeCount_blocks n
  have hI : INOPB = 16 := rfl
  have hlisted : (∀ x ∈ (Fs.free_ino { Fs.init now n (inodeCount n) with next_ino := k + 2 }),
      x < 2 ^ 16) ↔ min (k + 101) (inodeCount n) < 2 ^ 16 := by
    unfold Fs.free_ino Fs.init
    dsimp only
    rw [hmult, forall_range'_take (by omega) (by decide), show NICINOD = 100 from rfl]
    omega
  have htinode : (0 : ℤ) ≤ ((inodeCount n + INOPB - 1) / INOPB * INOPB : ℕ) - (k + 2 : ℕ) + 1 ∧
      (((inodeCount n + INOPB - 1) / INOPB * INOPB : ℕ) - (k + 2 : ℕ) + 1 : ℤ) < 2 ^ 16 ↔
        inodeCount n ≤ k + 2 ^ 16 := by
    rw [hmult]
    omega
  constructor
  · intro h
    exact ⟨hlisted.mp h.inodes, htinode.mp h.tinode, h.time⟩
  · rintro ⟨hlist, hcount, htime⟩
    have hisize : (inodeCount n + INOPB - 1) / INOPB + 2 < 2 ^ 16 := by
      rw [hI] at hmult ⊢
      omega
    have hfsize : n < 2 ^ 32 := by omega
    exact ⟨hisize, hfsize, hlisted.mpr hlist, htime, htinode.mpr hcount⟩

/-- A tree needs at least the block of its root. -/
theorem blockCount_pos (t : HostTree) : 0 < blockCount t := by
  have hroot : 0 < dirCost (entryCount t []) := by
    unfold dirCost entryCount cost chunkCount
    rw [show BSIZE = 1024 from rfl]
    omega
  have hfirst : dirCost (entryCount t []) ≤ total (fun w _ => dirCost (entryCount t w.1)) t.walk
      Resource.block := Nat.le_add_right _ _
  unfold blockCount
  rw [nodes_blocks]
  omega

/-- Every directory fits exactly when the recursion limit allows its path and every file
is within the double indirect table. -/
theorem dirFits_iff : (∀ w ∈ t.walk, DirFits limit w) ↔
    (∀ w ∈ t.walk, (if w.1 = [] then 1 else 2) ≤ limit) ∧
      ∀ here content x, (here, Node.file content x) ∈ nodes t.walk →
        dataCount content ≤ 10 + 256 + 256 * 256 := by
  constructor
  · intro h
    refine ⟨fun w hw => (h w hw).1, fun here content x hnode => ?_⟩
    rcases mem_nodes.mp hnode with ⟨hdir, _⟩ | ⟨front, f, hf, hlink, ho⟩
    · cases hdir
    · obtain ⟨_, hfile⟩ := Prod.mk.inj ho
      obtain ⟨rfl, _⟩ := Node.file.inj hfile
      obtain ⟨w, hw, hpair⟩ := List.mem_flatMap.mp hf
      obtain ⟨g, hg, hpair⟩ := List.mem_map.mp hpair
      obtain ⟨_, rfl⟩ := Prod.mk.inj hpair
      exact (outerCount_le _).mp ((h w hw).2 g hg hlink)
  · rintro ⟨hdepth, hsizes⟩ w hw
    refine ⟨hdepth w hw, fun f hf hlink => (outerCount_le _).mpr ?_⟩
    refine hsizes (w.1 ++ [f.name]) f.content f.executable (mem_nodes.mpr (Or.inr ?_))
    exact ⟨w.1, f, List.mem_flatMap.mpr ⟨w, hw, List.mem_map_of_mem hf⟩, hlink, rfl⟩

/-- A tree fits the image that `main` sets up when `build` has room for it. -/
theorem fits_iff {n : ℕ} : Fits limit now n t ↔
    (∀ w ∈ t.walk, DirFits limit w) ∧ Holds t (Fs.init now n (inodeCount n)) := by
  obtain ⟨hmult, _, hpos⟩ := inodeCount_blocks n
  have hblocks := blockCount_pos t
  have hroom : (∀ i, total (nodeTakes t) (nodes t.walk) i ≤ left (Fs.init now n (inodeCount n)) i) ↔
      nodeCount t + 2 ≤ inodeCount n ∧ 2 + inodeCount n / INOPB + blockCount t ≤ n := by
    rw [forall_resource, total_inodes]
    unfold left Fs.init
    dsimp only
    rw [hmult, show (inodeCount n + INOPB - 1) / INOPB = inodeCount n / INOPB by
      rw [show INOPB = 16 from rfl] at hmult ⊢
      omega]
    unfold nodeCount
    unfold blockCount at hblocks ⊢
    omega
  rw [dirFits_iff]
  constructor
  · intro h
    exact ⟨⟨h.depth, h.sizes⟩, h.names, hroom.mpr ⟨h.inodes, h.blocks⟩, h.links,
      (superFits_init h.inodes).mpr ⟨h.listed, h.counted, h.time⟩⟩
  · rintro ⟨⟨hdepth, hsizes⟩, h⟩
    obtain ⟨hinodes, hblocks⟩ := hroom.mp h.room
    obtain ⟨hlisted, hcounted, htime⟩ := (superFits_init hinodes).mp h.super
    exact ⟨hdepth, h.names, hsizes, h.links, hinodes, hblocks, hlisted, hcounted, htime⟩

/-- A completed build has at most `2 ^ 32` blocks. -/
theorem build_small {n : ℕ} (h : build limit (Fs.init now n (inodeCount n)) (some t) [] = .ok b) :
    n ≤ 2 ^ 32 := by
  obtain ⟨_, fs₁, _, _, _, _, _, hwritten⟩ :=
    MkfsInodes.build_finished (allNames_true []) h
  have hsize := hwritten.isize
  rw [hwritten.shape.2] at hsize
  exact (MkfsRoundTrip.nblocks_small hsize).le.trans (by decide)

/-- Writing the disk table never fails. -/
theorem putDisktab_completes (b : Build) (disktab : Bool) : ∃ b', putDisktab b disktab = .ok b' := by
  cases disktab with
  | false => exact ⟨b, rfl⟩
  | true => exact ⟨_, rfl⟩

/-- `build` without spec lines comes to its end just when the tree fits. -/
theorem build_fits_iff {n : ℕ} :
    (∃ b, build limit (Fs.init now n (inodeCount n)) (some t) [] = .ok b) ↔ Fits limit now n t := by
  constructor
  · rintro ⟨b, hb⟩
    exact fits_iff.mpr ((build_completes (init_empty now _) (build_small hb)).mp ⟨b, hb⟩)
  · intro h
    have hsmall : n ≤ 2 ^ 32 := by
      obtain ⟨_, hle, _⟩ := inodeCount_blocks n
      have hlisted := h.listed
      have hcounted := h.counted
      omega
    exact (build_completes (init_empty now _) hsmall).mpr (fits_iff.mp h)

/-- A tree that fits is written. -/
theorem main_of_fits {n : ℕ} (h : Fits limit now n t) (disktab : Bool) :
    ∃ b, MkfsBuild.main limit now n (some t) [] disktab = .ok b := by
  unfold MkfsBuild.main
  rw [if_neg (by omega), Int.toNat_natCast]
  exact (bind_completes_of_forall fun b _ => putDisktab_completes b disktab).mpr
    (build_fits_iff.mpr h)

/-- `main` without spec lines writes an image just when the tree fits it. -/
theorem main_completes_iff {nblocks : ℤ} {disktab : Bool} :
    (∃ b, MkfsBuild.main limit now nblocks (some t) [] disktab = .ok b) ↔
      0 ≤ nblocks ∧ Fits limit now nblocks.toNat t := by
  by_cases hneg : nblocks < 0
  · unfold MkfsBuild.main
    rw [if_pos hneg]
    exact iff_of_false nofun fun h => by omega
  · obtain ⟨n, rfl⟩ := Int.eq_ofNat_of_zero_le (not_lt.mp hneg)
    refine ⟨fun h => ⟨Int.natCast_nonneg n, ?_⟩, fun h => main_of_fits h.2 disktab⟩
    unfold MkfsBuild.main at h
    rw [if_neg hneg] at h
    exact build_fits_iff.mp
      ((bind_completes_of_forall fun b _ => putDisktab_completes b disktab).mp h)

end Sys16.TreeCapacity
