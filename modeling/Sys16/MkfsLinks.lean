import Sys16.MkfsFinish

/-!
# Link counts

The link counts are kept in four places of the build while the entries are
kept in lists of their own. Every act changes the two alike, so in every build
that completes each inode's count is the number of entries naming it.
-/

namespace Sys16.MkfsLinks

open Function PyText PyDict HostWalk MkfsImage MkfsBlocks MkfsBuild MkfsActs MkfsWalk MkfsFinish

variable {b b' : Build} {fs fs' : Fs} {n m : ℕ} {i : Inode} {P : Rule}

/-- The link count of an inode, zero when it has not been allocated. -/
def nlinkOf (inodes : ℕ → Option Inode) (n : ℕ) : ℕ := ((inodes n).map Inode.nlink).getD 0

/-- The link count of an inode after one is set. -/
theorem nlinkOf_update (inodes : ℕ → Option Inode) (n m : ℕ) (o : Option Inode) :
    nlinkOf (update inodes n o) m = if m = n then (o.map Inode.nlink).getD 0
      else nlinkOf inodes m := by
  unfold nlinkOf
  by_cases h : m = n
  · rw [if_pos h, h, update_self]
  · rw [if_neg h, update_of_ne h]

/-- A change of an inode that keeps its link count keeps them all. -/
theorem nlinkOf_keep {f : Inode → Inode} (hf : ∀ i, (f i).nlink = i.nlink) (n m : ℕ) :
    nlinkOf (fs.modify n f).inodes m = nlinkOf fs.inodes m := by
  rw [inodes_modify, nlinkOf_update]
  by_cases h : m = n
  · rw [if_pos h, h, nlinkOf, Option.map_map]
    exact congrArg (fun g => ((fs.inodes n).map g).getD 0) (funext hf)
  · rw [if_neg h]

/-- One more link to an inode that has been allocated. -/
theorem nlinkOf_succ (hn : (fs.inodes n).isSome) (m : ℕ) :
    nlinkOf (fs.modify n fun i => { i with nlink := i.nlink + 1 }).inodes m =
      nlinkOf fs.inodes m + if m = n then 1 else 0 := by
  rw [inodes_modify, nlinkOf_update]
  by_cases h : m = n
  · obtain ⟨i, hi⟩ := Option.isSome_iff_exists.mp hn
    rw [if_pos h, if_pos h, h, nlinkOf, hi]
    rfl
  · rw [if_neg h, if_neg h, Nat.add_zero]

/-- A new inode has one link. -/
theorem nlinkOf_allocated (fs : Fs) (mode : ℤ) (m : ℕ) :
    nlinkOf (allocated fs mode).inodes m =
      if m = fs.next_ino then 1 else nlinkOf fs.inodes m :=
  nlinkOf_update _ _ _ _

theorem isSome_modify (fs : Fs) (n : ℕ) (f : Inode → Inode) (m : ℕ) :
    ((fs.modify n f).inodes m).isSome = (fs.inodes m).isSome := by
  rw [inodes_modify]
  by_cases h : m = n
  · rw [h, update_self, Option.isSome_map]
  · rw [update_of_ne h]

/-- The allocated inodes are those before and the new one. -/
theorem isSome_allocated (fs : Fs) (mode : ℤ) (m : ℕ) :
    ((allocated fs mode).inodes m).isSome = true ↔
      m = fs.next_ino ∨ (fs.inodes m).isSome = true := by
  rw [inodes_allocated]
  by_cases h : m = fs.next_ino
  · rw [h, update_self]
    simp
  · rw [update_of_ne h]
    simp [h]

/-- The inodes that have been allocated are those that entries name, each as
often as its link count says. -/
structure Linked (b : Build) : Prop where
  tables : Tables b
  exact : ∀ n, nlinkOf b.fs.inodes n = (named b.entries).count n
  allocated : ∀ n, (b.fs.inodes n).isSome = true ↔ n ∈ named b.entries

/-- The next inode has no entry yet. -/
theorem Linked.next_notMem (h : Linked b) : b.fs.next_ino ∉ named b.entries :=
  fun hn => Nat.lt_irrefl _ (h.tables.named_lt _ hn)

/-- A directory names itself. -/
theorem Linked.dir_allocated (h : Linked b) {path : Str} {d : ℕ}
    (hd : b.dirs.get? path = some d) : (b.fs.inodes d).isSome = true := by
  obtain ⟨ents, hents⟩ := h.tables.get?_entries hd
  obtain ⟨m, p, tail, hm, rfl⟩ := h.tables.dots path ents hents
  rw [hd] at hm
  cases hm
  exact (h.allocated d).mpr (mem_named.mpr ⟨path, _, str ".", hents, List.mem_cons_self⟩)

/-- A new inode with one entry. -/
theorem Linked.newEntry (h : Linked b) {here name : Str} {ents : List Entry}
    (hents : b.entries.get? here = some ents)
    (hnext : fs'.next_ino = b.fs.next_ino + 1)
    (hlink : ∀ m, nlinkOf fs'.inodes m =
      if m = b.fs.next_ino then 1 else nlinkOf b.fs.inodes m)
    (hsome : ∀ m, (fs'.inodes m).isSome = true ↔
      m = b.fs.next_ino ∨ (b.fs.inodes m).isSome = true) :
    Linked ⟨fs', b.dirs, b.entries.set here (ents ++ [(b.fs.next_ino, name)])⟩ := by
  have hperm := perm_named_append (e := (b.fs.next_ino, name)) hents
  refine ⟨h.tables.append hents (by omega) (by dsimp only; omega), fun m => ?_, fun m => ?_⟩
  · rw [hlink m, hperm.count_eq, List.count_cons, ← h.exact m]
    by_cases hm : m = b.fs.next_ino
    · have hzero : nlinkOf b.fs.inodes m = 0 := by
        rw [h.exact m, hm]
        exact List.count_eq_zero.mpr h.next_notMem
      rw [if_pos hm, hzero, hm, if_pos (by simp)]
    · have hne : b.fs.next_ino ≠ m := Ne.symm hm
      rw [if_neg hm, if_neg (by simpa using hne), Nat.add_zero]
  · rw [hsome m, h.allocated m, hperm.mem_iff, List.mem_cons]

/-- A new directory has two links, and its parent one more. -/
theorem nlinkOf_withDir {parent : ℕ} (hp : (fs.inodes parent).isSome = true) (m : ℕ) :
    nlinkOf (withDir fs parent).inodes m =
      (if m = fs.next_ino then 2 else nlinkOf fs.inodes m) + if m = parent then 1 else 0 := by
  unfold withDir
  rw [nlinkOf_succ]
  · congr 1
    rw [inodes_modify, nlinkOf_update]
    by_cases hm : m = fs.next_ino
    · rw [if_pos hm, if_pos hm, inodes_allocated, update_self]
      rfl
    · rw [if_neg hm, if_neg hm, nlinkOf_allocated, if_neg hm]
  · rw [isSome_modify, isSome_allocated]
    exact Or.inr hp

/-- Making a directory keeps the link counts right: two for the new one, one more for its
parent. -/
theorem Linked.mkdir (h : Linked b) {path parent_path name : Str} {parent : ℕ}
    {ents : List Entry} (hnew : b.dirs.get? path = none)
    (hparent : b.dirs.get? parent_path = some parent)
    (hents : b.entries.get? parent_path = some ents) :
    Linked ⟨withDir b.fs parent, b.dirs.set path b.fs.next_ino,
      (b.entries.set path (newEntries b.fs.next_ino parent)).set parent_path
        (ents ++ [(b.fs.next_ino, name)])⟩ := by
  have hp := h.dir_allocated hparent
  have hlt := h.tables.dirs_lt _ _ hparent
  have hperm := perm_named_mkdir (d := b.fs.next_ino) parent name h.tables hnew hents
  refine ⟨h.tables.mkdir hnew hparent hents rfl, fun m => ?_, fun m => ?_⟩
  · rw [nlinkOf_withDir hp, hperm.count_eq, List.count_cons, List.count_cons, List.count_cons,
      ← h.exact m]
    by_cases hm : m = b.fs.next_ino
    · have hzero : nlinkOf b.fs.inodes m = 0 := by
        rw [h.exact m, hm]
        exact List.count_eq_zero.mpr h.next_notMem
      have hne : parent ≠ b.fs.next_ino := by omega
      rw [hzero, hm]
      simp [hne, Ne.symm hne]
    · have hne : b.fs.next_ino ≠ m := Ne.symm hm
      by_cases hmp : m = parent
      · rw [hmp] at hm hne ⊢
        simp [hm, hne]
      · simp [hm, hne, hmp, Ne.symm hmp]
  · unfold withDir
    rw [isSome_modify, isSome_modify, isSome_allocated, h.allocated m, hperm.mem_iff]
    simp only [List.mem_cons]
    constructor
    · rintro (rfl | hm)
      · exact Or.inl rfl
      · exact Or.inr (Or.inr (Or.inr hm))
    · rintro (rfl | rfl | rfl | hm)
      · exact Or.inl rfl
      · exact Or.inl rfl
      · exact Or.inr ((h.allocated m).mp hp)
      · exact Or.inr hm

/-- Every act keeps the link counts exact. -/
theorem Act.linked (h : Linked b) (ha : Act P b b') : Linked b' := by
  cases ha with
  | mkdir hnew hparent hents hroom hrule habove hname => exact h.mkdir hnew hparent hents
  | @file here name mode content fs' ents hents hroom hstore hrule =>
    have hinodes := store_data_inodes hstore
    have hnext := store_data_next_ino hstore
    refine h.newEntry hents hnext (fun m => ?_) fun m => ?_
    · rw [hinodes]
      refine (nlinkOf_keep ?_ _ m).trans (nlinkOf_allocated _ _ m)
      exact fun _ => rfl
    · rw [hinodes, isSome_modify, isSome_allocated]
  | node hents hroom hrule =>
    refine h.newEntry hents rfl (fun m => ?_) fun m => ?_
    · refine (nlinkOf_keep ?_ _ m).trans (nlinkOf_allocated _ _ m)
      exact fun _ => rfl
    · unfold withNode
      rw [isSome_modify, isSome_allocated]
  | @link parent_path name tino ents hents htarget hino hrule =>
    have hperm := perm_named_append (e := (tino, name)) hents
    refine ⟨h.tables.append hents (Nat.le_refl _) (h.tables.named_lt _ htarget),
      fun m => ?_, fun m => ?_⟩
    · rw [nlinkOf_succ hino, hperm.count_eq, List.count_cons, h.exact m]
      by_cases hm : m = tino
      · simp [hm]
      · simp [hm, Ne.symm hm]
    · rw [isSome_modify, h.allocated m, hperm.mem_iff, List.mem_cons]
      constructor
      · exact Or.inr
      · rintro (rfl | hm)
        · exact htarget
        · exact hm
  | @chmod path d mode hd =>
    refine ⟨Act.tables (P := P) h.tables (.chmod hd), fun m => ?_, fun m => ?_⟩
    · refine (nlinkOf_keep ?_ _ m).trans (h.exact m)
      exact fun _ => rfl
    · rw [isSome_modify]
      exact h.allocated m

/-- Every way the build goes on keeps the link counts right. -/
theorem Leads.linked (h : Leads P b b') (hb : Linked b) : Linked b' :=
  h.invariant (fun _ _ hl ha => Act.linked hl ha) hb

/-- The root alone has two links, its `.` and its `..`. -/
theorem rooted_linked (hroot : fs.next_ino = ROOTINO) (hempty : ∀ n, fs.inodes n = none) :
    Linked (rooted fs) := by
  have hnamed : named (rooted fs).entries = [ROOTINO, ROOTINO] := rfl
  have hinodes : (rooted fs).fs.inodes = ((allocated fs (Int.lor S_IFDIR 0o755)).modify
    fs.next_ino fun i => { i with nlink := 2 }).inodes := rfl
  refine ⟨rooted_tables hroot, fun m => ?_, fun m => ?_⟩
  · rw [hnamed, hinodes, inodes_modify, nlinkOf_update, inodes_allocated, update_self, hroot]
    by_cases hm : m = ROOTINO
    · rw [if_pos hm, hm]
      rfl
    · rw [if_neg hm, nlinkOf_update, if_neg hm, nlinkOf, hempty m]
      simp [Ne.symm hm]
  · rw [hnamed, hinodes, isSome_modify, isSome_allocated, hroot, hempty m]
    simp

/-- Storing the directories changes no link count. -/
theorem storeDir_links (h : b.entries.items.foldlM b.storeDir fs = .ok fs') :
    (∀ m, nlinkOf fs'.inodes m = nlinkOf fs.inodes m) ∧
      ∀ m, (fs'.inodes m).isSome = (fs.inodes m).isSome := by
  refine foldlM_invariant (I := fun f : Fs => (∀ m, nlinkOf f.inodes m = nlinkOf fs.inodes m) ∧
    ∀ m, (f.inodes m).isSome = (fs.inodes m).isSome) ?_ ⟨fun _ => rfl, fun _ => rfl⟩ h
  rintro p _ f f' ⟨hlink, hsome⟩ hone
  obtain ⟨blob, d, _, _, hstore⟩ := storeDir_eq hone
  have hinodes := store_data_inodes hstore
  refine ⟨fun m => ?_, fun m => ?_⟩
  · rw [hinodes]
    refine (nlinkOf_keep ?_ _ m).trans (hlink m)
    exact fun _ => rfl
  · rw [hinodes, isSome_modify, hsome m]

/-- In every build that completes, the link count of each inode is the number
of entries naming it, every entry names an inode that has been allocated, and
every inode that has been allocated is named. -/
theorem link_counts_exact {limit nblocks ninodes : ℕ} {now : ℤ} {tree : Option HostTree}
    {spec : List Str} (h : build limit (Fs.init now nblocks ninodes) tree spec = .ok b) :
    (∀ n i, b.fs.inodes n = some i → i.nlink = (named b.entries).count n) ∧
      (∀ path ents n name, b.entries.get? path = some ents → (n, name) ∈ ents →
        ∃ i, b.fs.inodes n = some i) ∧
      ∀ n i, b.fs.inodes n = some i →
        ∃ path ents name, b.entries.get? path = some ents ∧ (n, name) ∈ ents := by
  obtain ⟨b₂, hb, hfinish⟩ := build_leads (allNames_true spec) h
  have hlinked : Linked b₂ := Leads.linked hb.leads (rooted_linked hb.root fun _ => rfl)
  obtain ⟨fs₁, fs₂, fs₃, hfin, _, hentries⟩ := finish_eq hfinish
  obtain ⟨hlink, hsome⟩ := storeDir_links hfin.store
  have hinodes : b.fs.inodes = fs₁.inodes := hfin.same.inodes
  have hallocated : ∀ n, (b.fs.inodes n).isSome = true ↔ n ∈ named b₂.entries := by
    intro n
    rw [hinodes, hsome n, hlinked.allocated n]
  rw [hentries]
  refine ⟨fun n i hi => ?_, fun path ents n name hp hn => ?_, fun n i hi => ?_⟩
  · have hcount := hlink n
    rw [hlinked.exact n, ← hinodes, nlinkOf, hi] at hcount
    exact hcount
  · exact Option.isSome_iff_exists.mp ((hallocated n).mpr (mem_named.mpr ⟨path, ents, name, hp, hn⟩))
  · exact mem_named.mp ((hallocated n).mp (by rw [hi]; rfl))

/-- A build with a directory, a node and a link to it. -/
theorem link_counts_linked_node :
    ∃ b, build 9 (Fs.init 0 40 16) none
        [str "dir /d 0755", str "chr /d/c 0666 1 2", str "link /l /d/c"] = .ok b ∧
      ∀ n i, b.fs.inodes n = some i → i.nlink = (named b.entries).count n := by
  obtain ⟨b, hb⟩ := exists_of_isOk (x := build 9 (Fs.init 0 40 16) none
    [str "dir /d 0755", str "chr /d/c 0666 1 2", str "link /l /d/c"]) (by decide +kernel)
  exact ⟨b, hb, (link_counts_exact hb).1⟩

end Sys16.MkfsLinks
