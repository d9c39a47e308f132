import Mathlib.Logic.Relation
import Sys16.MkfsBlocks
import Sys16.MkfsBuild

/-!
# What a build does step by step

Every change that the walk and the spec lines make to the state of `build` is
one of five acts: a new directory, a host file, a device node, a link or a new
mode. The state before the directories are stored is reached from the root
directory by acts, so whatever each act keeps holds there.
-/

namespace Sys16.MkfsActs

open Function PyText PyStruct PyDict HostWalk MkfsImage MkfsBlocks MkfsBuild Relation

variable {b b' c : Build} {fs fs' : Fs} {path parent_path name here target : Str} {parent d n limit : ℕ}
  {ents : List Entry} {parts : List Str} {f : HostFile} {α : Type}
  {N : Str → Prop}

/-- The state after an inode with a mode has been allocated. -/
def allocated (fs : Fs) (mode : ℤ) : Fs :=
  { fs with
    next_ino := fs.next_ino + 1
    inodes := update fs.inodes fs.next_ino (some (.new mode 0 0)) }

/-- The inode that is allocated is new, and no other changes. -/
theorem inodes_allocated (fs : Fs) (mode : ℤ) :
    (allocated fs mode).inodes = update fs.inodes fs.next_ino (some (.new mode 0 0)) := rfl

/-- A change of an inode changes that inode only. -/
theorem inodes_modify (fs : Fs) (n : ℕ) (f : Inode → Inode) :
    (fs.modify n f).inodes = update fs.inodes n ((fs.inodes n).map f) := rfl

/-- An inode that is allocated is the next one, which the image has room for. -/
theorem alloc_inode_eq {mode : ℤ} (h : fs.alloc_inode mode 0 0 = .ok (fs', n)) :
    fs.next_ino < fs.ninodes ∧ n = fs.next_ino ∧ fs' = allocated fs mode := by
  unfold Fs.alloc_inode at h
  split at h
  · cases h
  · cases h
    exact ⟨by omega, rfl, rfl⟩

/-- Looking a key up succeeds with the value that the dictionary has for it. -/
theorem index_eq_ok {dict : Dict Str α} {k : Str} {v : α} :
    index dict k = .ok v ↔ dict.get? k = some v := by
  unfold index
  cases dict.get? k with
  | none => simp
  | some w => simp

/-- A name is entered behind those that its directory already has. -/
theorem append_eq {e : Entry} (h : b.append path e = .ok b') :
    ∃ ents, b.entries.get? path = some ents ∧
      b' = { b with entries := b.entries.set path (ents ++ [e]) } := by
  unfold Build.append at h
  obtain ⟨ents, hents, h⟩ := bind_eq_ok.mp h
  cases h
  exact ⟨ents, index_eq_ok.mp hents, rfl⟩

/-- The parent of a path that names something is shorter, but for the root. -/
theorem parentPath_length (h : lastName path = .ok name) (hroot : path ≠ [sep]) :
    (parentPath path).length < path.length := by
  obtain ⟨p, hp⟩ := lastName_eq_ok.mp h
  obtain ⟨rfl, _⟩ := rsplit_eq_some.mp hp
  unfold parentPath
  rw [hp]
  by_cases hnil : p = []
  · subst hnil
    cases name with
    | nil => exact absurd rfl hroot
    | cons c name => simp
  · simp [hnil]

/-! ## The acts -/

/-- The entries of a new directory. -/
def newEntries (d parent : ℕ) : List Entry := [(d, str "."), (parent, str "..")]

/-- The filesystem with a new directory. -/
def withDir (fs : Fs) (parent : ℕ) : Fs :=
  ((allocated fs (Int.lor S_IFDIR 0o755)).modify fs.next_ino fun i => { i with nlink := 2 }).modify
    parent fun i => { i with nlink := i.nlink + 1 }

/-- The filesystem with a new device node. -/
def withNode (fs : Fs) (mode dev : ℤ) : Fs :=
  (allocated fs mode).modify fs.next_ino fun i => { i with addr := i.addr.set 0 dev }

/-- The inode numbers that entries name, one for each entry. -/
def named (entries : Dict Str (List Entry)) : List ℕ :=
  entries.items.flatMap fun p => p.2.map Prod.fst

/-- A condition on the entries that may be added: on the state before, the
path of the directory and the entry. -/
abbrev Rule := Build → Str → Entry → Prop

/-- The rule that only looks at names. -/
def naming (N : Str → Prop) : Rule := fun _ _ e => N e.2

variable {P : Rule}

/-- One change of the state, adding entries that meet a rule. -/
inductive Act (P : Rule) (b : Build) : Build → Prop
  | mkdir {path parent_path name : Str} {parent : ℕ} {ents : List Entry}
      (hnew : b.dirs.get? path = none) (hparent : b.dirs.get? parent_path = some parent)
      (hents : b.entries.get? parent_path = some ents) (hroom : b.fs.next_ino < b.fs.ninodes)
      (hrule : P b parent_path (b.fs.next_ino, name)) (habove : parentPath path = parent_path)
      (hname : lastName path = .ok name) :
      Act P b ⟨withDir b.fs parent, b.dirs.set path b.fs.next_ino,
        (b.entries.set path (newEntries b.fs.next_ino parent)).set parent_path
          (ents ++ [(b.fs.next_ino, name)])⟩
  | file {here name : Str} {mode : ℤ} {content : Bytes} {fs' : Fs} {ents : List Entry}
      (hents : b.entries.get? here = some ents) (hroom : b.fs.next_ino < b.fs.ninodes)
      (hstore : (allocated b.fs mode).store_data b.fs.next_ino content = .ok fs')
      (hrule : P b here (b.fs.next_ino, name)) :
      Act P b ⟨fs', b.dirs, b.entries.set here (ents ++ [(b.fs.next_ino, name)])⟩
  | node {parent_path name : Str} {mode dev : ℤ} {ents : List Entry}
      (hents : b.entries.get? parent_path = some ents) (hroom : b.fs.next_ino < b.fs.ninodes)
      (hrule : P b parent_path (b.fs.next_ino, name)) :
      Act P b ⟨withNode b.fs mode dev, b.dirs,
        b.entries.set parent_path (ents ++ [(b.fs.next_ino, name)])⟩
  | link {parent_path name : Str} {tino : ℕ} {ents : List Entry}
      (hents : b.entries.get? parent_path = some ents) (htarget : tino ∈ named b.entries)
      (hino : (b.fs.inodes tino).isSome) (hrule : P b parent_path (tino, name)) :
      Act P b ⟨b.fs.modify tino fun i => { i with nlink := i.nlink + 1 }, b.dirs,
        b.entries.set parent_path (ents ++ [(tino, name)])⟩
  | chmod {path : Str} {d : ℕ} {mode : ℤ} (hd : b.dirs.get? path = some d) :
      Act P b { b with fs := b.fs.modify d fun i => { i with mode := mode } }

/-- The states reached from one by acts under a rule. -/
abbrev Leads (P : Rule) : Build → Build → Prop := ReflTransGen (Act P)

/-- The invariant rule: what every act keeps holds wherever acts lead. -/
theorem Leads.invariant {I : Build → Prop} (hstep : ∀ b b', I b → Act P b b' → I b')
    (h : Leads P b b') (hb : I b) : I b' := by
  induction h with
  | refl => exact hb
  | tail _ ha ih => exact hstep _ _ ih ha

/-- Acts under a rule are acts under a weaker one. -/
theorem Act.mono {Q : Rule} (hPQ : ∀ b path e, P b path e → Q b path e) (h : Act P b b') :
    Act Q b b' := by
  cases h with
  | mkdir hnew hparent hents hroom hrule habove hname =>
    exact .mkdir hnew hparent hents hroom (hPQ _ _ _ hrule) habove hname
  | file hents hroom hstore hrule => exact .file hents hroom hstore (hPQ _ _ _ hrule)
  | node hents hroom hrule => exact .node hents hroom (hPQ _ _ _ hrule)
  | link hents htarget hino hrule => exact .link hents htarget hino (hPQ _ _ _ hrule)
  | chmod hd => exact .chmod hd

/-- A run under a rule is one under any weaker rule. -/
theorem Leads.mono {Q : Rule} (hPQ : ∀ b path e, P b path e → Q b path e) (h : Leads P b b') :
    Leads Q b b' :=
  ReflTransGen.mono (fun _ _ ha => Act.mono hPQ ha) _ _ h

/-! ## The tables of a build -/

/-- The two dictionaries have the same paths, the root among them; every
directory has its own inode and its entries begin with `.`, which names it,
and `..`; and all numbers have been allocated. -/
structure Tables (b : Build) : Prop where
  root : b.dirs.get? [sep] = some ROOTINO
  keys : b.entries.keys = b.dirs.keys
  inj : b.dirs.values.Nodup
  dirs_lt : ∀ path d, b.dirs.get? path = some d → d < b.fs.next_ino
  dots : ∀ path ents, b.entries.get? path = some ents →
    ∃ d p tail, b.dirs.get? path = some d ∧ ents = newEntries d p ++ tail
  named_lt : ∀ m ∈ named b.entries, m < b.fs.next_ino

/-- A directory that is known has its entries. -/
theorem Tables.get?_entries (h : Tables b) (hd : b.dirs.get? path = some d) :
    ∃ ents, b.entries.get? path = some ents := by
  refine Dict.get?_of_mem_keys ?_
  rw [h.keys]
  exact Dict.mem_keys_of_get? hd

/-- Entries belong to a directory that is known. -/
theorem Tables.get?_dirs (h : Tables b) (he : b.entries.get? path = some ents) :
    ∃ d, b.dirs.get? path = some d := by
  refine Dict.get?_of_mem_keys ?_
  rw [← h.keys]
  exact Dict.mem_keys_of_get? he

/-- A path that is no directory has no entries. -/
theorem Tables.entries_none (h : Tables b) (hd : b.dirs.get? path = none) :
    b.entries.get? path = none := by
  rw [Dict.get?_eq_none, h.keys]
  exact Dict.get?_eq_none.mp hd

/-- An entry added to a directory adds its number to those named. -/
theorem perm_named_append {entries : Dict Str (List Entry)} {e : Entry}
    (h : entries.get? path = some ents) :
    (named (entries.set path (ents ++ [e]))).Perm (e.1 :: named entries) := by
  obtain ⟨rest, hitems, hset⟩ := Dict.perm_items_set (v := ents ++ [e]) h
  have h1 := hset.flatMap_right fun p => p.2.map Prod.fst
  have h2 := hitems.flatMap_right fun p => p.2.map Prod.fst
  refine h1.trans ((List.Perm.trans ?_ (h2.symm.cons e.1)))
  simp only [List.flatMap_cons, List.map_append, List.map_cons, List.map_nil, List.append_assoc]
  exact List.perm_middle

/-- A new directory adds its `.` and `..`. -/
theorem named_new {entries : Dict Str (List Entry)} (h : entries.get? path = none) :
    named (entries.set path ents) = named entries ++ ents.map Prod.fst := by
  unfold named
  rw [Dict.items_set_new h, List.flatMap_append]
  simp

/-- The numbers named once a directory has been made. -/
theorem perm_named_mkdir (parent : ℕ) (name : Str) (h : Tables b)
    (hnew : b.dirs.get? path = none)
    (hents : b.entries.get? parent_path = some ents) :
    (named ((b.entries.set path (newEntries d parent)).set parent_path
      (ents ++ [(d, name)]))).Perm (d :: d :: parent :: named b.entries) := by
  have hget : (b.entries.set path (newEntries d parent)).get? parent_path = some ents :=
    Dict.get?_set_new (h.entries_none hnew) hents
  refine (perm_named_append hget).trans (List.Perm.cons d ?_)
  rw [named_new (h.entries_none hnew)]
  exact List.perm_append_comm

/-- An entry added to a directory keeps the tables. -/
theorem Tables.append {e : Entry} (h : Tables b) (hents : b.entries.get? path = some ents)
    (hnext : b.fs.next_ino ≤ fs'.next_ino) (he : e.1 < fs'.next_ino) :
    Tables ⟨fs', b.dirs, b.entries.set path (ents ++ [e])⟩ := by
  refine ⟨h.root, ?_, h.inj, fun p d hd => lt_of_lt_of_le (h.dirs_lt p d hd) hnext, ?_, ?_⟩
  · rw [Dict.keys_set_old hents]
    exact h.keys
  · intro p ents' hp
    rcases Dict.get?_set_eq_some.mp hp with ⟨rfl, rfl⟩ | ⟨_, hold⟩
    · obtain ⟨d, q, tail, hd, rfl⟩ := h.dots p ents hents
      exact ⟨d, q, tail ++ [e], hd, List.append_assoc ..⟩
    · exact h.dots p ents' hold
  · intro m hm
    rw [(perm_named_append hents).mem_iff, List.mem_cons] at hm
    rcases hm with rfl | hm
    · exact he
    · exact lt_of_lt_of_le (h.named_lt m hm) hnext

/-- A directory that nothing names yet keeps the tables. -/
theorem Tables.newDir (h : Tables b) (hnew : b.dirs.get? path = none)
    (hparent : parent < b.fs.next_ino) (hnext : fs'.next_ino = b.fs.next_ino + 1) :
    Tables ⟨fs', b.dirs.set path b.fs.next_ino,
      b.entries.set path (newEntries b.fs.next_ino parent)⟩ := by
  have hnone := h.entries_none hnew
  refine ⟨Dict.get?_set_new hnew h.root, ?_, ?_, fun p d hd => ?_, fun p ents' hp => ?_,
    fun m hm => ?_⟩
  · rw [Dict.keys_set_new hnone, Dict.keys_set_new hnew, h.keys]
  · rw [Dict.values_set_new hnew]
    refine List.nodup_append.mpr ⟨h.inj, List.nodup_singleton _, fun a ha x hx => ?_⟩
    obtain ⟨p, hp⟩ := Dict.mem_values.mp ha
    have hlt := h.dirs_lt p a hp
    have hxd := List.mem_singleton.mp hx
    omega
  · rw [hnext]
    rcases Dict.get?_set_eq_some.mp hd with ⟨_, rfl⟩ | ⟨_, hold⟩
    · exact Nat.lt_succ_self _
    · exact Nat.lt_succ_of_lt (h.dirs_lt p d hold)
  · rcases Dict.get?_set_eq_some.mp hp with ⟨rfl, rfl⟩ | ⟨_, hold⟩
    · exact ⟨b.fs.next_ino, parent, [], Dict.get?_set_self _ _ _, (List.append_nil _).symm⟩
    · obtain ⟨d, q, tail, hd, he⟩ := h.dots p ents' hold
      exact ⟨d, q, tail, Dict.get?_set_new hnew hd, he⟩
  · rw [named_new hnone, List.mem_append] at hm
    rw [hnext]
    rcases hm with hm | hm
    · exact Nat.lt_succ_of_lt (h.named_lt m hm)
    · rcases List.mem_cons.mp hm with rfl | hm
      · exact Nat.lt_succ_self _
      · rw [List.mem_singleton.mp hm]
        exact Nat.lt_succ_of_lt hparent

/-- A new directory keeps the tables. -/
theorem Tables.mkdir (h : Tables b) (hnew : b.dirs.get? path = none)
    (hparent : b.dirs.get? parent_path = some parent)
    (hents : b.entries.get? parent_path = some ents)
    (hnext : fs'.next_ino = b.fs.next_ino + 1) :
    Tables ⟨fs', b.dirs.set path b.fs.next_ino,
      (b.entries.set path (newEntries b.fs.next_ino parent)).set parent_path
        (ents ++ [(b.fs.next_ino, name)])⟩ := by
  have hdir := h.newDir hnew (h.dirs_lt _ _ hparent) hnext
  exact hdir.append (Dict.get?_set_new (h.entries_none hnew) hents) (Nat.le_refl _) (by
    dsimp only
    omega)

/-- Storing a file allocates no inode. -/
theorem store_data_next_ino {content : Bytes} (h : fs.store_data n content = .ok fs') :
    fs'.next_ino = fs.next_ino := by
  obtain ⟨fs₁, happ, _, rfl⟩ := store_data_eq h
  rw [happ.eq]
  rfl

/-- It changes the one inode that it stores the file for. -/
theorem store_data_inodes {content : Bytes} (h : fs.store_data n content = .ok fs') :
    fs'.inodes = (fs.modify n (storedInode fs.next_block content)).inodes := by
  obtain ⟨fs₁, happ, _, rfl⟩ := store_data_eq h
  rw [happ.eq]
  rfl

/-- And records that file last. -/
theorem store_data_stored {content : Bytes} (h : fs.store_data n content = .ok fs') :
    fs'.stored = fs.stored ++ [(n, content)] := by
  obtain ⟨fs₁, happ, _, rfl⟩ := store_data_eq h
  rw [happ.eq]
  rfl

/-- Every act keeps the tables. -/
theorem Act.tables (h : Tables b) (ha : Act P b b') : Tables b' := by
  cases ha with
  | mkdir hnew hparent hents hroom hrule habove hname => exact h.mkdir hnew hparent hents rfl
  | @file here name mode content fs' ents hents hroom hstore hrule =>
    have hnext := store_data_next_ino hstore
    have hsucc : (allocated b.fs mode).next_ino = b.fs.next_ino + 1 := rfl
    refine h.append hents ?_ ?_
    · omega
    · dsimp only
      omega
  | node hents hroom hrule => exact h.append hents (Nat.le_succ _) (Nat.lt_succ_self _)
  | link hents htarget hino hrule => exact h.append hents (Nat.le_refl _) (h.named_lt _ htarget)
  | chmod hd => exact ⟨h.root, h.keys, h.inj, h.dirs_lt, h.dots, h.named_lt⟩

/-- The tables hold after any run of acts. -/
theorem Leads.tables (h : Leads P b b') (hb : Tables b) : Tables b' :=
  h.invariant (fun _ _ ht ha => ha.tables ht) hb

/-- Nothing is taken away: directories and files stay, and entries are only
added at the end. -/
structure Grows (b b' : Build) : Prop where
  dirs : ∀ path d, b.dirs.get? path = some d → b'.dirs.get? path = some d
  entries : ∀ path ents, b.entries.get? path = some ents →
    ∃ tail, b'.entries.get? path = some (ents ++ tail)
  stored : ∀ x ∈ b.fs.stored, x ∈ b'.fs.stored

/-- Nothing has changed yet. -/
theorem Grows.refl (b : Build) : Grows b b :=
  ⟨fun _ _ hd => hd, fun _ ents he => ⟨[], by rw [List.append_nil]; exact he⟩, fun _ hx => hx⟩

/-- What grows twice has grown. -/
theorem Grows.trans (h : Grows b b') (k : Grows b' c) : Grows b c := by
  refine ⟨fun p d hd => k.dirs p d (h.dirs p d hd), fun p ents he => ?_,
    fun x hx => k.stored x (h.stored x hx)⟩
  obtain ⟨tail, hmid⟩ := h.entries p ents he
  obtain ⟨tail', hend⟩ := k.entries p _ hmid
  exact ⟨tail ++ tail', by rw [hend, List.append_assoc]⟩

/-- An entry added at the end of a directory. -/
theorem entries_append {entries : Dict Str (List Entry)} {e : Entry} {p : Str}
    {ents' : List Entry} (hents : entries.get? path = some ents)
    (hp : entries.get? p = some ents') :
    ∃ tail, (entries.set path (ents ++ [e])).get? p = some (ents' ++ tail) := by
  by_cases hpath : p = path
  · rw [← hpath, hp] at hents
    exact ⟨[e], by rw [hpath, Option.some.inj hents, Dict.get?_set_self]⟩
  · exact ⟨[], by rw [List.append_nil]; exact Dict.get?_set_eq_some.mpr (Or.inr ⟨hpath, hp⟩)⟩

/-- An act only adds directories, entries and inodes. -/
theorem Act.grows (ht : Tables b) (ha : Act P b b') : Grows b b' := by
  cases ha with
  | @mkdir path parent_path name parent ents hnew hparent hents hroom hrule habove hname =>
    have hnone := ht.entries_none hnew
    exact ⟨fun p d hd => Dict.get?_set_new hnew hd, fun p ents' hp =>
      entries_append (Dict.get?_set_new hnone hents) (Dict.get?_set_new hnone hp), fun _ hx => hx⟩
  | file hents hroom hstore hrule =>
    refine ⟨fun _ _ hd => hd, fun p ents' hp => entries_append hents hp, fun x hx => ?_⟩
    rw [store_data_stored hstore]
    exact List.mem_append_left _ hx
  | node hents hroom hrule =>
    exact ⟨fun _ _ hd => hd, fun p ents' hp => entries_append hents hp, fun _ hx => hx⟩
  | link hents htarget hino hrule =>
    exact ⟨fun _ _ hd => hd, fun p ents' hp => entries_append hents hp, fun _ hx => hx⟩
  | chmod hd => exact ⟨fun _ _ hd => hd, (Grows.refl b).entries, fun _ hx => hx⟩

/-- So does a run of them. -/
theorem Leads.grows (h : Leads P b b') (ht : Tables b) : Grows b b' :=
  (h.invariant (I := fun c => Tables c ∧ Grows b c)
    (fun _ _ hc ha => ⟨ha.tables hc.1, hc.2.trans (ha.grows hc.1)⟩) ⟨ht, .refl b⟩).2

/-! ## Acts of the code -/

/-- A directory that is made has the next inode, its two first entries, and a name in its
parent. -/
theorem makedir_eq (h : b.makedir path parent = .ok (b', d))
    (hnew : b.dirs.get? path = none) (hparent : b.dirs.get? (parentPath path) = some parent) :
    ∃ ents name, b.entries.get? (parentPath path) = some ents ∧ lastName path = .ok name ∧
      b.fs.next_ino < b.fs.ninodes ∧ d = b.fs.next_ino ∧
      b' = ⟨withDir b.fs parent, b.dirs.set path b.fs.next_ino,
        (b.entries.set path (newEntries b.fs.next_ino parent)).set (parentPath path)
          (ents ++ [(b.fs.next_ino, name)])⟩ := by
  unfold Build.makedir at h
  obtain ⟨⟨fs₁, m⟩, halloc, h⟩ := bind_eq_ok.mp h
  obtain ⟨ents, hents, h⟩ := bind_eq_ok.mp h
  obtain ⟨name, hname, h⟩ := bind_eq_ok.mp h
  cases h
  obtain ⟨hroom, rfl, rfl⟩ := alloc_inode_eq halloc
  have hne : path ≠ parentPath path := by
    intro he
    rw [← he, hnew] at hparent
    cases hparent
  rw [index_eq_ok, Dict.get?_set, if_neg hne] at hents
  exact ⟨ents, name, hents, hname, hroom, rfl, rfl⟩

/-- Making a directory is one act, when the rule admits its name. -/
theorem makedir_act (h : b.makedir path parent = .ok (b', d))
    (hnew : b.dirs.get? path = none) (hparent : b.dirs.get? (parentPath path) = some parent)
    (hrule : ∀ name, lastName path = .ok name → P b (parentPath path) (b.fs.next_ino, name)) :
    Act P b b' ∧ b'.dirs = b.dirs.set path d := by
  obtain ⟨ents, name, hents, hname, hroom, rfl, rfl⟩ := makedir_eq h hnew hparent
  exact ⟨.mkdir hnew hparent hents hroom (hrule name hname) rfl hname, rfl⟩

/-- A path that a directory can be made for names something. -/
theorem makedir_name (h : b.makedir path parent = .ok (b', d)) :
    ∃ name, lastName path = .ok name := by
  unfold Build.makedir at h
  obtain ⟨_, _, h⟩ := bind_eq_ok.mp h
  obtain ⟨_, _, h⟩ := bind_eq_ok.mp h
  obtain ⟨name, hname, _⟩ := bind_eq_ok.mp h
  exact ⟨name, hname⟩

/-- The names on the way from a path up to the root. -/
def NamesOn (N : Str → Prop) (path : Str) : Prop :=
  ∀ k name, lastName (parentPath^[k] path) = .ok name → N name

/-- A condition on the names of a path holds of its last one. -/
theorem NamesOn.last (h : NamesOn N path) (hname : lastName path = .ok name) : N name :=
  h 0 name hname

/-- And on the path of its directory. -/
theorem NamesOn.above (h : NamesOn N path) : NamesOn N (parentPath path) :=
  fun k name hname => h (k + 1) name hname

/-- `getdir` makes directories, none of them with a path longer than its own,
and the path it was called for is one of the directories then. -/
structure MakesDirs (N : Str → Prop) (b : Build) (path : Str) (b' : Build) (d : ℕ) : Prop where
  leads : Leads (naming N) b b'
  found : b'.dirs.get? path = some d
  short : ∀ p, b.dirs.get? p = none → path.length < p.length → b'.dirs.get? p = none

/-- The directory above a new one is made without it. -/
theorem MakesDirs.above_new (ht : Tables b) (h : MakesDirs N b (parentPath path) c parent)
    (hmake : c.makedir path parent = .ok (b', d)) (hnew : b.dirs.get? path = none) :
    c.dirs.get? path = none ∧ (parentPath path).length < path.length := by
  obtain ⟨name, hname⟩ := makedir_name hmake
  have hroot : path ≠ [sep] := by
    rintro rfl
    rw [ht.root] at hnew
    cases hnew
  have hlt := parentPath_length hname hroot
  exact ⟨h.short path hnew hlt, hlt⟩

/-- `getdir` makes what is missing of a path, the last of it included. -/
theorem getdir_makes (ht : Tables b) (hN : NamesOn N path)
    (h : b.getdir limit path = .ok (b', d)) : MakesDirs N b path b' d := by
  induction limit generalizing path b' d with
  | zero => cases h
  | succ limit ih =>
    unfold Build.getdir at h
    cases hd : b.dirs.get? path with
    | some m =>
      rw [hd] at h
      cases h
      exact ⟨.refl, hd, fun _ hp _ => hp⟩
    | none =>
      rw [hd] at h
      obtain ⟨⟨b₁, parent⟩, habove, hmake⟩ := bind_eq_ok.mp h
      have hparent := ih hN.above habove
      obtain ⟨hnew, hlt⟩ := hparent.above_new ht hmake hd
      obtain ⟨ha, hdirs⟩ := makedir_act (P := naming N) hmake hnew hparent.found
        fun name hname => hN.last hname
      refine ⟨hparent.leads.tail ha, ?_, fun p hp hlen => ?_⟩
      · rw [hdirs, Dict.get?_set_self]
      · rw [hdirs, Dict.get?_set, if_neg (by rintro rfl; omega)]
        exact hparent.short p hp (by omega)

/-- A path that is known is not made again. -/
theorem getdir_old (hd : b.dirs.get? path = some n)
    (h : b.getdir limit path = .ok (b', d)) : b' = b ∧ d = n := by
  cases limit with
  | zero => cases h
  | succ limit =>
    unfold Build.getdir at h
    rw [hd] at h
    cases h
    exact ⟨rfl, rfl⟩

/-- `getdir` of a new path makes the directory above it, then the directory. -/
theorem getdir_new (ht : Tables b) (h : b.getdir limit path = .ok (b', d))
    (hd : b.dirs.get? path = none) :
    ∃ limit' b₁ parent, limit = limit' + 1 ∧
      b.getdir limit' (parentPath path) = .ok (b₁, parent) ∧ b₁.dirs.get? path = none ∧
      b₁.dirs.get? (parentPath path) = some parent ∧ b₁.makedir path parent = .ok (b', d) := by
  cases limit with
  | zero => cases h
  | succ limit =>
    unfold Build.getdir at h
    rw [hd] at h
    obtain ⟨⟨b₁, parent⟩, habove, hmake⟩ := bind_eq_ok.mp h
    have hparent := getdir_makes (N := fun _ => True) ht (fun _ _ _ => trivial) habove
    exact ⟨limit, b₁, parent, rfl, habove, (hparent.above_new ht hmake hd).1, hparent.found, hmake⟩

/-! ## The acts of the spec lines -/

/-- A `dir` line is a run of acts that name what its path does. -/
theorem specDir_leads (ht : Tables b) (hN : NamesOn N path)
    (h : b.specDir limit path parts = .ok b') : Leads (naming N) b b' := by
  unfold Build.specDir at h
  obtain ⟨⟨b₁, m⟩, hdir, h₁⟩ := bind_eq_ok.mp h
  obtain ⟨mode, _, h₂⟩ := bind_eq_ok.mp h₁
  obtain ⟨d, hd, h₃⟩ := bind_eq_ok.mp h₂
  cases h₃
  exact (getdir_makes ht hN hdir).leads.tail (.chmod (index_eq_ok.mp hd))

/-- The result of the loop that looks for a link target: the last match, or
the value the loop started with. -/
theorem linkTarget_loop {tino r : Option ℕ}
    (h : ents.foldlM (fun tino e => do
      let name ← lastName target
      return if e.2 = name then some e.1 else tino) tino = (.ok r : Except Failure (Option ℕ))) :
    r = tino ∨ ∃ n name, r = some n ∧ (n, name) ∈ ents ∧ lastName target = .ok name := by
  induction ents generalizing tino with
  | nil =>
    cases h
    exact Or.inl rfl
  | cons e ents ih =>
    rw [List.foldlM_cons] at h
    obtain ⟨t, hone, hrest⟩ := bind_eq_ok.mp h
    obtain ⟨name, hname, ht⟩ := bind_eq_ok.mp hone
    rcases ih hrest with hr | ⟨n, nm, hr, hmem, hnm⟩
    · have ht' : t = if e.2 = name then some e.1 else tino := (Except.ok.inj ht).symm
      by_cases he : e.2 = name
      · rw [if_pos he] at ht'
        exact Or.inr ⟨e.1, name, hr.trans ht', by rw [← he]; exact List.mem_cons_self, hname⟩
      · rw [if_neg he] at ht'
        exact Or.inl (hr.trans ht')
    · exact Or.inr ⟨n, nm, hr, List.mem_cons_of_mem e hmem, hnm⟩

/-- A link target is an entry of the directory it is looked for in. -/
theorem linkTarget_mem (h : linkTarget target ents = .ok (some n)) :
    ∃ name, (n, name) ∈ ents ∧ lastName target = .ok name := by
  rcases linkTarget_loop h with hr | ⟨m, name, hr, hmem, hname⟩
  · cases hr
  · cases hr
    exact ⟨name, hmem, hname⟩

/-- An inode is named when some directory has an entry for it. -/
theorem mem_named {entries : Dict Str (List Entry)} :
    n ∈ named entries ↔ ∃ path ents name, entries.get? path = some ents ∧ (n, name) ∈ ents := by
  unfold named
  rw [List.mem_flatMap]
  constructor
  · rintro ⟨p, hp, hn⟩
    obtain ⟨e, he, rfl⟩ := List.mem_map.mp hn
    exact ⟨p.1, p.2, e.2, Dict.get?_eq_some.mpr hp, he⟩
  · rintro ⟨path, ents, name, hp, hn⟩
    exact ⟨(path, ents), Dict.get?_eq_some.mp hp, List.mem_map_of_mem (f := Prod.fst) hn⟩

/-- A link counts on its inode and enters one more name. -/
theorem link_eq (h : b.link parent_path name n = .ok b') :
    ∃ ents, b.entries.get? parent_path = some ents ∧ (b.fs.inodes n).isSome ∧
      b' = ⟨b.fs.modify n fun i => { i with nlink := i.nlink + 1 }, b.dirs,
        b.entries.set parent_path (ents ++ [(n, name)])⟩ := by
  unfold Build.link at h
  obtain ⟨b₁, happend, h₁⟩ := bind_eq_ok.mp h
  obtain ⟨ents, hents, rfl⟩ := append_eq happend
  refine ⟨ents, hents, ?_⟩
  dsimp only at h₁
  cases hi : b.fs.inodes n with
  | none =>
    rw [hi] at h₁
    cases h₁
  | some i =>
    rw [hi] at h₁
    cases h₁
    exact ⟨rfl, rfl⟩

/-- What a `link` line links to, and the link. -/
theorem specLink_eq (h : b.specLink parent_path name parts = .ok b') :
    ∃ target tents n, part parts 2 = .ok target ∧
      b.entries.get? (parentPath target) = some tents ∧ linkTarget target tents = .ok (some n) ∧
      b.link parent_path name n = .ok b' := by
  unfold Build.specLink at h
  obtain ⟨target, htarget, h₁⟩ := bind_eq_ok.mp h
  obtain ⟨tents, htents, h₂⟩ := bind_eq_ok.mp h₁
  obtain ⟨tino, htino, h₃⟩ := bind_eq_ok.mp h₂
  cases tino with
  | none => cases h₃
  | some n => exact ⟨target, tents, n, htarget, index_eq_ok.mp htents, htino, h₃⟩

/-- A `link` line is one act. -/
theorem specLink_act (h : b.specLink parent_path name parts = .ok b')
    (hrule : ∀ n, P b parent_path (n, name)) : Act P b b' := by
  obtain ⟨target, tents, n, _, htents, htino, hlink⟩ := specLink_eq h
  obtain ⟨ents, hents, hino, rfl⟩ := link_eq hlink
  obtain ⟨nm, hmem, _⟩ := linkTarget_mem htino
  exact .link hents (mem_named.mpr ⟨_, tents, nm, htents, hmem⟩) hino (hrule n)

/-- What a `blk` or `chr` line is made of, and the node it makes. -/
theorem specNode_fields {kind : Str} (h : b.specNode kind parent_path name parts = .ok b') :
    ∃ mode major minor ents, (part parts 2 >>= int 8) = .ok mode ∧
      (part parts 3 >>= int 10) = .ok major ∧ (part parts 4 >>= int 10) = .ok minor ∧
      b.entries.get? parent_path = some ents ∧ b.fs.next_ino < b.fs.ninodes ∧
      b' = ⟨withNode b.fs (Int.lor mode (if kind = str "blk" then S_IFBLK else S_IFCHR))
          (Int.lor (major <<< 8) minor),
        b.dirs, b.entries.set parent_path (ents ++ [(b.fs.next_ino, name)])⟩ := by
  unfold Build.specNode at h
  obtain ⟨mode, hmode, h₁⟩ := bind_eq_ok.mp h
  obtain ⟨⟨fs₁, ino⟩, halloc, h₂⟩ := bind_eq_ok.mp h₁
  obtain ⟨major, hmajor, h₃⟩ := bind_eq_ok.mp h₂
  obtain ⟨minor, hminor, happend⟩ := bind_eq_ok.mp h₃
  obtain ⟨hroom, rfl, rfl⟩ := alloc_inode_eq halloc
  obtain ⟨ents, hents, rfl⟩ := append_eq happend
  exact ⟨mode, major, minor, ents, hmode, hmajor, hminor, hents, hroom, rfl⟩

/-- A node has the next inode, with the mode, type and device number of its line. -/
theorem specNode_eq {kind : Str} (h : b.specNode kind parent_path name parts = .ok b') :
    ∃ mode dev ents, b.entries.get? parent_path = some ents ∧ b.fs.next_ino < b.fs.ninodes ∧
      b' = ⟨withNode b.fs (Int.lor mode (if kind = str "blk" then S_IFBLK else S_IFCHR)) dev,
        b.dirs, b.entries.set parent_path (ents ++ [(b.fs.next_ino, name)])⟩ := by
  obtain ⟨mode, major, minor, ents, _, _, _, hents, hroom, rfl⟩ := specNode_fields h
  exact ⟨_, _, ents, hents, hroom, rfl⟩

/-- Each line that is no `dir` line is one act once its directory is there. -/
theorem specEntry_act {kind : Str} (h : b.specEntry kind parent_path name parts = .ok b')
    (hrule : ∀ n, P b parent_path (n, name)) : Act P b b' := by
  unfold Build.specEntry at h
  split at h
  · exact specLink_act h hrule
  · obtain ⟨mode, dev, ents, hents, hroom, rfl⟩ := specNode_eq h
    exact .node hents hroom (hrule _)

/-- The two shapes of a spec line that adds something. -/
theorem applyLine_eq {line : Str} (h : b.applyLine limit line = .ok b')
    (hline : strip (uncomment line) ≠ []) :
    ∃ kind path name, part (specWords line) 0 = .ok kind ∧ part (specWords line) 1 = .ok path ∧
      lastName path = .ok name ∧
      if kind = str "dir" then b.specDir limit path (specWords line) = .ok b'
      else ∃ b₁ d, b.getdir limit (parentPath path) = .ok (b₁, d) ∧
        b₁.specEntry kind (parentPath path) name (specWords line) = .ok b' := by
  unfold Build.applyLine at h
  rw [if_neg hline] at h
  obtain ⟨kind, hkind, h₁⟩ := bind_eq_ok.mp h
  obtain ⟨path, hpath, h₂⟩ := bind_eq_ok.mp h₁
  obtain ⟨name, hname, h₃⟩ := bind_eq_ok.mp h₂
  refine ⟨kind, path, name, hkind, hpath, hname, ?_⟩
  by_cases hk : kind = str "dir"
  · rw [if_pos hk] at h₃ ⊢
    exact h₃
  · rw [if_neg hk] at h₃ ⊢
    obtain ⟨⟨b₁, d⟩, hdir, hentry⟩ := bind_eq_ok.mp h₃
    exact ⟨b₁, d, hdir, hentry⟩

/-- A line without words changes nothing. -/
theorem applyLine_blank {line : Str} (h : b.applyLine limit line = .ok b')
    (hline : strip (uncomment line) = []) : b' = b := by
  unfold Build.applyLine at h
  rw [if_pos hline] at h
  exact (Except.ok.inj h).symm

/-- The names on the path of a spec line. -/
def LineNames (N : Str → Prop) (line : Str) : Prop :=
  ∀ path, part (specWords line) 1 = .ok path → NamesOn N path

/-- A spec line is a run of acts that name what the line does. -/
theorem applyLine_leads {line : Str} (ht : Tables b) (hN : LineNames N line)
    (h : b.applyLine limit line = .ok b') : Leads (naming N) b b' := by
  by_cases hline : strip (uncomment line) = []
  · rw [applyLine_blank h hline]
  · obtain ⟨kind, path, name, _, hpath, hname, hcase⟩ := applyLine_eq h hline
    have hon := hN path hpath
    split at hcase
    · exact specDir_leads ht hon hcase
    · obtain ⟨b₁, d, hdir, hentry⟩ := hcase
      exact (getdir_makes ht hon.above hdir).leads.tail
        (specEntry_act hentry fun _ => hon.last hname)

/-- The spec lines lead from one state to the other. -/
theorem spec_leads {spec : List Str} (ht : Tables b) (hN : ∀ line ∈ spec, LineNames N line)
    (h : spec.foldlM (Build.applyLine limit) b = .ok b') : Leads (naming N) b b' :=
  foldlM_invariant (I := Leads (naming N) b)
    (fun line hl _ _ hc hone => hc.trans (applyLine_leads (hc.tables ht) (hN line hl) hone)) .refl h

end Sys16.MkfsActs
