import Sys16.MkfsOwners

/-!
# The namespace of a built image

Directories are kept by path in one dictionary while files and nodes are only
entries of a list, so a new name is never compared with the ones that are
there. A build gives a well-formed tree exactly when no spec line adds a name
that is empty or taken, and none links to a directory.
-/

namespace Sys16.MkfsNamespace

open PyText PyDict HostWalk MkfsImage MkfsBuild MkfsActs MkfsWalk MkfsFinish MkfsOwners

variable {b b' c : Build} {fs fs' : Fs} {path q name target : Str} {n d limit : ℕ}
  {ents : List Entry} {e : Entry} {entries : Dict Str (List Entry)} {P : Rule}

/-! ## Well-formed trees -/

/-- The names of a directory are distinct, not empty and without a separator. -/
def NamesOk (ents : List Entry) : Prop :=
  (ents.map Prod.snd).Nodup ∧ ∀ e ∈ ents, e.2 ≠ [] ∧ sep ∉ e.2

/-- An entry for an inode by a name other than `.` and `..`. -/
def holds (n : ℕ) (e : Entry) : Bool := e.1 = n ∧ e.2 ≠ str "." ∧ e.2 ≠ str ".."

/-- An entry that holds an inode has its number. -/
theorem holds_num (h : holds n e = true) : e.1 = n := (of_decide_eq_true h).1

/-- The entries for an inode other than `.` and `..`, each with its directory. -/
def holders (entries : Dict Str (List Entry)) (n : ℕ) : List (Str × Entry) :=
  entries.items.flatMap fun p => (p.2.filter (holds n)).map fun e => (p.1, e)

/-- The names of each directory are in order, each directory below the root has
one entry, and its `..` is the directory with that entry. -/
structure WellFormed (b : Build) : Prop where
  names : ∀ path ents, b.entries.get? path = some ents → NamesOk ents
  tree : ∀ path n, b.dirs.get? path = some n → n ≠ ROOTINO →
    ∃ holder name parent ents, holders b.entries n = [(holder, (n, name))] ∧
      b.dirs.get? holder = some parent ∧ b.entries.get? path = some ents ∧
      (parent, str "..") ∈ ents

/-- The part of it that an entry can break. -/
structure Clean (b : Build) : Prop where
  names : ∀ path ents, b.entries.get? path = some ents → NamesOk ents
  single : ∀ path n, b.dirs.get? path = some n → n ≠ ROOTINO →
    (holders b.entries n).length ≤ 1

/-- A directory has an entry with its name, past the first two of the directory
that its `..` names. -/
def HeldAt (b : Build) (path : Str) (n : ℕ) : Prop :=
  ∃ name ents parent tail, lastName path = .ok name ∧
    b.entries.get? (parentPath path) = some ents ∧
    b.dirs.get? (parentPath path) = some parent ∧ (n, name) ∈ ents.drop 2 ∧
    b.entries.get? path = some (newEntries n parent ++ tail)

/-- The root is its own parent, and each other directory has an entry. -/
structure Held (b : Build) : Prop where
  root : ∃ tail, b.entries.get? [sep] = some (newEntries ROOTINO ROOTINO ++ tail)
  below : ∀ path n, b.dirs.get? path = some n → n ≠ ROOTINO → HeldAt b path n

/-- The entries of the tables that hold an inode. -/
theorem mem_holders_iff {x : Str × Entry} :
    x ∈ holders entries n ↔
      ∃ ents, entries.get? x.1 = some ents ∧ x.2 ∈ ents ∧ holds n x.2 = true := by
  unfold holders
  rw [List.mem_flatMap]
  constructor
  · rintro ⟨p, hp, hx⟩
    obtain ⟨e, he, rfl⟩ := List.mem_map.mp hx
    obtain ⟨hmem, hholds⟩ := List.mem_filter.mp he
    exact ⟨p.2, Dict.get?_eq_some.mpr hp, hmem, hholds⟩
  · rintro ⟨ents, hents, hmem, hholds⟩
    exact ⟨(x.1, ents), Dict.get?_eq_some.mp hents,
      List.mem_map.mpr ⟨x.2, List.mem_filter.mpr ⟨hmem, hholds⟩, rfl⟩⟩

/-- Past the first two, no entry of a directory in order is `.` or `..`. -/
theorem Tables.holds_of_drop (ht : Tables b) (hents : b.entries.get? path = some ents)
    (hnames : NamesOk ents) (hmem : (n, name) ∈ ents.drop 2) : holds n (n, name) = true := by
  obtain ⟨m, p, tail, _, rfl⟩ := ht.dots path ents hents
  have hnd : (str "." :: str ".." :: tail.map Prod.snd).Nodup := hnames.1
  have hin : name ∈ tail.map Prod.snd := List.mem_map_of_mem (f := Prod.snd) hmem
  have hdot : name ≠ str "." := by
    rintro rfl
    exact (List.nodup_cons.mp hnd).1 (List.mem_cons_of_mem _ hin)
  have hdots : name ≠ str ".." := by
    rintro rfl
    exact (List.nodup_cons.mp (List.nodup_cons.mp hnd).2).1 hin
  simp [holds, hdot, hdots]

/-- The entry of a directory, when the names are in order. -/
theorem HeldAt.mem_holders (ht : Tables b) (hc : Clean b) (h : HeldAt b path n) :
    ∃ name parent tail, lastName path = .ok name ∧
      (parentPath path, (n, name)) ∈ holders b.entries n ∧
      b.dirs.get? (parentPath path) = some parent ∧
      b.entries.get? path = some (newEntries n parent ++ tail) := by
  obtain ⟨nm, ents, parent, tail, hname, hents, hparent, hmem, hown⟩ := h
  have hholds := Tables.holds_of_drop ht hents (hc.names _ ents hents) hmem
  exact ⟨nm, parent, tail, hname,
    mem_holders_iff.mpr ⟨ents, hents, List.mem_of_mem_drop hmem, hholds⟩, hparent, hown⟩

/-- Over tables that are held together, the namespace is well formed when every directory
is clean. -/
theorem wellFormed_iff (ht : Tables b) (hh : Held b) : WellFormed b ↔ Clean b := by
  constructor
  · intro h
    refine ⟨h.names, fun p m hd hm => ?_⟩
    obtain ⟨holder, nm, parent, ents, hholders, _⟩ := h.tree p m hd hm
    rw [hholders]
    exact Nat.le_refl 1
  · intro h
    refine ⟨h.names, fun p m hd hm => ?_⟩
    obtain ⟨nm, parent, tail, _, hmem, hparent, hown⟩ :=
      HeldAt.mem_holders ht h (hh.below p m hd hm)
    have hlen := h.single p m hd hm
    have hone : (holders b.entries m).length = 1 :=
      Nat.le_antisymm hlen (List.length_pos_of_mem hmem)
    obtain ⟨x, hx⟩ := List.length_eq_one_iff.mp hone
    rw [hx] at hmem
    rw [← List.mem_singleton.mp hmem] at hx
    exact ⟨_, nm, parent, _, hx, hparent, hown, by simp [newEntries]⟩

/-! ## What an act does to it -/

/-- A name that can be added to a directory with others. -/
def Fresh (names : List Str) (name : Str) : Prop := name ≠ [] ∧ name ∉ names

/-- One more name is in order when it is new and has no separator. -/
theorem namesOk_append :
    NamesOk (ents ++ [e]) ↔ NamesOk ents ∧ Fresh (ents.map Prod.snd) e.2 ∧ sep ∉ e.2 := by
  unfold NamesOk Fresh
  rw [List.map_append, List.map_singleton, List.nodup_append_comm, List.singleton_append,
    List.nodup_cons]
  simp only [List.mem_append, List.mem_singleton]
  constructor
  · rintro ⟨⟨hnew, hnd⟩, hall⟩
    obtain ⟨hne, hsep⟩ := hall e (Or.inr rfl)
    exact ⟨⟨hnd, fun x hx => hall x (Or.inl hx)⟩, ⟨hne, hnew⟩, hsep⟩
  · rintro ⟨⟨hnd, hall⟩, ⟨hne, hnew⟩, hsep⟩
    refine ⟨⟨hnew, hnd⟩, fun x hx => ?_⟩
    rcases hx with hx | rfl
    · exact hall x hx
    · exact ⟨hne, hsep⟩

/-- An entry added to a directory may be one more for an inode. -/
theorem length_holders_append (hents : entries.get? path = some ents) :
    (holders (entries.set path (ents ++ [e])) n).length =
      (holders entries n).length + if holds n e then 1 else 0 := by
  obtain ⟨rest, hitems, hset⟩ := Dict.perm_items_set (v := ents ++ [e]) hents
  have h1 := (hset.flatMap_right fun p => (p.2.filter (holds n)).map fun e => (p.1, e)).length_eq
  have h2 := (hitems.flatMap_right fun p => (p.2.filter (holds n)).map fun e => (p.1, e)).length_eq
  unfold holders
  rw [h1, h2]
  by_cases he : holds n e
  · simp [he]
    omega
  · simp [he]

/-- The first entries of a new directory are `.` and `..`. -/
theorem holders_new (hnone : entries.get? path = none) (m p : ℕ) :
    holders (entries.set path (newEntries m p)) n = holders entries n := by
  unfold holders
  rw [Dict.items_set_new hnone, List.flatMap_append]
  simp [newEntries, holds]

/-- An inode that no entry names has none. -/
theorem holders_eq_nil (h : n ∉ named entries) : holders entries n = [] := by
  refine List.eq_nil_iff_forall_not_mem.mpr fun x hx => h ?_
  obtain ⟨ents, hents, hmem, hholds⟩ := mem_holders_iff.mp hx
  exact mem_named.mpr ⟨x.1, ents, x.2.2, hents, by rw [← holds_num hholds]; exact hmem⟩

/-- An entry keeps the tree when its name is fresh and it is the first for a
directory. -/
theorem clean_append (hents : b.entries.get? q = some ents) :
    Clean ⟨fs', b.dirs, b.entries.set q (ents ++ [e])⟩ ↔
      Clean b ∧ (Fresh (ents.map Prod.snd) e.2 ∧ sep ∉ e.2) ∧
        ∀ path n, b.dirs.get? path = some n → n ≠ ROOTINO → holds n e = true →
          holders b.entries n = [] := by
  constructor
  · intro h
    have hnew := h.names q (ents ++ [e]) (Dict.get?_set_self _ _ _)
    obtain ⟨hold, hfresh⟩ := namesOk_append.mp hnew
    refine ⟨⟨fun p ents' hp => ?_, fun p m hd hm => ?_⟩, hfresh, fun p m hd hm he => ?_⟩
    · by_cases hpath : p = q
      · rw [hpath, hents] at hp
        rw [← Option.some.inj hp]
        exact hold
      · exact h.names p ents' (Dict.get?_set_eq_some.mpr (Or.inr ⟨hpath, hp⟩))
    · have hlen := h.single p m hd hm
      rw [length_holders_append hents] at hlen
      omega
    · have hlen := h.single p m hd hm
      rw [length_holders_append hents, if_pos he] at hlen
      exact List.length_eq_zero_iff.mp (by omega)
  · rintro ⟨h, hfresh, hfirst⟩
    refine ⟨fun p ents' hp => ?_, fun p m hd hm => ?_⟩
    · rcases Dict.get?_set_eq_some.mp hp with ⟨_, rfl⟩ | ⟨_, hold⟩
      · exact namesOk_append.mpr ⟨h.names q ents hents, hfresh⟩
      · exact h.names p ents' hold
    · rw [length_holders_append hents]
      by_cases he : holds m e = true
      · rw [if_pos he, hfirst p m hd hm he]
        exact Nat.le_refl 1
      · rw [if_neg he]
        exact h.single p m hd hm

/-- An entry for a new inode keeps the tree when its name is fresh. -/
theorem clean_newEntry (ht : Tables b) (hents : b.entries.get? q = some ents) :
    Clean ⟨fs', b.dirs, b.entries.set q (ents ++ [(b.fs.next_ino, name)])⟩ ↔
      Clean b ∧ Fresh (ents.map Prod.snd) name ∧ sep ∉ name := by
  rw [clean_append hents]
  refine and_congr_right fun _ => and_iff_left fun p m hd _ he => ?_
  have hm : b.fs.next_ino = m := holds_num he
  have hlt := ht.dirs_lt p m hd
  omega

/-- The two entries of a new directory are in order. -/
theorem namesOk_newEntries (m p : ℕ) : NamesOk (newEntries m p) := by
  refine ⟨(by decide : [str ".", str ".."].Nodup), fun e he => ?_⟩
  rcases List.mem_cons.mp he with rfl | he
  · exact (by decide : str "." ≠ [] ∧ sep ∉ str ".")
  · rw [List.mem_singleton.mp he]
    exact (by decide : str ".." ≠ [] ∧ sep ∉ str "..")

/-- The two entries of a directory that nothing names keep the tree. -/
theorem clean_newDir {parent : ℕ} (ht : Tables b) (hnew : b.dirs.get? path = none) :
    Clean ⟨fs', b.dirs.set path b.fs.next_ino,
      b.entries.set path (newEntries b.fs.next_ino parent)⟩ ↔ Clean b := by
  have hnone := ht.entries_none hnew
  constructor
  · intro h
    refine ⟨fun p ents' hp => h.names p ents' (Dict.get?_set_new hnone hp), fun p m hd hm => ?_⟩
    have hlen := h.single p m (Dict.get?_set_new hnew hd) hm
    rw [holders_new hnone] at hlen
    exact hlen
  · intro h
    refine ⟨fun p ents' hp => ?_, fun p m hd hm => ?_⟩
    · rcases Dict.get?_set_eq_some.mp hp with ⟨_, rfl⟩ | ⟨_, hold⟩
      · exact namesOk_newEntries _ _
      · exact h.names p ents' hold
    · rw [holders_new hnone]
      rcases Dict.get?_set_eq_some.mp hd with ⟨_, rfl⟩ | ⟨_, hold⟩
      · rw [holders_eq_nil fun hn => Nat.lt_irrefl _ (ht.named_lt _ hn)]
        exact Nat.zero_le 1
      · exact h.single p m hold hm

/-- A directory keeps the tree when its name is fresh. -/
theorem clean_mkdir {parent : ℕ} (ht : Tables b) (hnew : b.dirs.get? path = none)
    (hents : b.entries.get? q = some ents) :
    Clean ⟨fs', b.dirs.set path b.fs.next_ino,
      (b.entries.set path (newEntries b.fs.next_ino parent)).set q
        (ents ++ [(b.fs.next_ino, name)])⟩ ↔
      Clean b ∧ Fresh (ents.map Prod.snd) name ∧ sep ∉ name := by
  have hnone := ht.entries_none hnew
  have hget : (b.entries.set path (newEntries b.fs.next_ino parent)).get? q = some ents :=
    Dict.get?_set_new hnone hents
  rw [clean_append (b := ⟨fs', b.dirs.set path b.fs.next_ino,
    b.entries.set path (newEntries b.fs.next_ino parent)⟩) hget, clean_newDir ht hnew]
  refine and_congr_right fun _ => and_iff_left fun p m hd hm he => ?_
  have hm' : b.fs.next_ino = m := holds_num he
  dsimp only
  rw [holders_new hnone, ← hm',
    holders_eq_nil fun hn => Nat.lt_irrefl _ (ht.named_lt _ hn)]

/-! ## Every directory has an entry -/

/-- An entry that holds an inode goes on holding it. -/
theorem HeldAt.grows (h : HeldAt b path n) (hg : Grows b b') : HeldAt b' path n := by
  obtain ⟨nm, ents, parent, tail, hname, hents, hparent, hmem, hown⟩ := h
  obtain ⟨t, ht⟩ := hg.entries _ ents hents
  obtain ⟨t', ht'⟩ := hg.entries path _ hown
  refine ⟨nm, _, parent, tail ++ t', hname, ht, hg.dirs _ _ hparent, ?_, ?_⟩
  · rw [List.drop_append]
    exact List.mem_append_left _ hmem
  · rw [ht', List.append_assoc]

/-- An act gives each new inode an entry that holds it. -/
theorem Act.held (ht : Tables b) (hh : Held b) (ha : Act P b b') : Held b' := by
  have hg := ha.grows ht
  refine ⟨?_, fun p m hd hm => ?_⟩
  · obtain ⟨tail, hroot⟩ := hh.root
    obtain ⟨t, ht'⟩ := hg.entries _ _ hroot
    exact ⟨tail ++ t, by rw [ht', List.append_assoc]⟩
  cases ha with
  | @mkdir path parent_path name parent ents hnew hparent hents hroom hrule habove hname =>
    rcases Dict.get?_set_eq_some.mp hd with ⟨rfl, rfl⟩ | ⟨_, hold⟩
    · have hne : p ≠ parent_path := by
        rintro rfl
        rw [hnew] at hparent
        cases hparent
      obtain ⟨k, par, tail, _, hdots⟩ := ht.dots parent_path ents hents
      refine ⟨name, ents ++ [(b.fs.next_ino, name)], parent, [], hname, ?_, ?_, ?_, ?_⟩
      · rw [habove, Dict.get?_set_self]
      · rw [habove]
        exact Dict.get?_set_new hnew hparent
      · simp [hdots, newEntries]
      · rw [List.append_nil]
        exact Dict.get?_set_eq_some.mpr (Or.inr ⟨hne, Dict.get?_set_self _ _ _⟩)
    · exact (hh.below p m hold hm).grows hg
  | file => exact (hh.below p m hd hm).grows hg
  | node => exact (hh.below p m hd hm).grows hg
  | link => exact (hh.below p m hd hm).grows hg
  | chmod => exact (hh.below p m hd hm).grows hg

/-- So does a run of acts. -/
theorem Leads.held (h : Leads P b b') (ht : Tables b) (hh : Held b) : Held b' :=
  (h.invariant (I := fun c => Tables c ∧ Held c)
    (fun _ _ hc ha => ⟨ha.tables hc.1, Act.held hc.1 hc.2 ha⟩) ⟨ht, hh⟩).2

/-- At the start the root holds itself. -/
theorem rooted_held : Held (rooted fs) :=
  ⟨⟨[], rfl⟩, fun _ _ hd hm => absurd (rooted_dirs hd).2 hm⟩

/-- And its two names are in order. -/
theorem rooted_clean : Clean (rooted fs) := by
  refine ⟨fun p ents hp => ?_, fun p m hd hm => ?_⟩
  · rw [(rooted_entries hp).2]
    exact namesOk_newEntries _ _
  · exact absurd (rooted_dirs hd).2 hm

/-- An entry under the rule of the walk is fresh. -/
theorem hostRule_fresh {e : Entry} (h : hostRule b q e) (hents : b.entries.get? q = some ents) :
    Fresh (ents.map Prod.snd) e.2 ∧ sep ∉ e.2 := by
  obtain ⟨hhost, _, hnew⟩ := h
  refine ⟨⟨hhost.ne_nil, fun hmem => ?_⟩, hhost.sep_notMem⟩
  obtain ⟨x, hx, hname⟩ := List.mem_map.mp hmem
  exact hnew ents hents x hx hname

/-- The walk keeps the tree. -/
theorem Act.clean (ht : Tables b) (hc : Clean b) (ha : Act hostRule b b') : Clean b' := by
  cases ha with
  | mkdir hnew hparent hents hroom hrule habove hname =>
    exact (clean_mkdir ht hnew hents).mpr ⟨hc, hostRule_fresh hrule hents⟩
  | file hents hroom hstore hrule =>
    exact (clean_newEntry ht hents).mpr ⟨hc, hostRule_fresh hrule hents⟩
  | node hents hroom hrule =>
    exact (clean_newEntry ht hents).mpr ⟨hc, hostRule_fresh hrule hents⟩
  | link hents htarget hino hrule =>
    have hlt := ht.named_lt _ htarget
    have hnew := hrule.2.1
    dsimp only at hnew
    omega
  | chmod hd => exact ⟨hc.names, hc.single⟩

/-- Names of the host keep every directory clean. -/
theorem Leads.clean (h : Leads hostRule b b') (ht : Tables b) (hc : Clean b) : Clean b' :=
  (h.invariant (I := fun c => Tables c ∧ Clean c)
    (fun _ _ hc ha => ⟨ha.tables hc.1, Act.clean hc.1 hc.2 ha⟩) ⟨ht, hc⟩).2

/-! ## The directories of a path -/

/-- The first two entries of a directory are itself and its parent. -/
theorem Held.dots (ht : Tables b) (hh : Held b) (hents : b.entries.get? path = some ents) :
    ∃ m p tail, b.dirs.get? path = some m ∧ b.dirs.get? (parentPath path) = some p ∧
      ents = newEntries m p ++ tail := by
  obtain ⟨m, hd⟩ := ht.get?_dirs hents
  by_cases hm : m = ROOTINO
  · have hpath : path = [sep] := Dict.key_unique ht.inj (hm ▸ hd) ht.root
    rw [hpath] at hd hents ⊢
    obtain ⟨tail, hroot⟩ := hh.root
    rw [hents] at hroot
    exact ⟨ROOTINO, ROOTINO, tail, ht.root, ht.root, Option.some.inj hroot⟩
  · obtain ⟨nm, hents', p, tail, _, _, hparent, _, hown⟩ := hh.below path m hd hm
    rw [hents] at hown
    exact ⟨m, p, tail, hd, hparent, Option.some.inj hown⟩

/-- The directory above a directory is there. -/
theorem Held.above (ht : Tables b) (hh : Held b) (hd : b.dirs.get? path = some n) :
    ∃ m, b.dirs.get? (parentPath path) = some m := by
  obtain ⟨ents, hents⟩ := ht.get?_entries hd
  obtain ⟨_, p, _, _, hparent, _⟩ := Held.dots ht hh hents
  exact ⟨p, hparent⟩

end Sys16.MkfsNamespace
