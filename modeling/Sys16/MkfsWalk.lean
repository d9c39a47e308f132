import Sys16.MkfsActs

/-!
# The walk of the host tree

Every name that the walk adds is allowed by the host and new in its
directory, since no two objects of a host tree share a path, and the entry of
each file stays the first one with its name.
-/

namespace Sys16.MkfsWalk

open PyText PyStruct PyDict HostWalk MkfsImage MkfsBlocks MkfsBuild MkfsActs Relation

variable {b b' : Build} {fs fs' : Fs} {done : List (List Str)} {here : List Str} {name : Str}
  {ents : List Entry} {f : HostFile} {files : List HostFile} {limit d : ℕ} {P : Rule}
  {N : Str → Prop}

/-- The rule of the walk: a new inode, by a name the host allows that is new in
its directory. -/
def hostRule : Rule := fun b path e =>
  HostName e.2 ∧ e.1 = b.fs.next_ino ∧ ∀ ents, b.entries.get? path = some ents → ∀ x ∈ ents, x.2 ≠ e.2

/-- The directories and the names that a walk has added come from the objects
it has visited. -/
structure Visited (done : List (List Str)) (b : Build) : Prop where
  tables : Tables b
  host : ∀ o ∈ done, ∀ name ∈ o, HostName name
  dirs : ∀ path d, b.dirs.get? path = some d → ∃ o ∈ done, path = imagePath o
  names : ∀ path ents e, b.entries.get? path = some ents → e ∈ ents →
    e.2 = str "." ∨ e.2 = str ".." ∨ ∃ o, o ++ [e.2] ∈ done ∧ path = imagePath o

/-- A name that has not been visited is new in its directory. -/
theorem Visited.rule (h : Visited done b) (hhost : ∀ n ∈ here ++ [name], HostName n)
    (hnew : here ++ [name] ∉ done) : hostRule b (imagePath here) (b.fs.next_ino, name) := by
  have hname : HostName name := hhost name (by simp)
  refine ⟨hname, rfl, fun ents hents x hx hxname => ?_⟩
  rcases h.names _ ents x hents hx with hdot | hdot | ⟨o, ho, hpath⟩
  · exact hname.2.2.2.1 (hxname.symm.trans hdot)
  · exact hname.2.2.2.2 (hxname.symm.trans hdot)
  · have hsame := imagePath_injective (fun n hn => hhost n (List.mem_append_left _ hn))
      (fun n hn => h.host _ ho n (List.mem_append_left _ hn)) hpath
    rw [hxname, ← hsame] at ho
    exact hnew ho

/-- A directory that has not been visited is missing. -/
theorem Visited.absent (h : Visited done b) (hhost : ∀ n ∈ here, HostName n)
    (hnew : here ∉ done) : b.dirs.get? (imagePath here) = none := by
  cases hd : b.dirs.get? (imagePath here) with
  | none => rfl
  | some m =>
    obtain ⟨o, ho, hpath⟩ := h.dirs _ m hd
    exact absurd (imagePath_injective hhost (h.host o ho) hpath ▸ ho) hnew

/-- A state with one more object. -/
theorem Visited.add (h : Visited done b) (ht : Tables b')
    (hhost : ∀ n ∈ here ++ [name], HostName n)
    (hdirs : ∀ p d, b'.dirs.get? p = some d →
      b.dirs.get? p = some d ∨ p = imagePath (here ++ [name]))
    (hnames : ∀ p ents' x, b'.entries.get? p = some ents' → x ∈ ents' →
      x.2 = str "." ∨ x.2 = str ".." ∨ (x.2 = name ∧ p = imagePath here) ∨
        ∃ ents, b.entries.get? p = some ents ∧ x ∈ ents) :
    Visited (done ++ [here ++ [name]]) b' := by
  refine ⟨ht, fun o ho => ?_, fun p d hd => ?_, fun p ents' x hp hx => ?_⟩
  · rcases List.mem_append.mp ho with ho | ho
    · exact h.host o ho
    · rw [List.mem_singleton.mp ho]
      exact hhost
  · rcases hdirs p d hd with hd | hd
    · obtain ⟨o, ho, hp⟩ := h.dirs p d hd
      exact ⟨o, List.mem_append_left _ ho, hp⟩
    · exact ⟨here ++ [name], by simp, hd⟩
  · rcases hnames p ents' x hp hx with hdot | hdot | ⟨hxname, hpath⟩ | ⟨ents, hents, hx'⟩
    · exact Or.inl hdot
    · exact Or.inr (Or.inl hdot)
    · exact Or.inr (Or.inr ⟨here, by rw [hxname]; simp, hpath⟩)
    · rcases h.names p ents x hents hx' with hdot | hdot | ⟨o, ho, hpath⟩
      · exact Or.inl hdot
      · exact Or.inr (Or.inl hdot)
      · exact Or.inr (Or.inr ⟨o, List.mem_append_left _ ho, hpath⟩)

/-- An entry of a directory after one has been added at its end. -/
theorem mem_set_append {entries : Dict Str (List Entry)} {path p : Str} {e x : Entry}
    {ents' : List Entry} (hents : entries.get? path = some ents)
    (hp : (entries.set path (ents ++ [e])).get? p = some ents') (hx : x ∈ ents') :
    (x = e ∧ p = path) ∨ ∃ ents, entries.get? p = some ents ∧ x ∈ ents := by
  rcases Dict.get?_set_eq_some.mp hp with ⟨rfl, rfl⟩ | ⟨_, hold⟩
  · rcases List.mem_append.mp hx with hx | hx
    · exact Or.inr ⟨ents, hents, hx⟩
    · exact Or.inl ⟨List.mem_singleton.mp hx, rfl⟩
  · exact Or.inr ⟨ents', hold, hx⟩

/-- An entry of a directory after a new one has been made. -/
theorem mem_set_newEntries {entries : Dict Str (List Entry)} {path p : Str} {x : Entry}
    {m parent : ℕ} {ents' : List Entry}
    (hp : (entries.set path (newEntries m parent)).get? p = some ents') (hx : x ∈ ents') :
    x.2 = str "." ∨ x.2 = str ".." ∨ ∃ ents, entries.get? p = some ents ∧ x ∈ ents := by
  rcases Dict.get?_set_eq_some.mp hp with ⟨_, rfl⟩ | ⟨_, hold⟩
  · rcases List.mem_cons.mp hx with rfl | hx
    · exact Or.inl rfl
    · rw [List.mem_singleton.mp hx]
      exact Or.inr (Or.inl rfl)
  · exact Or.inr (Or.inr ⟨ents', hold, hx⟩)

/-- Every name of a state but `.` and `..` has a property. -/
def NamedWith (N : Str → Prop) (b : Build) : Prop :=
  ∀ path ents e, b.entries.get? path = some ents → e ∈ ents →
    e.2 = str "." ∨ e.2 = str ".." ∨ N e.2

/-- One more entry with a name that will do. -/
theorem NamedWith.append {path : Str} {e : Entry} {fs' : Fs} {dirs : Dict Str ℕ}
    (h : NamedWith N b) (hents : b.entries.get? path = some ents) (he : N e.2) :
    NamedWith N ⟨fs', dirs, b.entries.set path (ents ++ [e])⟩ := by
  intro p ents' x hp hx
  rcases mem_set_append hents hp hx with ⟨rfl, _⟩ | ⟨ents'', hp', hx'⟩
  · exact Or.inr (Or.inr he)
  · exact h p ents'' x hp' hx'

/-- Acts whose rule gives names a property keep it. -/
theorem Act.namedWith (ht : Tables b) (h : NamedWith N b) (ha : Act (naming N) b b') :
    NamedWith N b' := by
  cases ha with
  | @mkdir path parent_path name parent ents hnew hparent hents hroom hrule habove hname =>
    have hnone := ht.entries_none hnew
    have hdir : NamedWith N { b with
        entries := b.entries.set path (newEntries b.fs.next_ino parent) } := by
      intro p ents' x hp hx
      rcases mem_set_newEntries hp hx with hdot | hdot | ⟨ents'', hold, hx'⟩
      · exact Or.inl hdot
      · exact Or.inr (Or.inl hdot)
      · exact h p ents'' x hold hx'
    exact hdir.append (Dict.get?_set_new hnone hents) hrule
  | file hents hroom hstore hrule => exact h.append hents hrule
  | node hents hroom hrule => exact h.append hents hrule
  | link hents htarget hino hrule => exact h.append hents hrule
  | chmod hd => exact h

/-- A run of acts names entries with the names of its rule. -/
theorem Leads.namedWith (h : Leads (naming N) b b') (ht : Tables b) (hb : NamedWith N b) :
    NamedWith N b' :=
  (h.invariant (I := fun c => Tables c ∧ NamedWith N c)
    (fun _ _ hc ha => ⟨ha.tables hc.1, Act.namedWith hc.1 hc.2 ha⟩) ⟨ht, hb⟩).2

/-! ## Files -/

/-- A host file on the image: the first entry with its name, in the directory
it is in, names an inode that its contents were stored in. -/
def FileAt (b : Build) (here : List Str) (f : HostFile) : Prop :=
  ∃ ents ino, b.entries.get? (imagePath here) = some ents ∧
    ents.find? (fun e => e.2 = f.name) = some (ino, f.name) ∧ (ino, f.content) ∈ b.fs.stored

/-- A file stays where it is. -/
theorem FileAt.grows (h : FileAt b here f) (hg : Grows b b') : FileAt b' here f := by
  obtain ⟨ents, ino, hents, hfind, hstored⟩ := h
  obtain ⟨tail, htail⟩ := hg.entries _ ents hents
  exact ⟨ents ++ tail, ino, htail, by rw [List.find?_append, hfind, Option.some_or],
    hg.stored _ hstored⟩

/-- What a step of the walk does: the objects it visits and the host files it adds. -/
structure Visits (b : Build) (done : List (List Str)) (files : List (List Str × HostFile))
    (b' : Build) : Prop where
  visited : Visited done b'
  leads : Leads hostRule b b'
  files : ∀ p ∈ files, p.2.islink = false → FileAt b' p.1 p.2

/-- Two parts of the walk visit what each of them does. -/
theorem Visits.trans {c : Build} {done' : List (List Str)} {fl fl' : List (List Str × HostFile)}
    (h : Visits b done fl b') (ht : Tables b) (k : Visits b' done' fl' c) :
    Visits b done' (fl ++ fl') c := by
  refine ⟨k.visited, h.leads.trans k.leads, fun p hp hlink => ?_⟩
  rcases List.mem_append.mp hp with hp | hp
  · exact (h.files p hp hlink).grows (k.leads.grows (h.leads.tables ht))
  · exact k.files p hp hlink

/-- A regular file has the next inode, its contents, and an entry in its directory. -/
theorem addFile_eq {here : Str} (hlink : f.islink = false) (h : b.addFile here f = .ok b') :
    ∃ fs' ents, b.entries.get? here = some ents ∧ b.fs.next_ino < b.fs.ninodes ∧
      (allocated b.fs (Int.lor S_IFREG (if f.executable then 0o755 else 0o644))).store_data
        b.fs.next_ino f.content = .ok fs' ∧
      b' = ⟨fs', b.dirs, b.entries.set here (ents ++ [(b.fs.next_ino, f.name)])⟩ := by
  unfold Build.addFile at h
  rw [hlink, if_neg (by simp)] at h
  obtain ⟨⟨fs₁, ino⟩, halloc, hrest⟩ := bind_eq_ok.mp h
  obtain ⟨fs₂, hstore, happend⟩ := bind_eq_ok.mp hrest
  obtain ⟨hroom, rfl, rfl⟩ := alloc_inode_eq halloc
  obtain ⟨ents, hents, rfl⟩ := append_eq happend
  exact ⟨fs₂, ents, hents, hroom, hstore, rfl⟩

/-- A symbolic link of the host is left out. -/
theorem addFile_link {here : Str} (hlink : f.islink = true) (h : b.addFile here f = .ok b') :
    b' = b := by
  unfold Build.addFile at h
  rw [if_pos hlink] at h
  exact (Except.ok.inj h).symm

/-- A file keeps the tables in order. -/
theorem addFile_tables {here : Str} (ht : Tables b) (hadd : b.addFile here f = .ok b') :
    Tables b' := by
  cases hlink : f.islink with
  | true =>
    rw [addFile_link hlink hadd]
    exact ht
  | false =>
    obtain ⟨fs', ents, hents, hroom, hstore, rfl⟩ := addFile_eq hlink hadd
    have ha : Act (naming fun _ => True) b ⟨fs', b.dirs, b.entries.set here
        (ents ++ [(b.fs.next_ino, f.name)])⟩ := .file hents hroom hstore trivial
    exact ha.tables ht

/-- Adding a file visits its path. -/
theorem addFile_visits (h : Visited done b) (hhost : ∀ n ∈ here ++ [f.name], HostName n)
    (hnew : here ++ [f.name] ∉ done) (hadd : b.addFile (imagePath here) f = .ok b') :
    Visits b (done ++ [here ++ [f.name]]) [(here, f)] b' := by
  cases hlink : f.islink with
  | true =>
    rw [addFile_link hlink hadd]
    refine ⟨h.add h.tables hhost (fun _ _ hd => Or.inl hd) fun p ents' x hp hx => ?_, .refl,
      fun p hp hno => ?_⟩
    · exact Or.inr (Or.inr (Or.inr ⟨ents', hp, hx⟩))
    · rw [List.mem_singleton.mp hp, hlink] at hno
      cases hno
  | false =>
    obtain ⟨fs', ents, hents, hroom, hstore, rfl⟩ := addFile_eq hlink hadd
    have hrule := h.rule hhost hnew
    have hact : Act hostRule b ⟨fs', b.dirs, b.entries.set (imagePath here)
        (ents ++ [(b.fs.next_ino, f.name)])⟩ := .file hents hroom hstore hrule
    refine ⟨h.add (hact.tables h.tables) hhost (fun _ _ hd => Or.inl hd)
      fun p ents' x hp hx => ?_, .single hact, fun p hp _ => ?_⟩
    · rcases mem_set_append hents hp hx with ⟨rfl, hpath⟩ | hold
      · exact Or.inr (Or.inr (Or.inl ⟨rfl, hpath⟩))
      · exact Or.inr (Or.inr (Or.inr hold))
    · rw [List.mem_singleton.mp hp]
      refine ⟨ents ++ [(b.fs.next_ino, f.name)], b.fs.next_ino, ?_, ?_, ?_⟩
      · exact Dict.get?_set_self _ _ _
      · have hnone : ents.find? (fun e => e.2 = f.name) = none := by
          rw [List.find?_eq_none]
          intro x hx
          simpa using hrule.2.2 ents hents x hx
        rw [List.find?_append, hnone, Option.none_or]
        simp
      · rw [store_data_stored hstore]
        simp

/-- Adding the files of a directory visits each of them, by induction on the files. -/
theorem addFiles_visits (h : Visited done b) (hhost : ∀ f ∈ files, ∀ n ∈ here ++ [f.name], HostName n)
    (hnodup : (done ++ files.map fun f => here ++ [f.name]).Nodup)
    (hadd : files.foldlM (fun b f => b.addFile (imagePath here) f) b = .ok b') :
    Visits b (done ++ files.map fun f => here ++ [f.name]) (files.map fun f => (here, f)) b' := by
  induction files generalizing done b with
  | nil =>
    cases hadd
    rw [List.map_nil, List.append_nil]
    exact ⟨h, .refl, fun p hp => by simp at hp⟩
  | cons f files ih =>
    rw [List.foldlM_cons] at hadd
    obtain ⟨c, hone, hrest⟩ := bind_eq_ok.mp hadd
    have hsplit : done ++ (f :: files).map (fun f => here ++ [f.name]) =
        done ++ [here ++ [f.name]] ++ files.map fun f => here ++ [f.name] := by simp
    rw [hsplit] at hnodup ⊢
    have hnew : here ++ [f.name] ∉ done := by
      have hleft := (List.nodup_append.mp (List.nodup_append.mp hnodup).1).2.2
      exact fun hmem => hleft _ hmem _ (List.mem_singleton.mpr rfl) rfl
    have hfirst := addFile_visits h (hhost f List.mem_cons_self) hnew hone
    exact hfirst.trans h.tables
      (ih hfirst.visited (fun g hg => hhost g (List.mem_cons_of_mem f hg)) hnodup hrest)

/-! ## Directories -/

/-- The host files of a walk, each with the directory it is in. -/
def hostFiles (walk : List (List Str × List HostFile)) : List (List Str × HostFile) :=
  walk.flatMap fun w => (sortedFiles w.2).map fun f => (w.1, f)

/-- Making the directory for a host directory visits its path. -/
theorem makedir_visits (h : Visited done b) (hhost : ∀ n ∈ here ++ [name], HostName n)
    (hnew : here ++ [name] ∉ done) {p : ℕ} (hparent : b.dirs.get? (imagePath here) = some p)
    (hdir : b.getdir limit (imagePath (here ++ [name])) = .ok (b', d)) :
    Visits b (done ++ [here ++ [name]]) [] b' ∧
      b'.dirs.get? (imagePath (here ++ [name])) = some d := by
  have hname : HostName name := hhost name (by simp)
  have habsent := h.absent hhost hnew
  obtain ⟨limit', b₁, parent, _, habove, hnew₁, hparent₁, hmake⟩ := getdir_new h.tables hdir habsent
  rw [parentPath_imagePath here hname] at habove hparent₁
  obtain ⟨rfl, _⟩ := getdir_old hparent habove
  rw [← parentPath_imagePath here hname] at hparent₁
  have hrule := h.rule hhost hnew
  obtain ⟨ents, nm, hents, hnm, hroom, rfl, rfl⟩ := makedir_eq hmake hnew₁ hparent₁
  rw [lastName_imagePath here hname] at hnm
  obtain rfl := Except.ok.inj hnm
  rw [parentPath_imagePath here hname] at hents hparent₁ ⊢
  have hact : Act hostRule b₁ ⟨withDir b₁.fs parent,
      b₁.dirs.set (imagePath (here ++ [name])) b₁.fs.next_ino,
      (b₁.entries.set (imagePath (here ++ [name])) (newEntries b₁.fs.next_ino parent)).set
        (imagePath here) (ents ++ [(b₁.fs.next_ino, name)])⟩ :=
    .mkdir hnew₁ hparent₁ hents hroom hrule (parentPath_imagePath here hname)
      (lastName_imagePath here hname)
  refine ⟨⟨h.add (hact.tables h.tables) hhost (fun q m hd => ?_) fun q ents' x hq hx => ?_,
    .single hact, fun q hq => by simp at hq⟩, Dict.get?_set_self _ _ _⟩
  · rcases Dict.get?_set_eq_some.mp hd with ⟨hq, _⟩ | ⟨_, hold⟩
    · exact Or.inr hq
    · exact Or.inl hold
  · have hget : (b₁.entries.set (imagePath (here ++ [name]))
        (newEntries b₁.fs.next_ino parent)).get? (imagePath here) = some ents :=
      Dict.get?_set_new (h.tables.entries_none hnew₁) hents
    rcases mem_set_append hget hq hx with ⟨rfl, hpath⟩ | ⟨ents'', hq', hx'⟩
    · exact Or.inr (Or.inr (Or.inl ⟨rfl, hpath⟩))
    · rcases mem_set_newEntries hq' hx' with hdot | hdot | hold
      · exact Or.inl hdot
      · exact Or.inr (Or.inl hdot)
      · exact Or.inr (Or.inr (Or.inr hold))

/-- The files of two parts of a walk. -/
theorem hostFiles_append (v w : List (List Str × List HostFile)) :
    hostFiles (v ++ w) = hostFiles v ++ hostFiles w := List.flatMap_append

/-- The objects of one directory: itself, and its files. -/
theorem objects_single (here : List Str) (files : List HostFile) :
    objects [(here, files)] = here :: (sortedFiles files).map fun f => here ++ [f.name] := by
  simp [objects]

/-- The files of one directory, in order. -/
theorem hostFiles_single (here : List Str) (files : List HostFile) :
    hostFiles [(here, files)] = (sortedFiles files).map fun f => (here, f) := by
  simp [hostFiles]

/-- A directory of the walk is made in the one above it, with its files. -/
theorem addDir_visits (h : Visited done b)
    (hhost : ∀ o ∈ objects [(here ++ [name], files)], ∀ n ∈ o, HostName n)
    (hnodup : (done ++ objects [(here ++ [name], files)]).Nodup) {p : ℕ}
    (hparent : b.dirs.get? (imagePath here) = some p)
    (hadd : b.addDir limit (here ++ [name], files) = .ok b') :
    Visits b (done ++ objects [(here ++ [name], files)]) (hostFiles [(here ++ [name], files)]) b' ∧
      ∃ d, b'.dirs.get? (imagePath (here ++ [name])) = some d := by
  rw [objects_single] at hhost hnodup ⊢
  rw [hostFiles_single]
  unfold Build.addDir at hadd
  obtain ⟨⟨c, d⟩, hdir, hfiles⟩ := bind_eq_ok.mp hadd
  have hself := hhost _ List.mem_cons_self
  have hnew : here ++ [name] ∉ done :=
    fun hmem => (List.nodup_append.mp hnodup).2.2 _ hmem _ List.mem_cons_self rfl
  obtain ⟨hmake, hd⟩ := makedir_visits h hself hnew hparent hdir
  rw [List.append_cons] at hnodup ⊢
  have hrest := addFiles_visits hmake.visited
    (fun f hf => hhost _ (List.mem_cons_of_mem _ (List.mem_map_of_mem hf))) hnodup hfiles
  exact ⟨hmake.trans h.tables hrest, d, (hrest.leads.grows hmake.visited.tables).dirs _ d hd⟩

/-- The walk below a directory that is there visits every object below it. -/
theorem walkFrom_visits (t : HostDir) (h : Visited done b)
    (hhost : ∀ o ∈ objects (t.walkFrom here), ∀ n ∈ o, HostName n)
    (hnodup : (done ++ objects (t.walkFrom here)).Nodup) {p : ℕ}
    (hhere : b.dirs.get? (imagePath here) = some p)
    (hadd : (t.walkFrom here).foldlM (Build.addDir limit) b = .ok b') :
    Visits b (done ++ objects (t.walkFrom here)) (hostFiles (t.walkFrom here)) b' := by
  induction t generalizing here done b b' p with
  | empty =>
    cases hadd
    exact ⟨by simpa [HostDir.walkFrom, objects] using h, .refl,
      fun q hq => by simp [HostDir.walkFrom, hostFiles] at hq⟩
  | file g rest ih => exact ih h hhost hnodup hhere hadd
  | dir m sub rest ihsub ih =>
    rw [HostDir.walkFrom, ← List.singleton_append] at hadd hhost hnodup ⊢
    rw [objects_append, objects_append] at hhost hnodup ⊢
    rw [hostFiles_append, hostFiles_append]
    rw [List.singleton_append, List.foldlM_cons] at hadd
    obtain ⟨c, hone, hrest⟩ := bind_eq_ok.mp hadd
    rw [List.foldlM_append] at hrest
    obtain ⟨e, hbelow, hafter⟩ := bind_eq_ok.mp hrest
    rw [← List.append_assoc, ← List.append_assoc] at hnodup ⊢
    have hfirst := (List.nodup_append.mp (List.nodup_append.mp hnodup).1).1
    obtain ⟨hdir, d, hd⟩ := addDir_visits h
      (fun o ho => hhost o (List.mem_append_left _ ho)) hfirst hhere hone
    have hsub := ihsub hdir.visited
      (fun o ho => hhost o (List.mem_append_right _ (List.mem_append_left _ ho)))
      (List.nodup_append.mp hnodup).1 hd hbelow
    have hgrows := (hdir.leads.grows h.tables).trans (hsub.leads.grows hdir.visited.tables)
    have hlast := ih hsub.visited
      (fun o ho => hhost o (List.mem_append_right _ (List.mem_append_right _ ho)))
      hnodup (hgrows.dirs _ p hhere) hafter
    exact hdir.trans h.tables (hsub.trans hdir.visited.tables hlast)

/-! ## The phases of a build -/

/-- The root directory alone. -/
def rooted (fs : Fs) : Build where
  fs := (allocated fs (Int.lor S_IFDIR 0o755)).modify fs.next_ino fun i => { i with nlink := 2 }
  dirs := .single [sep] ROOTINO
  entries := .single [sep] (newEntries ROOTINO ROOTINO)

/-- A build starts with the root directory, which is inode 2. -/
theorem start_eq (h : Build.start fs = .ok b) :
    fs.next_ino = ROOTINO ∧ fs.next_ino < fs.ninodes ∧ b = rooted fs := by
  unfold Build.start at h
  obtain ⟨⟨fs₁, ino⟩, halloc, h₁⟩ := bind_eq_ok.mp h
  obtain ⟨hroom, rfl, rfl⟩ := alloc_inode_eq halloc
  dsimp only at h₁
  by_cases hroot : fs.next_ino = ROOTINO
  · rw [if_pos hroot] at h₁
    cases h₁
    refine ⟨hroot, hroom, ?_⟩
    unfold rooted newEntries
    rw [hroot]
  · rw [if_neg hroot] at h₁
    cases h₁

/-- The root is the only directory there. -/
theorem rooted_dirs {path : Str} (hd : (rooted fs).dirs.get? path = some d) :
    path = [sep] ∧ d = ROOTINO :=
  Prod.mk.inj (List.mem_singleton.mp (Dict.get?_eq_some.mp hd))

/-- With its two entries. -/
theorem rooted_entries {path : Str} (he : (rooted fs).entries.get? path = some ents) :
    path = [sep] ∧ ents = newEntries ROOTINO ROOTINO :=
  Prod.mk.inj (List.mem_singleton.mp (Dict.get?_eq_some.mp he))

/-- Which are its two names for itself. -/
theorem rooted_names {path : Str} {e : Entry} (he : (rooted fs).entries.get? path = some ents)
    (hmem : e ∈ ents) : e.2 = str "." ∨ e.2 = str ".." := by
  rw [(rooted_entries he).2] at hmem
  rcases List.mem_cons.mp hmem with rfl | hmem
  · exact Or.inl rfl
  · rw [List.mem_singleton.mp hmem]
    exact Or.inr rfl

/-- The tables are in order at the start. -/
theorem rooted_tables (hroot : fs.next_ino = ROOTINO) : Tables (rooted fs) := by
  have hnext : (rooted fs).fs.next_ino = ROOTINO + 1 := congrArg (· + 1) hroot
  refine ⟨rfl, rfl, List.nodup_singleton _, fun path d hd => ?_, fun path ents he => ?_,
    fun m hm => ?_⟩
  · rw [hnext, (rooted_dirs hd).2]
    exact Nat.lt_succ_self _
  · obtain ⟨rfl, rfl⟩ := rooted_entries he
    exact ⟨ROOTINO, ROOTINO, [], rfl, (List.append_nil _).symm⟩
  · have hm' : m ∈ [ROOTINO, ROOTINO] := hm
    have hm'' : m = ROOTINO := by simpa using hm'
    omega

/-- And nothing but the root has been visited. -/
theorem rooted_visited (hroot : fs.next_ino = ROOTINO) : Visited [[]] (rooted fs) := by
  refine ⟨rooted_tables hroot, fun o ho => ?_, fun path d hd => ?_, fun path ents e he hmem => ?_⟩
  · rw [List.mem_singleton.mp ho]
    exact fun n hn => absurd hn List.not_mem_nil
  · exact ⟨[], List.mem_singleton.mpr rfl, (rooted_dirs hd).1⟩
  · rcases rooted_names he hmem with hdot | hdot
    · exact Or.inl hdot
    · exact Or.inr (Or.inl hdot)

/-- The host files of a tree, none when the host path is not a directory. -/
def treeFiles : Option HostTree → List (List Str × HostFile)
  | none => []
  | some t => hostFiles t.walk

/-- The walk of a whole host tree. -/
theorem addTree_visits {tree : Option HostTree} (hroot : fs.next_ino = ROOTINO)
    (h : (rooted fs).addTree limit tree = .ok b) :
    ∃ done, Visits (rooted fs) done (treeFiles tree) b := by
  have hv := rooted_visited hroot
  cases tree with
  | none =>
    cases h
    exact ⟨[[]], hv, .refl, fun p hp => by simp [treeFiles] at hp⟩
  | some t =>
    have hnodup := objects_nodup t
    have hhost : ∀ o ∈ objects t.walk, ∀ n ∈ o, HostName n := fun o ho => hostName_of_objects ho
    change t.walk.foldlM (Build.addDir limit) (rooted fs) = .ok b at h
    change ∃ done, Visits (rooted fs) done (hostFiles t.walk) b
    rw [HostTree.walk, ← List.singleton_append] at hnodup hhost ⊢
    rw [HostTree.walk, List.foldlM_cons] at h
    rw [objects_append, objects_single] at hnodup hhost
    rw [hostFiles_append, hostFiles_single]
    obtain ⟨c, hone, hrest⟩ := bind_eq_ok.mp h
    unfold Build.addDir at hone
    obtain ⟨⟨e, m⟩, hdir, hfiles⟩ := bind_eq_ok.mp hone
    obtain ⟨rfl, _⟩ := getdir_old (hv.tables.root) hdir
    rw [← List.singleton_append (l := (sortedFiles t.top.files).map _)] at hnodup hhost
    have htop := addFiles_visits hv
      (fun f hf => hhost _ (List.mem_append_left _ (List.mem_append_right _
        (List.mem_map_of_mem hf)))) (List.nodup_append.mp hnodup).1 hfiles
    have hgrows := htop.leads.grows hv.tables
    have hbelow := walkFrom_visits t.top htop.visited
      (fun o ho => hhost o (List.mem_append_right _ ho)) hnodup
      (hgrows.dirs _ _ hv.tables.root) hrest
    exact ⟨_, htop.trans hv.tables hbelow⟩

/-- A property of every name that a build may add. -/
structure AllNames (N : Str → Prop) (spec : List Str) : Prop where
  host : ∀ name, HostName name → N name
  lines : ∀ line ∈ spec, LineNames N line

/-- Every spec names what it likes. -/
theorem allNames_true (spec : List Str) : AllNames (fun _ => True) spec :=
  ⟨fun _ _ => trivial, fun _ _ _ _ _ _ _ => trivial⟩

/-- The phases of a build that completes: the root, the host tree, the spec
lines, and the writing out of the state they lead to. -/
theorem build_phases {tree : Option HostTree} {spec : List Str}
    (h : build limit fs tree spec = .ok b) :
    ∃ b₁ b₂, fs.next_ino = ROOTINO ∧ fs.next_ino < fs.ninodes ∧
      (rooted fs).addTree limit tree = .ok b₁ ∧
      spec.foldlM (Build.applyLine limit) b₁ = .ok b₂ ∧ b₂.finish = .ok b := by
  unfold build at h
  obtain ⟨b₀, hstart, h₁⟩ := bind_eq_ok.mp h
  obtain ⟨b₁, htree, h₂⟩ := bind_eq_ok.mp h₁
  obtain ⟨b₂, hspec, hfinish⟩ := bind_eq_ok.mp h₂
  obtain ⟨hroot, hroom, rfl⟩ := start_eq hstart
  exact ⟨b₁, b₂, hroot, hroom, htree, hspec, hfinish⟩

/-- Before anything is written out, a build has come from the root by acts,
and the host files are in place. -/
structure BuildLeads (N : Str → Prop) (fs : Fs) (tree : Option HostTree) (b₂ : Build) : Prop where
  root : fs.next_ino = ROOTINO
  room : fs.next_ino < fs.ninodes
  tables : Tables b₂
  leads : Leads (naming N) (rooted fs) b₂
  files : ∀ p ∈ treeFiles tree, p.2.islink = false → FileAt b₂ p.1 p.2

/-- A build that completes is a walk and a run of acts, and then the last four steps. -/
theorem build_leads {tree : Option HostTree} {spec : List Str} (hN : AllNames N spec)
    (h : build limit fs tree spec = .ok b) :
    ∃ b₂, BuildLeads N fs tree b₂ ∧ b₂.finish = .ok b := by
  obtain ⟨b₁, b₂, hroot, hroom, htree, hspec, hfinish⟩ := build_phases h
  obtain ⟨done, hvisits⟩ := addTree_visits hroot htree
  have hwalk : Leads (naming N) (rooted fs) b₁ :=
    hvisits.leads.mono fun _ _ e hrule => hN.host e.2 hrule.1
  have ht := hvisits.visited.tables
  have hlines := spec_leads ht hN.lines hspec
  exact ⟨b₂, ⟨hroot, hroom, hlines.tables ht, hwalk.trans hlines,
    fun p hp hlink => (hvisits.files p hp hlink).grows (hlines.grows ht)⟩, hfinish⟩

end Sys16.MkfsWalk
