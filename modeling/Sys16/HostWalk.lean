import Mathlib.Data.List.Sort
import Sys16.PyStruct

/-!
# Host directory trees

What `os.walk` shows of a directory of the host: each directory once, parents
first, with the files in it. A tree is well formed when the entries of each
directory have distinct names that the host allows, so that no two objects of
a walk share a path.
-/

namespace Sys16.HostWalk

open PyText PyStruct

/-- An entry of a host directory that is not a directory. -/
structure HostFile where
  name : Str
  /-- A symbolic link: to a file, to a directory or to nothing. -/
  islink : Bool
  /-- `os.access(full, os.X_OK)`. -/
  executable : Bool
  content : Bytes
  deriving DecidableEq, Repr

/-- A host directory, as the list of its entries in the order the host gives them. -/
inductive HostDir where
  | empty
  | file (f : HostFile) (rest : HostDir)
  | dir (name : Str) (sub rest : HostDir)

/-- The files of a directory. -/
def HostDir.files : HostDir → List HostFile
  | empty => []
  | file f rest => f :: rest.files
  | dir _ _ rest => rest.files

/-- The names of the entries of a directory. -/
def HostDir.names : HostDir → List Str
  | empty => []
  | file f rest => f.name :: rest.names
  | dir name _ rest => name :: rest.names

/-- A name the host allows in a directory. -/
def HostName (name : Str) : Prop :=
  name ≠ [] ∧ sep ∉ name ∧ 0 ∉ name ∧ name ≠ str "." ∧ name ≠ str ".."

/-- Names are allowed and distinct in a directory and all those under it. -/
def HostDir.WellFormed : HostDir → Prop
  | empty => True
  | file f rest => HostName f.name ∧ f.name ∉ rest.names ∧ rest.WellFormed
  | dir name sub rest =>
    HostName name ∧ name ∉ rest.names ∧ sub.WellFormed ∧ rest.WellFormed

/-- A finite host tree. -/
structure HostTree where
  top : HostDir
  wellFormed : top.WellFormed

/-- `sorted(filenames)`. -/
def sortedFiles (files : List HostFile) : List HostFile :=
  files.insertionSort fun a b => a.name ≤ b.name

/-- The walk below a directory. -/
def HostDir.walkFrom (here : List Str) : HostDir → List (List Str × List HostFile)
  | empty => []
  | file _ rest => rest.walkFrom here
  | dir name sub rest =>
    (here ++ [name], sub.files) :: (sub.walkFrom (here ++ [name]) ++ rest.walkFrom here)

/-- `os.walk`: each directory, by the names that lead to it, with its files. -/
def HostTree.walk (t : HostTree) : List (List Str × List HostFile) :=
  ([], t.top.files) :: t.top.walkFrom []

/-- The path of a directory of the walk on the image: `'/'`, or `'/'` and its
path relative to the top. -/
def imagePath (here : List Str) : Str :=
  if here = [] then [sep] else here.flatMap fun name => sep :: name

/-! ## Paths of the walk -/

variable {here : List Str} {name : Str}

/-- A host name is not empty. -/
theorem HostName.ne_nil (h : HostName name) : name ≠ [] := h.1

/-- A host name holds no slash. -/
theorem HostName.sep_notMem (h : HostName name) : sep ∉ name := h.2.1

/-- The path of a directory below another one. -/
theorem imagePath_concat (here : List Str) (name : Str) :
    imagePath (here ++ [name]) = (here.flatMap fun name => sep :: name) ++ sep :: name := by
  rw [imagePath, if_neg (by simp), List.flatMap_append]
  simp

/-- Splitting an image path gives the path of the directory and the last name. -/
theorem rsplit_imagePath (h : HostName name) :
    rsplit (imagePath (here ++ [name])) = some (here.flatMap fun name => sep :: name, name) :=
  rsplit_eq_some.mpr ⟨imagePath_concat here name, h.sep_notMem⟩

/-- The parent of a directory of the walk is the directory above it. -/
theorem parentPath_imagePath (here : List Str) (h : HostName name) :
    parentPath (imagePath (here ++ [name])) = imagePath here := by
  unfold parentPath
  rw [rsplit_imagePath h]
  cases here with
  | nil => rfl
  | cons a here => rfl

/-- The last name of an image path is the last of its components. -/
theorem lastName_imagePath (here : List Str) (h : HostName name) :
    lastName (imagePath (here ++ [name])) = .ok name :=
  lastName_eq_ok.mpr ⟨_, rsplit_imagePath h⟩

/-- Directories of the walk have distinct paths. -/
theorem imagePath_injective {here here' : List Str} (h : ∀ name ∈ here, HostName name)
    (h' : ∀ name ∈ here', HostName name) (he : imagePath here = imagePath here') :
    here = here' := by
  induction here using List.reverseRecOn generalizing here' with
  | nil =>
    cases here' using List.reverseRecOn with
    | nil => rfl
    | append_singleton here' name =>
      have hlast := lastName_imagePath here' (h' name (by simp))
      rw [← he] at hlast
      cases hlast
      exact absurd rfl (h' [] (by simp)).ne_nil
  | append_singleton here name ih =>
    have hlast := lastName_imagePath here (h name (by simp))
    have hparent := parentPath_imagePath here (h name (by simp))
    cases here' using List.reverseRecOn with
    | nil =>
      rw [he] at hlast
      cases hlast
      exact absurd rfl (h [] (by simp)).ne_nil
    | append_singleton here' name' =>
      have hlast' := lastName_imagePath here' (h' name' (by simp))
      have hparent' := parentPath_imagePath here' (h' name' (by simp))
      rw [he, hlast'] at hlast
      rw [he, hparent'] at hparent
      rw [ih (fun n hn => h n (List.mem_append_left _ hn))
        (fun n hn => h' n (List.mem_append_left _ hn)) hparent.symm, Except.ok.inj hlast]

/-! ## Objects of the walk -/

/-- The names of the subdirectories of a directory. -/
def HostDir.dirs : HostDir → List Str
  | empty => []
  | file _ rest => rest.dirs
  | dir name _ rest => name :: rest.dirs

/-- The objects of a walk in its order, each by the directory it is in and its name. -/
def objects (walk : List (List Str × List HostFile)) : List (List Str) :=
  walk.flatMap fun w => w.1 :: (sortedFiles w.2).map fun f => w.1 ++ [f.name]

variable {t : HostDir} {f : HostFile} {files : List HostFile} {o : List Str}

/-- Sorting the files of a directory keeps them all, each once. -/
theorem sortedFiles_perm (files : List HostFile) : (sortedFiles files).Perm files :=
  List.perm_insertionSort _ files

/-- The sorted files are the files. -/
theorem mem_sortedFiles : f ∈ sortedFiles files ↔ f ∈ files :=
  (sortedFiles_perm files).mem_iff

theorem objects_cons (here : List Str) (files : List HostFile)
    (walk : List (List Str × List HostFile)) :
    objects ((here, files) :: walk) =
      here :: ((sortedFiles files).map fun f => here ++ [f.name]) ++ objects walk := rfl

/-- The objects of two walks are those of each in turn. -/
theorem objects_append (v w : List (List Str × List HostFile)) :
    objects (v ++ w) = objects v ++ objects w := List.flatMap_append

/-- A file's name is one of the directory's names. -/
theorem mem_names_of_file (h : f ∈ t.files) : f.name ∈ t.names := by
  induction t with
  | empty => cases h
  | file g rest ih =>
    rcases List.mem_cons.mp h with rfl | h
    · exact List.mem_cons_self
    · exact List.mem_cons_of_mem _ (ih h)
  | dir name sub rest _ ih => exact List.mem_cons_of_mem _ (ih h)

/-- A subdirectory's name is one of the directory's names. -/
theorem mem_names_of_dir (h : name ∈ t.dirs) : name ∈ t.names := by
  induction t with
  | empty => cases h
  | file g rest ih => exact List.mem_cons_of_mem _ (ih h)
  | dir m sub rest _ ih =>
    rcases List.mem_cons.mp h with rfl | h
    · exact List.mem_cons_self
    · exact List.mem_cons_of_mem _ (ih h)

/-- Files have distinct names, none of them the name of a subdirectory. -/
theorem files_nodup (h : t.WellFormed) :
    (t.files.map HostFile.name).Nodup ∧ ∀ f ∈ t.files, HostName f.name ∧ f.name ∉ t.dirs := by
  induction t with
  | empty => exact ⟨List.nodup_nil, nofun⟩
  | file g rest ih =>
    obtain ⟨hg, hnew, hrest⟩ := h
    obtain ⟨hn, hd⟩ := ih hrest
    refine ⟨List.nodup_cons.mpr ⟨?_, hn⟩, ?_⟩
    · intro hmem
      obtain ⟨f, hf, he⟩ := List.mem_map.mp hmem
      exact hnew (he ▸ mem_names_of_file hf)
    · intro f hf
      rcases List.mem_cons.mp hf with rfl | hf
      · exact ⟨hg, fun hdir => hnew (mem_names_of_dir hdir)⟩
      · exact hd f hf
  | dir m sub rest _ ih =>
    obtain ⟨hm, hnew, _, hrest⟩ := h
    obtain ⟨hn, hd⟩ := ih hrest
    refine ⟨hn, fun f hf => ⟨(hd f hf).1, fun hmem => ?_⟩⟩
    rcases List.mem_cons.mp hmem with he | hmem
    · exact hnew (he ▸ mem_names_of_file hf)
    · exact (hd f hf).2 hmem

/-- Every object below a directory is in one of its subdirectories. -/
theorem objects_walkFrom (h : o ∈ objects (t.walkFrom here)) :
    ∃ name ∈ t.dirs, ∃ rest, o = here ++ name :: rest := by
  induction t generalizing here with
  | empty => cases h
  | file g rest ih => exact ih h
  | dir m sub rest ihsub ih =>
    rw [HostDir.walkFrom, objects_cons, objects_append, List.mem_append, List.mem_cons,
      List.mem_map, List.mem_append] at h
    rcases h with (rfl | ⟨f, _, rfl⟩) | h | h
    · exact ⟨m, List.mem_cons_self, [], rfl⟩
    · exact ⟨m, List.mem_cons_self, [f.name], by simp⟩
    · obtain ⟨n, _, rest', rfl⟩ := ihsub h
      exact ⟨m, List.mem_cons_self, n :: rest', by simp⟩
    · obtain ⟨n, hn, rest', rfl⟩ := ih h
      exact ⟨n, List.mem_cons_of_mem m hn, rest', rfl⟩

/-- A directory and all that is below it are distinct objects. -/
theorem whole_nodup (hw : t.WellFormed) (h : (objects (t.walkFrom here)).Nodup) :
    (objects ((here, t.files) :: t.walkFrom here)).Nodup := by
  obtain ⟨hn, hd⟩ := files_nodup hw
  have hfiles : ((sortedFiles t.files).map fun f => here ++ [f.name]).Nodup := by
    have hsorted := ((sortedFiles_perm t.files).map HostFile.name).nodup_iff.mpr hn
    rw [show (fun f : HostFile => here ++ [f.name]) =
      (fun n => here ++ [n]) ∘ HostFile.name from rfl, ← List.map_map]
    exact hsorted.map fun a b hab => by simpa using hab
  rw [objects_cons, List.cons_append, List.nodup_cons]
  refine ⟨?_, List.nodup_append.mpr ⟨hfiles, h, ?_⟩⟩
  · rw [List.mem_append, List.mem_map]
    rintro (⟨f, _, he⟩ | hmem)
    · simp at he
    · obtain ⟨n, _, rest, he⟩ := objects_walkFrom hmem
      simp at he
  · intro a ha b hb hab
    obtain ⟨f, hf, rfl⟩ := List.mem_map.mp ha
    obtain ⟨n, hmem, rest, rfl⟩ := objects_walkFrom hb
    have he := List.append_cancel_left hab
    exact (hd f (mem_sortedFiles.mp hf)).2 ((List.cons.inj he).1 ▸ hmem)

/-- A well-formed tree is walked once, object by object. -/
theorem walkFrom_nodup (hw : t.WellFormed) : (objects (t.walkFrom here)).Nodup := by
  induction t generalizing here with
  | empty => exact List.nodup_nil
  | file g rest ih => exact ih hw.2.2
  | dir m sub rest ihsub ih =>
    obtain ⟨_, hnew, hsub, hrest⟩ := hw
    have hbelow : (objects (sub.walkFrom (here ++ [m]))).Nodup := ihsub hsub
    have hwhole := whole_nodup hsub hbelow
    rw [HostDir.walkFrom, ← List.cons_append, objects_append]
    refine List.nodup_append.mpr ⟨hwhole, ih hrest, ?_⟩
    intro a ha b hb hab
    obtain ⟨n, hn, rest', rfl⟩ := objects_walkFrom hb
    have hprefix : ∃ tail, a = here ++ m :: tail := by
      rw [objects_cons, List.mem_append, List.mem_cons, List.mem_map] at ha
      rcases ha with (rfl | ⟨f, _, rfl⟩) | ha
      · exact ⟨[], rfl⟩
      · exact ⟨[f.name], by simp⟩
      · obtain ⟨n', _, tail, rfl⟩ := objects_walkFrom ha
        exact ⟨n' :: tail, by simp⟩
    obtain ⟨tail, rfl⟩ := hprefix
    have he := List.append_cancel_left hab
    exact hnew ((List.cons.inj he).1 ▸ mem_names_of_dir hn)

/-- No two objects of a walk share a path. -/
theorem objects_nodup (t : HostTree) : (objects t.walk).Nodup :=
  whole_nodup t.wellFormed (walkFrom_nodup t.wellFormed)

/-- Names on the way to an object are names the host allows. -/
theorem hostName_of_walkFrom (hw : t.WellFormed) (hhere : ∀ n ∈ here, HostName n)
    (h : o ∈ objects (t.walkFrom here)) : ∀ n ∈ o, HostName n := by
  induction t generalizing here with
  | empty => cases h
  | file g rest ih => exact ih hw.2.2 hhere h
  | dir m sub rest ihsub ih =>
    obtain ⟨hm, _, hsub, hrest⟩ := hw
    have hhere' : ∀ n ∈ here ++ [m], HostName n := by
      intro n hn
      rcases List.mem_append.mp hn with hn | hn
      · exact hhere n hn
      · exact List.mem_singleton.mp hn ▸ hm
    rw [HostDir.walkFrom, objects_cons, objects_append, List.mem_append, List.mem_cons,
      List.mem_map, List.mem_append] at h
    rcases h with (rfl | ⟨f, hf, rfl⟩) | h | h
    · exact hhere'
    · intro n hn
      rcases List.mem_append.mp hn with hn | hn
      · exact hhere' n hn
      · exact List.mem_singleton.mp hn ▸
          ((files_nodup hsub).2 f (mem_sortedFiles.mp hf)).1
    · exact ihsub hsub hhere' h
    · exact ih hrest hhere h

/-- Every component of an object's path is a host name. -/
theorem hostName_of_objects {t : HostTree} (h : o ∈ objects t.walk) : ∀ n ∈ o, HostName n := by
  rw [HostTree.walk, objects_cons, List.mem_append, List.mem_cons, List.mem_map] at h
  rcases h with (rfl | ⟨f, hf, rfl⟩) | h
  · exact nofun
  · intro n hn
    have hn' : n = f.name := by simpa using hn
    rw [hn']
    exact ((files_nodup t.wellFormed).2 f (mem_sortedFiles.mp hf)).1
  · exact hostName_of_walkFrom t.wellFormed (fun n hn => absurd hn List.not_mem_nil) h

/-! ## Parents first -/

/-- A directory comes after the one it is directly below. -/
theorem walkFrom_first {done rest : List (List Str × List HostFile)}
    {w : List Str × List HostFile} (h : t.walkFrom here = done ++ w :: rest) :
    ∃ front name, w.1 = front ++ [name] ∧ (front = here ∨ front ∈ done.map Prod.fst) := by
  induction t generalizing here done rest with
  | empty => simp [HostDir.walkFrom] at h
  | file g tail ih => exact ih h
  | dir m sub tail ihsub ih =>
    rw [HostDir.walkFrom] at h
    cases done with
    | nil =>
      rw [← (List.cons.inj h).1]
      exact ⟨here, m, rfl, Or.inl rfl⟩
    | cons v done =>
      obtain ⟨rfl, hrest⟩ := List.cons.inj h
      rw [List.map_cons]
      rcases List.append_eq_append_iff.mp hrest with ⟨y, rfl, htail⟩ | ⟨y, hsub, htail⟩
      · obtain ⟨front, name, hw, rfl | hfront⟩ := ih htail
        · exact ⟨_, name, hw, Or.inl rfl⟩
        · refine ⟨front, name, hw, Or.inr (List.mem_cons_of_mem _ ?_)⟩
          rw [List.map_append]
          exact List.mem_append_right _ hfront
      · cases y with
        | nil =>
          -- the directory is the first one after those of the subdirectory
          have hfirst : tail.walkFrom here = [] ++ w :: rest := htail.symm
          obtain ⟨front, name, hw, rfl | hfront⟩ := ih hfirst
          · exact ⟨_, name, hw, Or.inl rfl⟩
          · exact absurd hfront List.not_mem_nil
        | cons v y =>
          obtain ⟨rfl, _⟩ := List.cons.inj htail
          obtain ⟨front, name, hw, rfl | hfront⟩ := ihsub hsub
          · exact ⟨_, name, hw, Or.inr List.mem_cons_self⟩
          · exact ⟨front, name, hw, Or.inr (List.mem_cons_of_mem _ hfront)⟩

/-- A walk starts at the top, and every other directory comes after the one it
is directly below. -/
theorem walk_first {t : HostTree} {done rest : List (List Str × List HostFile)}
    {w : List Str × List HostFile} (h : t.walk = done ++ w :: rest) :
    done = [] ∧ w.1 = [] ∨
      ∃ front name, w.1 = front ++ [name] ∧ front ∈ done.map Prod.fst := by
  cases done with
  | nil =>
    rw [HostTree.walk] at h
    rw [← (List.cons.inj h).1]
    exact Or.inl ⟨rfl, rfl⟩
  | cons v done =>
    rw [HostTree.walk] at h
    obtain ⟨rfl, hrest⟩ := List.cons.inj h
    obtain ⟨front, name, hw, rfl | hfront⟩ := walkFrom_first hrest
    · exact Or.inr ⟨[], name, hw, List.mem_cons_self⟩
    · exact Or.inr ⟨front, name, hw, List.mem_cons_of_mem _ hfront⟩

/-- Directories of a walk are distinct. -/
theorem walk_nodup (t : HostTree) : (t.walk.map Prod.fst).Nodup := by
  refine List.Nodup.sublist ?_ (objects_nodup t)
  unfold objects
  induction t.walk with
  | nil => exact List.Sublist.slnil
  | cons w walk ih =>
    rw [List.map_cons, List.flatMap_cons, List.cons_append]
    exact (ih.trans (List.sublist_append_right _ _)).cons_cons _

end Sys16.HostWalk
