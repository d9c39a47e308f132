import Sys16.HostWalk
import Sys16.Mkdisk
import Sys16.MkfsImage
import Sys16.PyDict

/-!
# The build of `tools/mkfs.py`

`build` and `main`: the host tree is walked, the spec lines are applied, and
then everything is written out. Directories are kept in two dictionaries by
path, one with their inodes and one with their entries. A recursion deeper
than the limit of the interpreter ends the program.
-/

namespace Sys16.MkfsBuild

open PyText PyStruct PyDict HostWalk MkfsImage

/-- A directory entry: an inode number and a name. -/
abbrev Entry := ℕ × Str

/-- The state of a build: the filesystem, and the local variables of `build`. -/
structure Build where
  fs : Fs
  /-- The inodes of the directories. -/
  dirs : Dict Str ℕ
  /-- The entries of the directories. -/
  entries : Dict Str (List Entry)

/-- `d[k]`. -/
def index {α : Type} (d : Dict Str α) (k : Str) : Except Failure α :=
  match d.get? k with
  | some v => .ok v
  | none => .error .keyError

/-- `parts[k]`. -/
def part (parts : List Str) (k : ℕ) : Except Failure Str :=
  match parts[k]? with
  | some w => .ok w
  | none => .error .indexError

/-- The state of `build` before the walk: the root directory. -/
def Build.start (fs : Fs) : Except Failure Build := do
  let (fs, root) ← fs.alloc_inode (Int.lor S_IFDIR 0o755) 0 0
  if root = ROOTINO then
    return {
      fs := fs.modify root fun i => { i with nlink := 2 }
      dirs := .single [sep] root
      entries := .single [sep] [(root, str "."), (root, str "..")] }
  else .error .assertionError

/-- `entries[path].append(e)`. -/
def Build.append (b : Build) (path : Str) (e : Entry) : Except Failure Build := do
  let ents ← index b.entries path
  return { b with entries := b.entries.set path (ents ++ [e]) }

/-! ## Directories -/

/-- `getdir` of a new path, with the inode of its parent. -/
def Build.makedir (b : Build) (path : Str) (parent : ℕ) : Except Failure (Build × ℕ) := do
  let (fs, d) ← b.fs.alloc_inode (Int.lor S_IFDIR 0o755) 0 0
  let fs := fs.modify d fun i => { i with nlink := 2 }
  let dirs := b.dirs.set path d
  let entries := b.entries.set path [(d, str "."), (parent, str "..")]
  let ents ← index entries (parentPath path)
  let name ← lastName path
  let entries := entries.set (parentPath path) (ents ++ [(d, name)])
  let fs := fs.modify parent fun i => { i with nlink := i.nlink + 1 }
  return (⟨fs, dirs, entries⟩, d)

/-- `getdir`, with the depth of recursion that is left. -/
def Build.getdir : ℕ → Build → Str → Except Failure (Build × ℕ)
  | 0, _, _ => .error .recursionError
  | limit + 1, b, path =>
    match b.dirs.get? path with
    | some d => .ok (b, d)
    | none => do
      let (b, parent) ← Build.getdir limit b (parentPath path)
      b.makedir path parent

/-! ## The host tree -/

/-- One pass of the loop over the files of a host directory. -/
def Build.addFile (b : Build) (here : Str) (f : HostFile) : Except Failure Build :=
  if f.islink then .ok b
  else do
    let mode := Int.lor S_IFREG (if f.executable then 0o755 else 0o644)
    let (fs, ino) ← b.fs.alloc_inode mode 0 0
    let fs ← fs.store_data ino f.content
    Build.append { b with fs := fs } here (ino, f.name)

/-- One pass of the loop over the walk. -/
def Build.addDir (limit : ℕ) (b : Build) (w : List Str × List HostFile) :
    Except Failure Build := do
  let (b, _) ← b.getdir limit (imagePath w.1)
  (sortedFiles w.2).foldlM (fun b f => b.addFile (imagePath w.1) f) b

/-- The walk; there is none when the host path is not a directory. -/
def Build.addTree (limit : ℕ) (b : Build) : Option HostTree → Except Failure Build
  | none => .ok b
  | some t => t.walk.foldlM (Build.addDir limit) b

/-! ## Spec lines -/

/-- A `dir` line. -/
def Build.specDir (limit : ℕ) (b : Build) (path : Str) (parts : List Str) :
    Except Failure Build := do
  let (b, _) ← b.getdir limit path
  let mode ← part parts 2 >>= int 8
  let d ← index b.dirs path
  return { b with fs := b.fs.modify d fun i => { i with mode := Int.lor S_IFDIR mode } }

/-- The loop that looks for a link target: the last entry with its name. -/
def linkTarget (target : Str) (ents : List Entry) : Except Failure (Option ℕ) :=
  ents.foldlM (fun tino e => do
    let name ← lastName target
    return if e.2 = name then some e.1 else tino) none

/-- A link to an inode. -/
def Build.link (b : Build) (parent_path name : Str) (tino : ℕ) : Except Failure Build := do
  let b ← b.append parent_path (tino, name)
  match b.fs.inodes tino with
  | some _ => return { b with fs := b.fs.modify tino fun i => { i with nlink := i.nlink + 1 } }
  | none => .error .keyError

/-- A `link` line, once the directory it is in has been made. -/
def Build.specLink (b : Build) (parent_path name : Str) (parts : List Str) :
    Except Failure Build := do
  let target ← part parts 2
  let ents ← index b.entries (parentPath target)
  match ← linkTarget target ents with
  | some tino => b.link parent_path name tino
  | none => .error (.exit (str "link target not found: " ++ target))

/-- A `blk` or `chr` line, once the directory it is in has been made; a line
of any other kind is taken for a `chr` line. -/
def Build.specNode (b : Build) (kind parent_path name : Str) (parts : List Str) :
    Except Failure Build := do
  let mode ← part parts 2 >>= int 8
  let mode := Int.lor mode (if kind = str "blk" then S_IFBLK else S_IFCHR)
  let (fs, ino) ← b.fs.alloc_inode mode 0 0
  let major ← part parts 3 >>= int 10
  let minor ← part parts 4 >>= int 10
  let dev := Int.lor (major <<< 8) minor
  let fs := fs.modify ino fun i => { i with addr := i.addr.set 0 dev }
  Build.append { b with fs := fs } parent_path (ino, name)

/-- The words of a spec line, none for a blank line or a comment. -/
def specWords (line : Str) : List Str := split (strip (uncomment line))

/-- A line of a kind other than `dir`, once the directory it is in has been made. -/
def Build.specEntry (b : Build) (kind parent_path name : Str) (parts : List Str) :
    Except Failure Build :=
  if kind = str "link" then b.specLink parent_path name parts
  else b.specNode kind parent_path name parts

/-- One pass of the loop over the spec lines. -/
def Build.applyLine (limit : ℕ) (b : Build) (line : Str) : Except Failure Build :=
  if strip (uncomment line) = [] then .ok b
  else do
    let parts := specWords line
    let kind ← part parts 0
    let path ← part parts 1
    let name ← lastName path
    if kind = str "dir" then b.specDir limit path parts
    else do
      let (b, _) ← b.getdir limit (parentPath path)
      b.specEntry kind (parentPath path) name parts

/-! ## Writing it out -/

/-- The contents of a directory. -/
def dirBlob (ents : List Entry) : Except Failure Bytes :=
  List.flatten <$> ents.mapM fun e => dirent e.1 e.2

/-- One pass of the loop that stores the directories. -/
def Build.storeDir (b : Build) (fs : Fs) (p : Str × List Entry) : Except Failure Fs := do
  let blob ← dirBlob p.2
  let d ← index b.dirs p.1
  fs.store_data d blob

/-- The end of `build`. -/
def Build.finish (b : Build) : Except Failure Build := do
  let fs ← b.entries.items.foldlM b.storeDir b.fs
  let fs ← fs.write_inodes
  let fs ← fs.build_free_list
  let fs ← fs.write_superblock
  return { b with fs := fs }

/-- `build`, with the result of the walk for the host path and the recursion limit. -/
def build (limit : ℕ) (fs : Fs) (tree : Option HostTree) (spec : List Str) :
    Except Failure Build := do
  let b ← Build.start fs
  let b ← b.addTree limit tree
  let b ← spec.foldlM (Build.applyLine limit) b
  b.finish

/-- The disk header over the start of the image, when it was asked for. -/
def putDisktab (b : Build) (disktab : Bool) : Except Failure Build :=
  if disktab then do
    let header ← Mkdisk.disktab Mkdisk.DEFAULT
    return { b with fs := { b.fs with data := header ++ b.fs.data.drop 92 } }
  else .ok b

/-- The inodes that `main` makes for a block count. -/
def inodeCount (nblocks : ℕ) : ℕ := max 512 ((nblocks / 8 + 15) / 16 * 16)

/-- `main`, from its arguments up to the write of the image: the time of the
build, the block count, the host tree, the spec lines and the `--disktab` flag. -/
def main (limit : ℕ) (now nblocks : ℤ) (tree : Option HostTree) (spec : List Str)
    (disktab : Bool) : Except Failure Build :=
  if nblocks < 0 then .error .valueError
  else do
    let b ← build limit (Fs.init now nblocks.toNat (inodeCount nblocks.toNat)) tree spec
    putDisktab b disktab

end Sys16.MkfsBuild
