import Sys16.PyStruct

/-!
# The image writer of `tools/mkfs.py`

The classes `Inode` and `Fs`, each method under its source name. The image is
a byte string; an `Inode` object is found by its number, under which `Fs`
keeps it. A method that can end the program returns its failure.
-/

namespace Sys16.MkfsImage

open ByteStore PyText PyStruct

def BSIZE : ℕ := 1024
def INOPB : ℕ := 16
def NICFREE : ℕ := 50
def NICINOD : ℕ := 100
def SUPERBOFF : ℕ := 512
def ROOTINO : ℕ := 2
def FsMAGIC : ℤ := 0xfd187e20
def Fs2b : ℤ := 2
def DIRSIZ : ℕ := 14
def S_IFDIR : ℤ := 0o040000
def S_IFCHR : ℤ := 0o020000
def S_IFBLK : ℤ := 0o060000
def S_IFREG : ℤ := 0o100000
/-- Ten direct addresses, single, double and triple indirect. -/
def NADDR : ℕ := 13
def NINDIR : ℕ := BSIZE / 4

/-- `b''.join(struct.pack('<I', x) for x in words)`. -/
def packWords (words : List ℕ) : Except Failure Bytes :=
  List.flatten <$> words.mapM fun x : ℕ => fmtI.pack x

/-! ## Inodes -/

/-- `class Inode`, without its number. -/
structure Inode where
  mode : ℤ
  nlink : ℕ
  uid : ℕ
  gid : ℕ
  size : ℕ
  addr : List ℤ
  deriving DecidableEq, Repr

/-- `Inode.__init__`. -/
def Inode.new (mode : ℤ) (uid gid : ℕ) : Inode := ⟨mode, 1, uid, gid, 0, List.replicate NADDR 0⟩

/-- The state of a filesystem being built. -/
structure Fs where
  nblocks : ℕ
  /-- Blocks of the i-list. -/
  iblocks : ℕ
  /-- The first block past the i-list. -/
  first_data : ℕ
  ninodes : ℕ
  /-- The image. -/
  data : Bytes
  next_block : ℕ
  inodes : ℕ → Option Inode
  next_ino : ℕ
  /-- The time stamped on everything. -/
  now : ℤ
  /-- Entries of `free` in use. -/
  nfree : ℕ
  free : List ℕ
  tfree : ℕ
  /-- Not in the source: the calls of `store_data` so far, oldest first. -/
  stored : List (ℕ × Bytes)

/-- `Fs.__init__`, with the time of the build. -/
def Fs.init (now : ℤ) (nblocks ninodes : ℕ) : Fs where
  nblocks := nblocks
  iblocks := (ninodes + INOPB - 1) / INOPB
  first_data := 2 + (ninodes + INOPB - 1) / INOPB
  ninodes := (ninodes + INOPB - 1) / INOPB * INOPB
  data := List.replicate (nblocks * BSIZE) 0
  next_block := 2 + (ninodes + INOPB - 1) / INOPB
  inodes := fun _ => none
  next_ino := 2
  now := now
  nfree := 0
  free := []
  tfree := 0
  stored := []

/-- An assignment to fields of the inode with a number. -/
def Fs.modify (fs : Fs) (n : ℕ) (f : Inode → Inode) : Fs :=
  { fs with inodes := Function.update fs.inodes n ((fs.inodes n).map f) }

/-! ## Blocks -/

/-- `Fs.put`. -/
def Fs.put (fs : Fs) (blk : ℕ) (buf : Bytes) : Except Failure Fs :=
  if buf.length ≤ BSIZE then .ok { fs with data := setSlice fs.data (blk * BSIZE) buf }
  else .error .assertionError

/-- `Fs.alloc_block`. -/
def Fs.alloc_block (fs : Fs) : Except Failure (Fs × ℕ) :=
  if fs.nblocks ≤ fs.next_block then .error (.exit (str "image full: raise the block count"))
  else .ok ({ fs with next_block := fs.next_block + 1 }, fs.next_block)

/-- `Fs.alloc_inode`. -/
def Fs.alloc_inode (fs : Fs) (mode : ℤ) (uid gid : ℕ) : Except Failure (Fs × ℕ) :=
  if fs.ninodes ≤ fs.next_ino then .error (.exit (str "out of inodes"))
  else .ok ({ fs with
    next_ino := fs.next_ino + 1
    inodes := Function.update fs.inodes fs.next_ino (some (.new mode uid gid)) }, fs.next_ino)

/-- The body of the data loop: allocate a block and put a buffer there. -/
def Fs.putNew (fs : Fs) (buf : Bytes) : Except Failure (Fs × ℕ) := do
  let (fs, b) ← fs.alloc_block
  let fs ← fs.put b buf
  return (fs, b)

/-- The data loop over the chunks of a file, with the list `blocks`. -/
def Fs.putAll (fs : Fs) : List Bytes → Except Failure (Fs × List ℕ)
  | [] => .ok (fs, [])
  | buf :: bufs => do
    let (fs, b) ← fs.putNew buf
    let (fs, bs) ← fs.putAll bufs
    return (fs, b :: bs)

/-- An indirect block with the given addresses. -/
def Fs.putWords (fs : Fs) (words : List ℕ) : Except Failure (Fs × ℕ) := do
  let (fs, b) ← fs.alloc_block
  let buf ← packWords words
  let fs ← fs.put b buf
  return (fs, b)

/-- The loop of the double-indirect part, with the list `outer`. -/
def Fs.putOuter (fs : Fs) : List (List ℕ) → List ℕ → Except Failure (Fs × List ℕ)
  | [], outer => .ok (fs, outer)
  | chunk :: rest, outer => do
    let (fs, b) ← fs.putWords chunk
    let outer := outer ++ [b]
    if NINDIR < outer.length then
      .error (.exit (str "file needs triple indirection; not implemented"))
    else fs.putOuter rest outer

/-- `for i, b in enumerate(blocks): addr[i] = b`. -/
def setAddrs (addr : List ℤ) (blocks : List ℕ) : List ℤ :=
  blocks.map (fun b : ℕ => (b : ℤ)) ++ addr.drop blocks.length

/-- `Fs.store_data` from the double-indirect part on. -/
def Fs.store_double (fs : Fs) (ino : ℕ) (rest : List ℕ) : Except Failure Fs := do
  let (fs, outer) ← fs.putOuter (chunks NINDIR rest) []
  let (fs, db) ← fs.putWords outer
  return fs.modify ino fun i => { i with addr := i.addr.set 11 db }

/-- `Fs.store_data` from the single-indirect part on. -/
def Fs.store_single (fs : Fs) (ino : ℕ) (rest : List ℕ) : Except Failure Fs := do
  let (fs, ib) ← fs.putWords (rest.take NINDIR)
  let fs := fs.modify ino fun i => { i with addr := i.addr.set 10 ib }
  if rest.drop NINDIR = [] then return fs
  else fs.store_double ino (rest.drop NINDIR)

/-- `Fs.store_data`. -/
def Fs.store_data (fs : Fs) (ino : ℕ) (content : Bytes) : Except Failure Fs := do
  let fs := { fs with stored := fs.stored ++ [(ino, content)] }
  let fs := fs.modify ino fun i => { i with size := content.length }
  let (fs, blocks) ← fs.putAll (chunks BSIZE content)
  let fs := fs.modify ino fun i => { i with addr := setAddrs i.addr (blocks.take 10) }
  if blocks.drop 10 = [] then return fs
  else fs.store_single ino (blocks.drop 10)

/-! ## The i-list -/

/-- `a & 0xff`, as a byte. -/
def lowByte (a : ℤ) : UInt8 := UInt8.ofNat (Int.land a 0xff).toNat

/-- The forty address bytes of an inode. -/
def packAddr (addr : List ℤ) : Bytes :=
  pad 40 (addr.flatMap fun a => [lowByte a, lowByte (a >>> 8), lowByte (a >>> 16)])

/-- `Fs.pack_inode`. -/
def Fs.pack_inode (fs : Fs) (ino : Inode) : Except Failure Bytes := do
  let mode ← fmtH.pack ino.mode
  let nlink ← fmth.pack ino.nlink
  let uid ← fmtH.pack ino.uid
  let gid ← fmtH.pack ino.gid
  let size ← fmtI.pack ino.size
  let now ← fmtI.pack fs.now
  return mode ++ nlink ++ uid ++ gid ++ size ++ packAddr ino.addr ++ now ++ now ++ now

/-- Where and what `write_inodes` writes for one number. -/
def Fs.inodeWrite (fs : Fs) (n : ℕ) : Except Failure (ℕ × Bytes) := do
  let blob ← match fs.inodes n with
    | some ino => fs.pack_inode ino
    | none => .ok (List.replicate 64 0)
  return (2 * BSIZE + (n - 1) * 64, blob)

/-- `Fs.write_inodes`. -/
def Fs.write_inodes (fs : Fs) : Except Failure Fs := do
  let ws ← (List.range' 1 fs.ninodes).mapM fs.inodeWrite
  return { fs with data := writeAll fs.data ws }

/-- `Fs.dirent`. -/
def dirent (num : ℕ) (name : Str) : Except Failure Bytes := do
  let nm ← encodeLatin1 name
  if DIRSIZ < nm.length then .error (.exit (str "name too long: " ++ name))
  else
    let n ← fmtH.pack num
    return n ++ pad DIRSIZ nm

/-! ## The free list and the superblock -/

/-- The full stack goes into the block that is being freed. -/
def Fs.spill (fs : Fs) (bno : ℕ) : Except Failure Fs :=
  if fs.nfree = NICFREE then do
    let count ← fmti.pack fs.nfree
    let words ← packWords fs.free
    let fs ← fs.put bno (pad BSIZE (count ++ words))
    return { fs with nfree := 0 }
  else .ok fs

/-- `bfree` of `Fs.build_free_list`. -/
def Fs.bfree (fs : Fs) (bno : ℕ) : Except Failure Fs := do
  let fs ← fs.spill bno
  return { fs with free := fs.free.set fs.nfree bno, nfree := fs.nfree + 1 }

/-- The loop of `Fs.build_free_list` over the blocks it frees, highest first. -/
def Fs.bfreeAll (fs : Fs) : List ℕ → Except Failure Fs
  | [] => .ok fs
  | b :: bs => do
    let fs ← fs.bfree b
    Fs.bfreeAll { fs with tfree := fs.tfree + 1 } bs

/-- `Fs.build_free_list`. -/
def Fs.build_free_list (fs : Fs) : Except Failure Fs := do
  let fs := { fs with nfree := 0, free := List.replicate NICFREE 0, tfree := 0 }
  let fs ← fs.bfree 0
  fs.bfreeAll (List.range' fs.next_block (fs.nblocks - fs.next_block)).reverse

/-- `free_ino` of `Fs.write_superblock`. -/
def Fs.free_ino (fs : Fs) : List ℕ :=
  (List.range' fs.next_ino (fs.ninodes + 1 - fs.next_ino)).take NICINOD

/-- One `struct.pack_into`: an offset, a format and a value. -/
abbrev Field := ℕ × Format × ℤ

/-- The integers of the superblock, in the order they are packed. -/
def Fs.superFields (fs : Fs) : List Field :=
  ([(0, fmtH, fs.iblocks + 2), (4, fmtI, fs.nblocks), (8, fmth, fs.nfree)] : List Field) ++
    (fs.free.mapIdx fun k (b : ℕ) => ((12 + k * 4, fmtI, b) : Field)) ++
    ([(212, fmth, fs.free_ino.length)] : List Field) ++
    (fs.free_ino.mapIdx fun k (n : ℕ) => ((214 + k * 2, fmtH, n) : Field)) ++
    ([(420, fmtI, fs.now), (432, fmtI, fs.tfree), (436, fmtH, fs.ninodes - fs.next_ino + 1)] : List Field)

/-- A field as a write into the superblock. -/
def packField (f : Field) : Except Failure (ℕ × Bytes) := (f.1, ·) <$> f.2.1.pack f.2.2

/-- `Fs.write_superblock`. -/
def Fs.write_superblock (fs : Fs) : Except Failure Fs := do
  let ws ← fs.superFields.mapM packField
  let magic ← fmtI.pack FsMAGIC
  let type ← fmtI.pack Fs2b
  let fname ← encodeLatin1 (str "root")
  let fpack ← encodeLatin1 (str "genix")
  let sb := writeAll (List.replicate 512 0)
    (ws ++ [(438, pad 6 fname), (444, pad 6 fpack), (504, magic), (508, type)])
  return { fs with data := setSlice fs.data SUPERBOFF sb }

end Sys16.MkfsImage
