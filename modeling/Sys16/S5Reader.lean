import Sys16.PyStruct

/-!
# The image reader of `tools/s5fs.py`

The methods of class `S5` over the bytes of an image: an inode by its number,
the bytes of a file through its addresses, and the entries of a directory.
-/

namespace Sys16.S5Reader

open ByteStore LittleEndian PyText PyStruct

def BS : ℕ := 1024
def SUPERBOFF : ℕ := 512

/-- `S5.__init__`: `isize` and `fsize` of the superblock. -/
def sizes (d : Bytes) : Except Failure (ℤ × ℤ) := do
  let isize ← fmtH.unpack d SUPERBOFF
  let fsize ← fmtI.unpack d (SUPERBOFF + 4)
  return (isize, fsize)

/-- The result of `S5.inode`. -/
structure DiskInode where
  mode : ℤ
  nlink : ℤ
  uid : ℤ
  gid : ℤ
  size : ℤ
  /-- The thirteen addresses. -/
  blk : List ℕ
  deriving DecidableEq, Repr

/-- The three bytes of an address. -/
def address (addr : Bytes) (i : ℕ) : Except Failure ℕ :=
  match addr[i]?, addr[i + 1]?, addr[i + 2]? with
  | some a, some b, some c => .ok (a.toNat ||| b.toNat <<< 8 ||| c.toNat <<< 16)
  | _, _, _ => .error .indexError

/-- `S5.inode`. -/
def inode (d : Bytes) (ino : ℕ) : Except Failure DiskInode := do
  let e := slice d (2 * BS + ino * 64 - 64) 64
  let mode ← fmtH.unpack e 0
  let nlink ← fmth.unpack e 2
  let uid ← fmtH.unpack e 4
  let gid ← fmtH.unpack e 6
  let size ← fmtI.unpack e 8
  let blk ← (List.range 13).mapM fun k => address (slice e 12 39) (k * 3)
  return { mode, nlink, uid, gid, size, blk }

/-- `S5.blk`. -/
def blk (d : Bytes) (n : ℕ) : Bytes :=
  if n = 0 then List.replicate BS 0 else slice d (n * BS) BS

/-- `S5.ind`. -/
def ind (d : Bytes) (n : ℕ) : Except Failure (List ℕ) :=
  (List.range (BS / 4)).mapM fun k => Int.toNat <$> fmtI.unpack (blk d n) (k * 4)

/-- The bytes of some blocks. -/
def blocks (d : Bytes) (ns : List ℕ) : Bytes := ns.flatMap (blk d)

/-- The part of `S5.data` under the single-indirect address. -/
def single (d : Bytes) (n : ℕ) : Except Failure Bytes :=
  if n = 0 then .ok [] else blocks d <$> ind d n

/-- The loop of `S5.data` over the double-indirect block; it ends at a zero. -/
def under (d : Bytes) : List ℕ → Except Failure Bytes
  | [] => .ok []
  | m :: ms =>
    if m = 0 then .ok []
    else do
      let ns ← ind d m
      let rest ← under d ms
      return blocks d ns ++ rest

/-- The part of `S5.data` under the double-indirect address. -/
def double (d : Bytes) (n : ℕ) : Except Failure Bytes :=
  if n = 0 then .ok [] else ind d n >>= under d

/-- `S5.data`. -/
def data (d : Bytes) (i : DiskInode) : Except Failure Bytes := do
  let s ← single d (i.blk.getD 10 0)
  let dd ← double d (i.blk.getD 11 0)
  return (blocks d (i.blk.take 10) ++ s ++ dd).take i.size.toNat

/-- One directory entry: its number and its name up to the first zero byte. -/
def entryAt (d : Bytes) (o : ℕ) : Except Failure (ℕ × Str) :=
  if o + 16 ≤ d.length then do
    let n ← fmtH.unpack d o
    return (n.toNat, decodeLatin1 ((slice d (o + 2) 14).takeWhile (· ≠ 0)))
  else .error .structError

/-- `S5.readdir`. -/
def readdir (d : Bytes) (ino : ℕ) : Except Failure (List (ℕ × Str)) := do
  let i ← inode d ino
  let b ← data d i
  let ents ← (List.range (chunkCount 16 b.length)).mapM fun k => entryAt b (k * 16)
  return ents.filter fun e => e.1 ≠ 0

end Sys16.S5Reader
