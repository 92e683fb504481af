import Mathlib.Algebra.Group.Nat.Defs
import Xv6.Block
import Xv6.Param
import Xv6.Lib.Wp

/-!
# Xv6.Fs.Basic — blocks, inodes and their contents

The lower layers of kernel/fs.c: the block allocator, the inode table, and reading and
writing the contents of an inode. The disk is seen through the buffer cache. The free
map is a bit for each block and the inode blocks are an array of `struct dinode`; all
other blocks are bytes, so an indirect block is 256 words in a block of bytes. An entry
of the inode table is named by the number of the inode it holds.
-/

namespace Xv6.Fs

open Function

def NDIRECT : Nat := 12
def NINDIRECT : Nat := BSIZE / 4
def MAXFILE : Nat := NDIRECT + NINDIRECT

/-- The superblock, of a disk whose data blocks are the last `nblocks` ones. -/
structure Super where
  size : Nat
  nblocks : Nat
  ninodes : Nat
  nblocks_lt : nblocks < size
  size_lt : size < 2 ^ 32
  ninodes_le : ninodes ≤ 2 ^ 16

/-- The first block after the metadata. -/
def Super.datastart (sb : Super) : Nat := sb.size - sb.nblocks

/-- `type`: 0 for a free inode, `T_DIR`, `T_FILE` and `T_DEVICE`. -/
inductive FType
  | none | dir | file | device
  deriving DecidableEq, Repr

structure Dinode where
  type : FType
  major : BitVec 16
  minor : BitVec 16
  nlink : BitVec 16
  size : Nat
  addrs : Nat → Nat

/-- `memset(dip, 0, sizeof(*dip))`. -/
def Dinode.zero : Dinode := ⟨.none, 0, 0, 0, 0, fun _ => 0⟩

/-- An entry of the inode table: its reference count, whether the copy `d` has been read
from disk, and its sleep lock. -/
structure Inode where
  ref : Nat
  valid : Bool
  locked : Bool
  d : Dinode

@[ext] structure St where
  bitmap : Nat → Bool
  block : Nat → Block
  dinode : Nat → Dinode
  inode : Nat → Inode

/-- Why an operation does not return: a panic of the kernel, or a lock that is taken. -/
inductive Stop
  | freeingFree | noInodes | ilock | noType | iunlock | bmapRange
  | dirlookupNotDir | dirlookupRead | dirlinkRead | isdirempty | unlinkNlink | unlinkWritei
  | asleep | tooBig
  deriving DecidableEq, Repr

abbrev F := StateT St (Except Stop)

def setInode (i : Nat) (f : Inode → Inode) : F Unit :=
  modify fun s => { s with inode := update s.inode i (f (s.inode i)) }

def setCopy (i : Nat) (f : Dinode → Dinode) : F Unit :=
  setInode i fun ip => { ip with d := f ip.d }

def setBlock (b : Nat) (f : Block → Block) : F Unit :=
  modify fun s => { s with block := update s.block b (f (s.block b)) }

def setBit (b : Nat) (v : Bool) : F Unit :=
  modify fun s => { s with bitmap := update s.bitmap b v }

/-! ## Blocks -/

def bzero (b : Nat) : F Unit := setBlock b fun _ _ => 0

def balloc (sb : Super) : F Nat := do
  let s ← get
  match (List.range sb.size).find? fun b => !s.bitmap b with
  | none => return 0
  | some b =>
    setBit b true
    bzero b
    return b

def bfree (b : Nat) : F Unit := do
  let s ← get
  if s.bitmap b = false then throw .freeingFree
  else setBit b false

/-! ## Inodes -/

/-- Copy a modified in-memory inode to disk. -/
def iupdate (i : Nat) : F Unit :=
  modify fun s => { s with dinode := update s.dinode i (s.inode i).d }

/-- The number of table entries in use. -/
def St.used (s : St) (sb : Super) : Nat :=
  (List.range sb.ninodes).countP fun i => 0 < (s.inode i).ref

def iget (sb : Super) (inum : Nat) : F Unit := do
  let s ← get
  if 0 < (s.inode inum).ref then setInode inum fun ip => { ip with ref := ip.ref + 1 }
  else if NINODE ≤ s.used sb then throw .noInodes
  else setInode inum fun ip => { ip with ref := 1, valid := false }

def idup (i : Nat) : F Unit := setInode i fun ip => { ip with ref := ip.ref + 1 }

def ialloc (sb : Super) (type : FType) : F (Option Nat) := do
  let s ← get
  match (List.range sb.ninodes).find? fun i => 1 ≤ i ∧ (s.dinode i).type = .none with
  | none => return none
  | some i =>
    modify fun s => { s with dinode := update s.dinode i { Dinode.zero with type } }
    iget sb i
    return some i

def ilock (i : Nat) : F Unit := do
  let s ← get
  if (s.inode i).ref < 1 then throw .ilock
  else if (s.inode i).locked then throw .asleep
  else if (s.inode i).valid then setInode i fun ip => { ip with locked := true }
  else
    setInode i fun ip => { ip with locked := true, valid := true, d := s.dinode i }
    if (s.dinode i).type = .none then throw .noType

def iunlock (i : Nat) : F Unit := do
  let s ← get
  if (s.inode i).locked = false ∨ (s.inode i).ref < 1 then throw .iunlock
  else setInode i fun ip => { ip with locked := false }

/-! ## Inode content -/

/-- Slot `k` of `ip->addrs`, allocated if it is empty. -/
def bmapAddr (sb : Super) (i k : Nat) : F Nat := do
  let s ← get
  if (s.inode i).d.addrs k = 0 then
    let addr ← balloc sb
    if addr = 0 then return 0
    else
      setCopy i fun d => { d with addrs := update d.addrs k addr }
      return addr
  else return (s.inode i).d.addrs k

def bmap (sb : Super) (i bn : Nat) : F Nat := do
  if bn < NDIRECT then bmapAddr sb i bn
  else if bn - NDIRECT < NINDIRECT then
    let ind ← bmapAddr sb i NDIRECT
    if ind = 0 then return 0
    else
      let s ← get
      if (s.block ind).getWord (bn - NDIRECT) = 0 then
        let addr ← balloc sb
        if addr = 0 then return 0
        else
          setBlock ind fun a => a.setWord (bn - NDIRECT) (BitVec.ofNat 32 addr)
          return addr
      else return ((s.block ind).getWord (bn - NDIRECT)).toNat
  else throw .bmapRange

/-- The loop of `itrunc` over the direct blocks. -/
def itruncDirect (i : Nat) : F Unit :=
  forM (List.range NDIRECT) fun k => do
    let s ← get
    if (s.inode i).d.addrs k ≠ 0 then
      bfree ((s.inode i).d.addrs k)
      setCopy i fun d => { d with addrs := update d.addrs k 0 }

/-- The loop of `itrunc` over the entries of the indirect block `ind`. -/
def itruncIndirect (ind : Nat) : F Unit :=
  forM (List.range NINDIRECT) fun j => do
    let s ← get
    if (s.block ind).getWord j ≠ 0 then bfree ((s.block ind).getWord j).toNat

def itrunc (i : Nat) : F Unit := do
  itruncDirect i
  let s ← get
  if (s.inode i).d.addrs NDIRECT ≠ 0 then
    itruncIndirect ((s.inode i).d.addrs NDIRECT)
    bfree ((s.inode i).d.addrs NDIRECT)
    setCopy i fun d => { d with addrs := update d.addrs NDIRECT 0 }
  setCopy i fun d => { d with size := 0 }
  iupdate i

/-- What `iput` does to an inode without links when its last reference goes. -/
def ifree (i : Nat) : F Unit := do
  itrunc i
  setCopy i fun d => { d with type := .none }
  iupdate i
  setInode i fun ip => { ip with valid := false, locked := false }

def dropRef (i : Nat) : F Unit := setInode i fun ip => { ip with ref := ip.ref - 1 }

/-- The first part of `iput`: whether the inode is to be freed. It is locked for that, and
keeps the reference until it has been freed. -/
def iputBegin (i : Nat) : F Bool := do
  let s ← get
  if (s.inode i).ref = 1 ∧ (s.inode i).valid ∧ (s.inode i).d.nlink = 0 then
    if (s.inode i).locked then throw .asleep
    else
      setInode i fun ip => { ip with locked := true }
      return true
  else
    dropRef i
    return false

def iput (i : Nat) : F Unit := do
  if ← iputBegin i then
    ifree i
    dropRef i

def iunlockput (i : Nat) : F Unit := do
  iunlock i
  iput i

abbrev Byte := BitVec 8

/-- A `uint`. -/
def u32 (x : Nat) : Nat := x % 2 ^ 32

/-- The bytes of one round of `readi`. -/
def Block.slice (b : Block) (o m : Nat) : List Byte := (List.range m).map fun k => b.byte (o + k)

/-- The loop of `readi`. Byte `k` of the destination can be written if `dst k`. -/
def readi.loop (sb : Super) (i : Nat) (dst : Nat → Bool) (n : Nat) :
    Nat → Nat → Nat → List Byte → F (Option (List Byte))
  | 0, _, _, bytes => return some bytes
  | fuel + 1, tot, off, bytes =>
    if n ≤ tot then return some bytes
    else do
      let addr ← bmap sb i (off / BSIZE)
      if addr = 0 then return some bytes
      else
        let s ← get
        let m := min (n - tot) (BSIZE - off % BSIZE)
        if (List.range m).all fun k => dst (tot + k) then
          readi.loop sb i dst n fuel (tot + m) (off + m)
            (bytes ++ Block.slice (s.block addr) (off % BSIZE) m)
        else return none

/-- `readi`: the bytes that were copied out, or `none` if a copy failed. -/
def readi (sb : Super) (i : Nat) (dst : Nat → Bool) (off n : Nat) : F (Option (List Byte)) := do
  let s ← get
  let size := (s.inode i).d.size
  if size < off ∨ u32 (off + n) < off then return some []
  else
    let n := if size < u32 (off + n) then size - off else n
    readi.loop sb i dst n n 0 off []

/-- How many of the `m` bytes from `tot` can be read. -/
def readable (src : Nat → Option Byte) (tot m : Nat) : Nat :=
  ((List.range m).takeWhile fun k => (src (tot + k)).isSome).length

/-- `either_copyin` into a block: a copy that fails has written the bytes before the first
one it could not read. -/
def Block.fill (b : Block) (o tot m : Nat) (src : Nat → Option Byte) : Block := fun j =>
  if o ≤ j.val ∧ j.val < o + readable src tot m then (src (tot + (j.val - o))).getD 0 else b j

/-- The loop of `writei`, with the offset it has come to. -/
def writei.loop (sb : Super) (i : Nat) (src : Nat → Option Byte) (n : Nat) :
    Nat → Nat → Nat → F (Nat × Nat)
  | 0, tot, off => return (tot, off)
  | fuel + 1, tot, off =>
    if n ≤ tot then return (tot, off)
    else do
      let addr ← bmap sb i (off / BSIZE)
      if addr = 0 then return (tot, off)
      else
        let m := min (n - tot) (BSIZE - off % BSIZE)
        setBlock addr fun b => Block.fill b (off % BSIZE) tot m src
        if readable src tot m < m then return (tot, off)
        else writei.loop sb i src n fuel (tot + m) (off + m)

/-- `writei`: the number of bytes written, or `none` for a -1. -/
def writei (sb : Super) (i : Nat) (src : Nat → Option Byte) (off n : Nat) : F (Option Nat) := do
  let s ← get
  if (s.inode i).d.size < off ∨ u32 (off + n) < off then return none
  else if MAXFILE * BSIZE < u32 (off + n) then return none
  else
    let r ← writei.loop sb i src n n 0 off
    setCopy i fun d => { d with size := if d.size < r.2 then r.2 else d.size }
    iupdate i
    return some r.1

end Xv6.Fs
