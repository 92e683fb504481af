import Xv6.Fs.Layout
import Xv6.Fs.Path

/-!
# Xv6.Mkfs.Basic — mkfs

The program that builds the initial file system (mkfs/mkfs.c). It knows nothing of the
kernel's code: inodes are numbered and blocks are taken by two counters, and `iappend` has
its own direct and indirect blocks. The image is an array of sectors. A file is read in
pieces of any length up to `BSIZE`, as `read` returns them.
-/

namespace Xv6.Mkfs

open Fs

def NINODES : Nat := 200

def nbitmap : Nat := FSSIZE / BPB + 1
def ninodeblocks : Nat := NINODES / IPB + 1

/-- The log's header and its data blocks. -/
def nlog : Nat := LOGBLOCKS + 1

/-- Blocks of metadata: boot, superblock, log, inodes, bitmap. -/
def nmeta : Nat := 2 + nlog + ninodeblocks + nbitmap

def nblocks : Nat := FSSIZE - nmeta

def sb : Superblock where
  magic := FSMAGIC
  size := FSSIZE
  nblocks := nblocks
  ninodes := NINODES
  nlog := nlog
  logstart := 2
  inodestart := 2 + nlog
  bmapstart := 2 + nlog + ninodeblocks

/-- Why mkfs stops: `die`, after a call of the host failed, or an assertion. -/
inductive Fail
  | die | assert
  deriving DecidableEq, Repr

structure St where
  disk : Nat → Block
  freeinode : Nat
  freeblock : Nat

abbrev M := StateT St (Except Fail)

def zeroes : Block := fun _ => 0

/-! ## Sectors and inodes -/

def wsect (sec : Nat) (buf : Block) : M Unit :=
  modify fun s => { s with disk := Function.update s.disk sec buf }

/-- There is nothing to read behind the last sector. -/
def rsect (sec : Nat) : M Block := do
  let s ← get
  if sec < FSSIZE then return s.disk sec else throw .die

def winode (inum : Nat) (d : Dinode) : M Unit := do
  let buf ← rsect (IBLOCK inum sb)
  wsect (IBLOCK inum sb) (putDinode buf (inum % IPB) d)

def rinode (inum : Nat) : M Dinode := do
  let buf ← rsect (IBLOCK inum sb)
  return getDinode buf (inum % IPB)

def ialloc (type : FType) : M Nat := do
  let s ← get
  set { s with freeinode := s.freeinode + 1 }
  winode s.freeinode { Dinode.zero with type, nlink := 1 }
  return s.freeinode

/-- `freeblock++`. -/
def nextBlock : M Nat := do
  let s ← get
  set { s with freeblock := s.freeblock + 1 }
  return s.freeblock

/-- One round of the loop of `balloc`. -/
def setUsed (buf : Block) (i : Nat) : Block := fun j =>
  if j.val = i / 8 then buf j ||| 1#8 <<< (i % 8) else buf j

/-- Mark the first `used` blocks. -/
def balloc (used : Nat) : M Unit := do
  if used < BPB then wsect sb.bmapstart ((List.range used).foldl setUsed zeroes)
  else throw .assert

/-! ## iappend -/

/-- Slot `k` of `din.addrs`, filled if it is empty. -/
def slotBlock (din : Dinode) (k : Nat) : M (Dinode × Nat) := do
  if din.addrs k = 0 then
    let b ← nextBlock
    return ({ din with addrs := Function.update din.addrs k b }, b)
  else return (din, din.addrs k)

/-- The sector of block `fbn` of the file. -/
def blockFor (din : Dinode) (fbn : Nat) : M (Dinode × Nat) := do
  if fbn < NDIRECT then slotBlock din fbn
  else
    let (din, ind) ← slotBlock din NDIRECT
    let indirect ← rsect ind
    if indirect.getWord (fbn - NDIRECT) = 0 then
      let b ← nextBlock
      wsect ind (indirect.setWord (fbn - NDIRECT) (BitVec.ofNat 32 b))
      return (din, b)
    else return (din, (indirect.getWord (fbn - NDIRECT)).toNat)

/-- `bcopy` of `p` to offset `o` of a buffer. -/
def bcopy (buf : Block) (o : Nat) (p : List Byte) : Block := fun j =>
  if o ≤ j.val ∧ j.val < o + p.length then p.getD (j.val - o) 0 else buf j

/-- The loop of `iappend`, with the bytes that are left. -/
def iappend.loop : Nat → List Byte → Dinode → Nat → M (Dinode × Nat)
  | 0, _, din, off => return (din, off)
  | fuel + 1, p, din, off =>
    if p = [] then return (din, off)
    else if off / BSIZE < MAXFILE then do
      let (din, x) ← blockFor din (off / BSIZE)
      let n1 := min p.length ((off / BSIZE + 1) * BSIZE - off)
      let buf ← rsect x
      wsect x (bcopy buf (off - off / BSIZE * BSIZE) (p.take n1))
      iappend.loop fuel (p.drop n1) din (off + n1)
    else throw .assert

def iappend (inum : Nat) (p : List Byte) : M Unit := do
  let din ← rinode inum
  let (din, off) ← iappend.loop p.length p din din.size
  winode inum { din with size := off }

/-! ## main -/

/-- What one `read` returned. -/
structure Chunk where
  bytes : List Byte
  ne : bytes ≠ []
  le : bytes.length ≤ BSIZE

/-- A command line argument, which is a C string, and what `open` and `read` make of it. -/
structure Input where
  arg : List Byte
  noNul : ∀ c ∈ arg, c ≠ 0
  reads : Option (List Chunk)

/-- `"user/"`. -/
def userDir : List Byte := [0x75, 0x73, 0x65, 0x72, 0x2f]

/-- The name without `user/`. -/
def Input.base (f : Input) : List Byte :=
  if f.arg.take 5 = userDir then f.arg.drop 5 else f.arg

/-- The name in the image: a leading `_` is skipped. -/
def Input.shortname (f : Input) : Name :=
  if f.base.head? = some 0x5f then f.base.tail else f.base

/-- The bytes of the file. -/
def Input.data (f : Input) : List Byte := (f.reads.getD []).flatMap Chunk.bytes

/-- The bytes of a directory entry. -/
def direntBytes (inum : Nat) (name : Name) : List Byte :=
  (List.range DESIZE).map (Dirent.encode ⟨inum, name⟩)

/-- One round of the loop over the files. -/
def addFile (f : Input) : M Unit := do
  if 0x2f ∈ f.base then throw .assert
  else
    match f.reads with
    | none => throw .die
    | some chunks =>
      if DIRSIZ < f.shortname.length then throw .assert
      else
        let inum ← ialloc .file
        iappend ROOTINO (direntBytes inum f.shortname)
        forM chunks fun c => iappend inum c.bytes

/-- `main`, for the files named on the command line. -/
def main (files : List Input) : M Unit := do
  modify fun s => { s with freeblock := nmeta }
  forM (List.range FSSIZE) fun i => wsect i zeroes
  wsect 1 sb.encode
  let rootino ← ialloc .dir
  if rootino ≠ ROOTINO then throw .assert
  else
    iappend rootino (direntBytes rootino dot)
    iappend rootino (direntBytes rootino dotdot)
    forM files addFile
    -- fix size of root inode dir
    let din ← rinode rootino
    winode rootino { din with size := (din.size / BSIZE + 1) * BSIZE }
    balloc (← get).freeblock

/-- The counters at the start, and the new image file. -/
def start : St := ⟨fun _ => zeroes, 1, 0⟩

end Xv6.Mkfs
