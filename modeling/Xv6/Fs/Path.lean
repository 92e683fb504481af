import Xv6.Fs.Basic

/-!
# Xv6.Fs.Path — directories, paths and the calls that change names

The upper layers of kernel/fs.c and the name-space calls of kernel/sysfile.c. A
directory is a file of 16-byte entries; a name is its bytes up to the first NUL, at
most `DIRSIZ` of them, which is what `namecmp` compares. A path is the bytes of a C
string without the NUL.
-/

namespace Xv6.Fs

def DIRSIZ : Nat := 14
def ROOTINO : Nat := 1

/-- `sizeof(struct dirent)`. -/
def DESIZE : Nat := 16

abbrev Name := List Byte

structure Dirent where
  inum : Nat
  name : Name
  deriving DecidableEq, Repr

/-- The entry in 16 bytes. -/
def Dirent.decode (bytes : List Byte) : Dirent where
  inum := (bytes.getD 0 0).toNat + 256 * (bytes.getD 1 0).toNat
  name := ((bytes.drop 2).take DIRSIZ).takeWhile fun c => c ≠ 0

/-- Byte `k` of an entry, its name copied by `strncpy`. -/
def Dirent.encode (de : Dirent) (k : Nat) : Byte :=
  if k = 0 then BitVec.ofNat 8 de.inum
  else if k = 1 then BitVec.ofNat 8 (de.inum / 256)
  else de.name.getD (k - 2) 0

/-- `readi` of the entry at `off`, with the panic for a short read. -/
def readDirent (sb : Super) (dp off : Nat) (e : Stop) : F Dirent := do
  match ← readi sb dp (fun _ => true) off DESIZE with
  | none => throw e
  | some bytes => if bytes.length ≠ DESIZE then throw e else return Dirent.decode bytes

def writeDirent (sb : Super) (dp off : Nat) (bytes : Nat → Byte) : F Bool := do
  let r ← writei sb dp (fun k => some (bytes k)) off DESIZE
  return r = some DESIZE

/-! ## Directories -/

def dirlookup.loop (sb : Super) (dp size : Nat) (name : Name) : Nat → Nat → F (Option (Nat × Nat))
  | 0, _ => return none
  | fuel + 1, off =>
    if size ≤ off then return none
    else do
      let de ← readDirent sb dp off .dirlookupRead
      if de.inum ≠ 0 ∧ de.name = name then
        iget sb de.inum
        return some (de.inum, off)
      else dirlookup.loop sb dp size name fuel (off + DESIZE)

/-- The inode an entry names, referenced, and the offset of the entry. -/
def dirlookup (sb : Super) (dp : Nat) (name : Name) : F (Option (Nat × Nat)) := do
  let d := ((← get).inode dp).d
  if d.type ≠ .dir then throw .dirlookupNotDir
  else dirlookup.loop sb dp d.size name (d.size / DESIZE + 1) 0

/-- The loop of `dirlink` for an empty entry. -/
def emptyEntry (sb : Super) (dp size : Nat) : Nat → Nat → F Nat
  | 0, off => return off
  | fuel + 1, off =>
    if size ≤ off then return off
    else do
      let de ← readDirent sb dp off .dirlinkRead
      if de.inum = 0 then return off else emptyEntry sb dp size fuel (off + DESIZE)

/-- `dirlink`: whether the entry was written. -/
def dirlink (sb : Super) (dp : Nat) (name : Name) (inum : Nat) : F Bool := do
  match ← dirlookup sb dp name with
  | some (ip, _) =>
    iput ip
    return false
  | none =>
    let size := ((← get).inode dp).d.size
    let off ← emptyEntry sb dp size (size / DESIZE + 1) 0
    writeDirent sb dp off (Dirent.encode ⟨inum % 2 ^ 16, name⟩)

def isdirempty.loop (sb : Super) (dp size : Nat) : Nat → Nat → F Bool
  | 0, _ => return true
  | fuel + 1, off =>
    if size ≤ off then return true
    else do
      let de ← readDirent sb dp off .isdirempty
      if de.inum ≠ 0 then return false else isdirempty.loop sb dp size fuel (off + DESIZE)

/-- Is the directory empty except for "." and ".."? -/
def isdirempty (sb : Super) (dp : Nat) : F Bool := do
  let size := ((← get).inode dp).d.size
  isdirempty.loop sb dp size (size / DESIZE + 1) (2 * DESIZE)

/-! ## Paths -/

/-- '/' -/
def slash : Byte := 47

/-- "." -/
def dot : Name := [46]

/-- ".." -/
def dotdot : Name := [46, 46]

/-- The next element of a path and the path after it. -/
def skipelem (path : List Byte) : Option (Name × List Byte) :=
  let path := path.dropWhile fun c => c = slash
  if path = [] then none
  else some ((path.takeWhile fun c => c ≠ slash).take DIRSIZ,
    (path.dropWhile fun c => c ≠ slash).dropWhile fun c => c = slash)

def namex.loop (sb : Super) (parent : Bool) : Nat → Nat → List Byte → F (Option (Nat × Name))
  | 0, _, _ => return none
  | fuel + 1, ip, path =>
    match skipelem path with
    | none =>
      if parent then do
        iput ip
        return none
      else return some (ip, [])
    | some (name, rest) => do
      ilock ip
      if ((← get).inode ip).d.type ≠ .dir then
        iunlockput ip
        return none
      else if parent ∧ rest = [] then
        -- stop one level early
        iunlock ip
        return some (ip, name)
      else
        match ← dirlookup sb ip name with
        | none =>
          iunlockput ip
          return none
        | some (next, _) =>
          iunlockput ip
          namex.loop sb parent fuel next rest

/-- The inode a path leads to from `cwd`, referenced; or its parent, with the last name. -/
def namex (sb : Super) (cwd : Nat) (path : List Byte) (parent : Bool) :
    F (Option (Nat × Name)) := do
  if path.head? = some slash then
    iget sb ROOTINO
    namex.loop sb parent (path.length + 1) ROOTINO path
  else
    idup cwd
    namex.loop sb parent (path.length + 1) cwd path

def namei (sb : Super) (cwd : Nat) (path : List Byte) : F (Option Nat) := do
  return (← namex sb cwd path false).map Prod.fst

def nameiparent (sb : Super) (cwd : Nat) (path : List Byte) : F (Option (Nat × Name)) :=
  namex sb cwd path true

/-! ## Calls -/

/-- The entries of a new inode: "." and ".." in a directory, and its own in the parent. -/
def createEntries (sb : Super) (dp ip : Nat) (name : Name) (type : FType) : F Bool := do
  if type = .dir then
    if ← dirlink sb ip dot ip then
      if ← dirlink sb ip dotdot dp then dirlink sb dp name ip
      else return false
    else return false
  else dirlink sb dp name ip

/-- The part of `create` after `ialloc`. -/
def createNew (sb : Super) (dp ip : Nat) (name : Name) (type : FType) (major minor : BitVec 16) :
    F (Option Nat) := do
  ilock ip
  setCopy ip fun d => { d with major := major, minor := minor, nlink := 1 }
  iupdate ip
  if ← createEntries sb dp ip name type then
    if type = .dir then
      -- for ".."
      setCopy dp fun d => { d with nlink := d.nlink + 1 }
      iupdate dp
      iunlockput dp
      return some ip
    else
      iunlockput dp
      return some ip
  else
    setCopy ip fun d => { d with nlink := 0 }
    iupdate ip
    iunlockput ip
    iunlockput dp
    return none

/-- `create`: the inode, referenced and locked. -/
def create (sb : Super) (cwd : Nat) (path : List Byte) (type : FType) (major minor : BitVec 16) :
    F (Option Nat) := do
  match ← nameiparent sb cwd path with
  | none => return none
  | some (dp, name) =>
    ilock dp
    match ← dirlookup sb dp name with
    | some (ip, _) =>
      iunlockput dp
      ilock ip
      let t := ((← get).inode ip).d.type
      if type = .file ∧ (t = .file ∨ t = .device) then return some ip
      else
        iunlockput ip
        return none
    | none =>
      match ← ialloc sb type with
      | none =>
        iunlockput dp
        return none
      | some ip => createNew sb dp ip name type major minor

/-- `bad:` in `sys_link`. -/
def linkBad (ip : Nat) : F Bool := do
  ilock ip
  setCopy ip fun d => { d with nlink := d.nlink - 1 }
  iupdate ip
  iunlockput ip
  return false

def sysLink (sb : Super) (cwd : Nat) (old new : List Byte) : F Bool := do
  match ← namei sb cwd old with
  | none => return false
  | some ip =>
    ilock ip
    if ((← get).inode ip).d.type = .dir then
      iunlockput ip
      return false
    else
      setCopy ip fun d => { d with nlink := d.nlink + 1 }
      iupdate ip
      iunlock ip
      match ← nameiparent sb cwd new with
      | none => linkBad ip
      | some (dp, name) =>
        ilock dp
        if ← dirlink sb dp name ip then
          iunlockput dp
          iput ip
          return true
        else
          iunlockput dp
          linkBad ip

/-- The part of `sys_unlink` that has found something to remove. -/
def unlinkEntry (sb : Super) (dp ip off : Nat) : F Bool := do
  if !(← writeDirent sb dp off fun _ => 0) then throw .unlinkWritei
  else
    if ((← get).inode ip).d.type = .dir then
      setCopy dp fun d => { d with nlink := d.nlink - 1 }
      iupdate dp
    iunlockput dp
    setCopy ip fun d => { d with nlink := d.nlink - 1 }
    iupdate ip
    iunlockput ip
    return true

def sysUnlink (sb : Super) (cwd : Nat) (path : List Byte) : F Bool := do
  match ← nameiparent sb cwd path with
  | none => return false
  | some (dp, name) =>
    ilock dp
    if name = dot ∨ name = dotdot then
      iunlockput dp
      return false
    else
      match ← dirlookup sb dp name with
      | none =>
        iunlockput dp
        return false
      | some (ip, off) =>
        ilock ip
        if ((← get).inode ip).d.nlink.toInt < 1 then throw .unlinkNlink
        else if ((← get).inode ip).d.type = .dir then
          if ← isdirempty sb ip then unlinkEntry sb dp ip off
          else
            iunlockput ip
            iunlockput dp
            return false
        else unlinkEntry sb dp ip off

end Xv6.Fs
