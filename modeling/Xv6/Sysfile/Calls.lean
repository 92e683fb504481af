import Xv6.Sysfile.Basic
import Xv6.Vm.Exec

/-!
# Xv6.Sysfile.Calls — the system calls that take and drop references

kernel/sysfile.c, the paths of kernel/fs.c, `pipealloc`, `kfork`, `kexit` and `kexec`, as
programs of atomic actions: the system calls of all processes are interleaved. One action is
a section under a spinlock, or an operation on an inode that the process has locked. What a
process does to its own slots, or to a file or a page that nobody else can reach, is part of
the action before or after it; so `fileclose(f); p->ofile[fd] = 0` and `p->ofile[fd] = 0;
fileclose(f)` are the same here.

A path or another argument that cannot be fetched is `none`. The calls return whether they
have succeeded.
-/

namespace Xv6.Sysfile

open Lib Fs

abbrev Sys (n : Nat) := Prog (St n) Nat Halt

variable {n : Nat}

/-- An action of the file system. -/
def fs {α : Type} (m : F α) : Sys n α := .atomic (onFs m)

/-- The copy of an inode that the process has locked. -/
def copyOf (ip : Nat) : F Dinode := do return ((← get).inode ip).d

/-- Whether there is memory, or the user's memory can be accessed. -/
def succeeds : Sys n Bool := .choose fun w => return w ≠ 0

/-- `iput`, which releases `itable.lock` to free the inode. -/
def iput (ip : Nat) : Sys n Unit := do
  if ← fs (iputBegin ip) then
    fs (ifree ip)
    fs (dropRef ip)

def iunlockput (ip : Nat) : Sys n Unit := do
  fs (iunlock ip)
  iput ip

def fileclose (f : Fin NFILE) : Sys n Unit := do
  match ← .atomic (dropFile f) with
  | .none => return
  | .pipe pi writable => .atomic (pipeclose pi writable)
  | .inode ip | .device ip _ => iput ip

/-! ## Paths -/

def namex.loop (sb : Super) (parent : Bool) : Nat → Nat → List Byte → Sys n (Option (Nat × Name))
  | 0, _, _ => return none
  | fuel + 1, ip, path =>
    match skipelem path with
    | none =>
      if parent then do
        iput ip
        return none
      else return some (ip, [])
    | some (name, rest) => do
      fs (ilock ip)
      if (← fs (copyOf ip)).type ≠ .dir then
        iunlockput ip
        return none
      else if parent ∧ rest = [] then
        fs (iunlock ip)
        return some (ip, name)
      else
        match ← fs (dirlookup sb ip name) with
        | none =>
          iunlockput ip
          return none
        | some (next, _) =>
          iunlockput ip
          namex.loop sb parent fuel next rest

def namex (sb : Super) (p : Fin n) (path : List Byte) (parent : Bool) :
    Sys n (Option (Nat × Name)) := do
  if path.head? = some slash then
    fs (iget sb ROOTINO)
    namex.loop sb parent (path.length + 1) ROOTINO path
  else
    let ip ← .atomic (dupCwd p)
    namex.loop sb parent (path.length + 1) ip path

def namei (sb : Super) (p : Fin n) (path : List Byte) : Sys n (Option Nat) := do
  return (← namex sb p path false).map Prod.fst

def nameiparent (sb : Super) (p : Fin n) (path : List Byte) : Sys n (Option (Nat × Name)) :=
  namex sb p path true

/-! ## `create`, `link` and `unlink` -/

def createEntries (sb : Super) (dp ip : Nat) (name : Name) (type : FType) : Sys n Bool := do
  if type = .dir then
    if ← fs (dirlink sb ip dot ip) then
      if ← fs (dirlink sb ip dotdot dp) then fs (dirlink sb dp name ip)
      else return false
    else return false
  else fs (dirlink sb dp name ip)

def createNew (sb : Super) (dp ip : Nat) (name : Name) (type : FType) (major minor : BitVec 16) :
    Sys n (Option Nat) := do
  fs (ilock ip)
  fs (setCopy ip fun d => { d with major := major, minor := minor, nlink := 1 })
  fs (iupdate ip)
  if ← createEntries sb dp ip name type then
    if type = .dir then
      fs (setCopy dp fun d => { d with nlink := d.nlink + 1 })
      fs (iupdate dp)
      iunlockput dp
      return some ip
    else
      iunlockput dp
      return some ip
  else
    fs (setCopy ip fun d => { d with nlink := 0 })
    fs (iupdate ip)
    iunlockput ip
    iunlockput dp
    return none

/-- `create`: the inode, referenced and locked. -/
def create (sb : Super) (p : Fin n) (path : List Byte) (type : FType) (major minor : BitVec 16) :
    Sys n (Option Nat) := do
  match ← nameiparent sb p path with
  | none => return none
  | some (dp, name) =>
    fs (ilock dp)
    match ← fs (dirlookup sb dp name) with
    | some (ip, _) =>
      iunlockput dp
      fs (ilock ip)
      let t := (← fs (copyOf ip)).type
      if type = .file ∧ (t = .file ∨ t = .device) then return some ip
      else
        iunlockput ip
        return none
    | none =>
      match ← fs (ialloc sb type) with
      | none =>
        iunlockput dp
        return none
      | some ip => createNew sb dp ip name type major minor

/-- `bad:` in `sys_link`. -/
def linkBad (ip : Nat) : Sys n Bool := do
  fs (ilock ip)
  fs (setCopy ip fun d => { d with nlink := d.nlink - 1 })
  fs (iupdate ip)
  iunlockput ip
  return false

def sysLink (sb : Super) (p : Fin n) (old new : List Byte) : Sys n Bool := do
  match ← namei sb p old with
  | none => return false
  | some ip =>
    fs (ilock ip)
    if (← fs (copyOf ip)).type = .dir then
      iunlockput ip
      return false
    else
      fs (setCopy ip fun d => { d with nlink := d.nlink + 1 })
      fs (iupdate ip)
      fs (iunlock ip)
      match ← nameiparent sb p new with
      | none => linkBad ip
      | some (dp, name) =>
        fs (ilock dp)
        if ← fs (dirlink sb dp name ip) then
          iunlockput dp
          iput ip
          return true
        else
          iunlockput dp
          linkBad ip

/-- The part of `sys_unlink` that has found something to remove. -/
def unlinkEntry (sb : Super) (dp ip off : Nat) : Sys n Bool := do
  if !(← fs (writeDirent sb dp off fun _ => 0)) then fs (throw .unlinkWritei)
  else
    if (← fs (copyOf ip)).type = .dir then
      fs (setCopy dp fun d => { d with nlink := d.nlink - 1 })
      fs (iupdate dp)
    iunlockput dp
    fs (setCopy ip fun d => { d with nlink := d.nlink - 1 })
    fs (iupdate ip)
    iunlockput ip
    return true

def sysUnlink (sb : Super) (p : Fin n) (path : List Byte) : Sys n Bool := do
  match ← nameiparent sb p path with
  | none => return false
  | some (dp, name) =>
    fs (ilock dp)
    if name = dot ∨ name = dotdot then
      iunlockput dp
      return false
    else
      match ← fs (dirlookup sb dp name) with
      | none =>
        iunlockput dp
        return false
      | some (ip, off) =>
        fs (ilock ip)
        let d ← fs (copyOf ip)
        if d.nlink.toInt < 1 then fs (throw .unlinkNlink)
        else if d.type = .dir then
          if ← fs (isdirempty sb ip) then unlinkEntry sb dp ip off
          else
            iunlockput ip
            iunlockput dp
            return false
        else unlinkEntry sb dp ip off

/-- `sys_mkdir` and `sys_mknod`. -/
def sysMknod (sb : Super) (p : Fin n) (path : List Byte) (type : FType) (major minor : BitVec 16) :
    Sys n Bool := do
  match ← create sb p path type major minor with
  | none => return false
  | some ip =>
    iunlockput ip
    return true

def sysChdir (sb : Super) (p : Fin n) (path : List Byte) : Sys n Bool := do
  match ← namei sb p path with
  | none => return false
  | some ip =>
    fs (ilock ip)
    if (← fs (copyOf ip)).type ≠ .dir then
      iunlockput ip
      return false
    else
      fs (iunlock ip)
      match ← .atomic (do
        let s ← get
        setCwd p (some ip)
        return (s.proc p).cwd) with
      | none => .atomic (throw .wild)
      | some old =>
        iput old
        return true

/-! ## `open`, `close`, `dup` and `pipe` -/

def O_RDONLY : BitVec 32 := 0x000
def O_CREATE : BitVec 32 := 0x200
def O_TRUNC : BitVec 32 := 0x400

/-- The inode to be opened, referenced and locked. -/
def openInode (sb : Super) (p : Fin n) (path : List Byte) (omode : BitVec 32) :
    Sys n (Option Nat) := do
  if omode &&& O_CREATE ≠ 0 then create sb p path .file 0 0
  else
    match ← namei sb p path with
    | none => return none
    | some ip =>
      fs (ilock ip)
      if (← fs (copyOf ip)).type = .dir ∧ omode ≠ O_RDONLY then
        iunlockput ip
        return none
      else return some ip

/-- A descriptor for the new file `f`, which is made one for the inode `ip`. -/
def openFile (p : Fin n) (f : Fin NFILE) (ip : Nat) (d : Dinode) : M n Bool := do
  match ← fdalloc p f with
  | none => return false
  | some _ =>
    setFile f fun x =>
      { x with type := if d.type = .device then .device ip d.major else .inode ip }
    return true

def sysOpen (sb : Super) (p : Fin n) (path : List Byte) (omode : BitVec 32) : Sys n Bool := do
  match ← openInode sb p path omode with
  | none => return false
  | some ip =>
    let d ← fs (copyOf ip)
    if d.type = .device ∧ (d.major.toInt < 0 ∨ NDEV ≤ d.major.toInt) then
      iunlockput ip
      return false
    else
      match ← .atomic filealloc with
      | none =>
        iunlockput ip
        return false
      | some f =>
        if ← .atomic (openFile p f ip d) then
          if omode &&& O_TRUNC ≠ 0 ∧ d.type = .file then fs (itrunc ip)
          fs (iunlock ip)
          return true
        else
          fileclose f
          iunlockput ip
          return false

def sysClose (p : Fin n) (fd : Int) : Sys n Bool := do
  match ← .atomic (do
    match ← argfd p fd with
    | none => return none
    | some (fd, _) => takeFd p fd) with
  | none => return false
  | some f =>
    fileclose f
    return true

def sysDup (p : Fin n) (fd : Int) : Sys n Bool :=
  .atomic do
    match ← argfd p fd with
    | none => return false
    | some (_, f) =>
      match ← fdalloc p f with
      | none => return false
      | some _ =>
        filedup f
        return true

/-- The two ends of a new pipe. -/
def pipealloc : Sys n (Option (Fin NFILE × Fin NFILE)) := do
  match ← .atomic filealloc with
  | none => return none
  | some f0 =>
    match ← .atomic filealloc with
    | none =>
      fileclose f0
      return none
    | some f1 =>
      if ← .choose (pipeinit f0 f1) then return some (f0, f1)
      else
        fileclose f0
        fileclose f1
        return none

/-- Descriptors for both files, or for none. -/
def fdallocBoth (p : Fin n) (rf wf : Fin NFILE) : M n (Option (Fin NOFILE × Fin NOFILE)) := do
  match ← fdalloc p rf with
  | none => return none
  | some fd0 =>
    match ← fdalloc p wf with
    | none =>
      setOfile p fd0 none
      return none
    | some fd1 => return some (fd0, fd1)

def sysPipe (p : Fin n) : Sys n Bool := do
  match ← pipealloc with
  | none => return false
  | some (rf, wf) =>
    match ← .atomic (fdallocBoth p rf wf) with
    | none =>
      fileclose rf
      fileclose wf
      return false
    | some (fd0, fd1) =>
      -- copyout
      if ← succeeds then return true
      else
        .atomic (do
          setOfile p fd0 none
          setOfile p fd1 none)
        fileclose rf
        fileclose wf
        return false

/-! ## `fork`, `exit` and `exec` -/

def kfork (p : Fin n) : Sys n Bool := do
  match ← .choose allocproc with
  | none => return false
  | some np =>
    -- uvmcopy
    if ← succeeds then
      forM (List.finRange NOFILE) fun fd => .atomic (dupFd p np fd)
      .atomic (do
        let ip ← dupCwd p
        setCwd np (some ip))
      .atomic (setProc np fun pr => { pr with parent := some p })
      .atomic (setProc np fun pr => { pr with state := .live })
      return true
    else
      .atomic (freeproc np)
      return false

def kexit (init p : Fin n) : Sys n Unit := do
  if p = init then .atomic (throw .initExiting)
  else
    forM (List.finRange NOFILE) fun fd => do
      match ← .atomic (takeFd p fd) with
      | none => return
      | some f => fileclose f
    match ← .atomic (do
      let s ← get
      setCwd p none
      return (s.proc p).cwd) with
    | none => .atomic (throw .wild)
    | some ip =>
      iput ip
      .atomic (endExit init p)

/-- The reads of `loadseg`, from byte `i` on. -/
def loadseg (sb : Super) (ip offset sz : Nat) : Nat → Nat → Sys n Bool
  | 0, _ => return true
  | fuel + 1, i =>
    if i < sz then do
      let m := if sz - i < Vm.PGSIZE then sz - i else Vm.PGSIZE
      match ← fs (readi sb ip (fun _ => true) (u32 (offset + i)) m) with
      | none => return false
      | some bytes =>
        if bytes.length ≠ m then return false
        else loadseg sb ip offset sz fuel (i + Vm.PGSIZE)
    else return true

/-- The loop of `kexec` over the program headers. -/
def loadSegs (sb : Super) (ip : Nat) : Nat → Nat → Sys n Bool
  | 0, _ => return true
  | k + 1, off => do
    match ← fs (readi sb ip (fun _ => true) off Vm.PROGHDR) with
    | none => return false
    | some bytes =>
      let ph := Vm.Proghdr.ofBytes bytes
      if bytes.length ≠ Vm.PROGHDR then return false
      else if ph.type ≠ Vm.ELF_PROG_LOAD then loadSegs sb ip k (u32 (off + Vm.PROGHDR))
      else if ph.memsz < ph.filesz then return false
      else if (ph.vaddr + ph.memsz) % 2 ^ 64 < ph.vaddr then return false
      else if ph.vaddr % Vm.PGSIZE ≠ 0 then return false
      -- uvmalloc
      else if ← succeeds then
        if ← loadseg sb ip (u32 ph.off) (u32 ph.filesz) (u32 ph.filesz / Vm.PGSIZE + 1) 0 then
          loadSegs sb ip k (u32 (off + Vm.PROGHDR))
        else return false
      else return false

/-- The part of `kexec` that reads the file. -/
def loadElf (sb : Super) (ip : Nat) : Sys n Bool := do
  match ← fs (readi sb ip (fun _ => true) 0 Vm.ELFHDR) with
  | none => return false
  | some elf =>
    if elf.length ≠ Vm.ELFHDR then return false
    else if Vm.field elf 0 4 ≠ Vm.ELF_MAGIC then return false
    -- proc_pagetable
    else if ← succeeds then loadSegs sb ip (Vm.field elf 56 2) (u32 (Vm.field elf 32 8))
    else return false

def kexec (sb : Super) (p : Fin n) (path : List Byte) : Sys n Bool := do
  match ← namei sb p path with
  | none => return false
  | some ip =>
    fs (ilock ip)
    if ← loadElf sb ip then
      iunlockput ip
      -- the stack and the arguments, with ip = 0
      succeeds
    else
      iunlockput ip
      return false

/-- `sys_exec`, which first copies the arguments into pages of its own. -/
def sysExec (sb : Super) (p : Fin n) (path : List Byte) : Sys n Bool := do
  if ← succeeds then kexec sb p path else return false

/-! ## The system -/

abbrev Path := Option (List Byte)

/-- The system calls with their arguments. -/
inductive Call
  | open (path : Path) (omode : BitVec 32)
  | close (fd : Int)
  | dup (fd : Int)
  | pipe
  | fork
  | exit
  | wait
  | chdir (path : Path)
  | exec (path : Path)
  | link (old new : Path)
  | unlink (path : Path)
  | mkdir (path : Path)
  | mknod (path : Path) (major minor : BitVec 16)

/-- A call with a path, which fails if the path cannot be fetched. -/
def withPath (path : Path) (f : List Byte → Sys n Bool) : Sys n Bool :=
  match path with
  | none => return false
  | some path => f path

/-- A call that returns to user space. -/
def returns (p : Fin n) (m : Sys n Bool) : Sys n Unit := do
  .atomic (enter p)
  let _ ← m
  .atomic (leave p)

/-- The system calls of process `p`. -/
def syscall (sb : Super) (init p : Fin n) : Call → Sys n Unit
  | .open path omode => returns p (withPath path fun path => sysOpen sb p path omode)
  | .close fd => returns p (sysClose p fd)
  | .dup fd => returns p (sysDup p fd)
  | .pipe => returns p (sysPipe p)
  | .fork => returns p (kfork p)
  | .exit => do
    .atomic (enter p)
    kexit init p
  | .wait => returns p (.choose (kwait p))
  | .chdir path => returns p (withPath path fun path => sysChdir sb p path)
  | .exec path => returns p (withPath path fun path => sysExec sb p path)
  | .link old new =>
    returns p (withPath old fun old => withPath new fun new => sysLink sb p old new)
  | .unlink path => returns p (withPath path fun path => sysUnlink sb p path)
  | .mkdir path => returns p (withPath path fun path => sysMknod sb p path .dir 0 0)
  | .mknod path major minor =>
    returns p (withPath path fun path => sysMknod sb p path .device major minor)

/-- After `userinit`, on any disk. -/
structure Init (init : Fin n) (s : St n) : Prop where
  first : s.proc init = ⟨.live, false, none, fun _ => none, some ROOTINO⟩
  proc : ∀ p, p ≠ init → s.proc p = ⟨.unused, false, none, fun _ => none, none⟩
  inode : ∀ i, (s.fs.inode i).ref = if i = ROOTINO then 1 else 0
  file : ∀ f, s.file f = ⟨0, .none⟩
  pipe : ∀ a, s.pipe a = none

def sys (sb : Super) (init : Fin n) :
    System (Pool (St n) Nat Halt (Fin n)) (PoolLbl Nat (Fin n) Call) :=
  Pool.sys (Init init) (syscall sb init)

end Xv6.Sysfile
