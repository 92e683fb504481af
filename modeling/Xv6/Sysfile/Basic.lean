import Xv6.Fs.Path
import Xv6.Lib.Threads

/-!
# Xv6.Sysfile.Basic — descriptors, open files and pipes

The tables that hold references: `p->ofile` and `p->cwd` of the processes, the open files of
kernel/file.c, the pipes, and the inode table as it is in the file system's state. A `struct
pipe` is the content of its page, so a page of a pipe is allocated while `pipe` has it.

Each definition here is part of an atomic action. A page is given by a choice from outside,
and the choice 0 is an allocation, or a copy to or from user memory, that fails.
-/

namespace Xv6.Sysfile

open Lib Function

/-- `enum procstate`, with the three states of a process that can run as one. -/
inductive PState
  | unused | used | live | zombie
  deriving DecidableEq, Repr

/-- The slots of a process; `insys` between the entry to a system call and the return. -/
structure Proc (n : Nat) where
  state : PState
  insys : Bool
  parent : Option (Fin n)
  ofile : Fin NOFILE → Option (Fin NFILE)
  cwd : Option Nat

/-- `FD_NONE`, `FD_PIPE`, `FD_INODE` and `FD_DEVICE`, with what the type makes use of. -/
inductive FileType
  | none
  | pipe (pi : Nat) (writable : Bool)
  | inode (ip : Nat)
  | device (ip : Nat) (major : BitVec 16)
  deriving DecidableEq, Repr

structure File where
  ref : Nat
  type : FileType
  deriving DecidableEq, Repr

structure Pipe where
  readopen : Bool
  writeopen : Bool
  deriving DecidableEq, Repr

structure St (n : Nat) where
  fs : Fs.St
  proc : Fin n → Proc n
  file : Fin NFILE → File
  pipe : Nat → Option Pipe

/-- Why an action is not taken: the file system stops, a panic, a null or dangling pointer is
followed, the process has to wait, or the choice from outside is impossible. -/
inductive Halt
  | fs (e : Fs.Stop)
  | filedup | fileclose | initExiting
  | wild
  | wait
  deriving DecidableEq, Repr

abbrev M (n : Nat) := StateT (St n) (Except Halt)

variable {n : Nat}

/-- File system code. -/
def onFs {α : Type} (m : Fs.F α) : M n α := fun s =>
  match m s.fs with
  | .ok (a, t) => .ok (a, { s with fs := t })
  | .error e => .error (.fs e)

def setProc (p : Fin n) (f : Proc n → Proc n) : M n Unit :=
  modify fun s => { s with proc := update s.proc p (f (s.proc p)) }

def setOfile (p : Fin n) (fd : Fin NOFILE) (f : Option (Fin NFILE)) : M n Unit :=
  setProc p fun pr => { pr with ofile := update pr.ofile fd f }

def setCwd (p : Fin n) (ip : Option Nat) : M n Unit := setProc p fun pr => { pr with cwd := ip }

def setFile (f : Fin NFILE) (g : File → File) : M n Unit :=
  modify fun s => { s with file := update s.file f (g (s.file f)) }

def setPipe (pi : Nat) (x : Option Pipe) : M n Unit :=
  modify fun s => { s with pipe := update s.pipe pi x }

/-! ## Descriptors -/

/-- `argfd`: the descriptor and the file it refers to. -/
def argfd (p : Fin n) (fd : Int) : M n (Option (Fin NOFILE × Fin NFILE)) := do
  let s ← get
  if h : 0 ≤ fd ∧ fd.toNat < NOFILE then
    return ((s.proc p).ofile ⟨fd.toNat, h.2⟩).map fun f => (⟨fd.toNat, h.2⟩, f)
  else return none

def fdalloc (p : Fin n) (f : Fin NFILE) : M n (Option (Fin NOFILE)) := do
  let s ← get
  match (List.finRange NOFILE).find? fun fd => (s.proc p).ofile fd = none with
  | none => return none
  | some fd =>
    setOfile p fd (some f)
    return some fd

/-- The file of a descriptor, which is closed. -/
def takeFd (p : Fin n) (fd : Fin NOFILE) : M n (Option (Fin NFILE)) := do
  let s ← get
  setOfile p fd none
  return (s.proc p).ofile fd

/-! ## Open files -/

def filealloc : M n (Option (Fin NFILE)) := do
  let s ← get
  match (List.finRange NFILE).find? fun f => (s.file f).ref = 0 with
  | none => return none
  | some f =>
    setFile f fun x => { x with ref := 1 }
    return some f

def filedup (f : Fin NFILE) : M n Unit := do
  let s ← get
  if (s.file f).ref < 1 then throw .filedup
  else setFile f fun x => { x with ref := x.ref + 1 }

/-- The section of `fileclose` under `ftable.lock`: what is left to be done for the copy `ff`
of a file that nobody refers to any more. -/
def dropFile (f : Fin NFILE) : M n FileType := do
  let s ← get
  if (s.file f).ref < 1 then throw .fileclose
  else if 0 < (s.file f).ref - 1 then
    setFile f fun x => { x with ref := x.ref - 1 }
    return .none
  else
    setFile f fun _ => ⟨0, .none⟩
    return (s.file f).type

/-! ## Pipes -/

/-- `kalloc` and the initialisation in `pipealloc`: whether there was a page. -/
def pipeinit (f0 f1 : Fin NFILE) (page : Nat) : M n Bool := do
  let s ← get
  if page = 0 then return false
  else if s.pipe page ≠ none then throw .wait
  else
    setPipe page (some ⟨true, true⟩)
    setFile f0 fun x => { x with type := .pipe page false }
    setFile f1 fun x => { x with type := .pipe page true }
    return true

def pipeclose (pi : Nat) (writable : Bool) : M n Unit := do
  let s ← get
  match s.pipe pi with
  | none => throw .wild
  | some x =>
    let x := if writable then { x with writeopen := false } else { x with readopen := false }
    if x.readopen = false ∧ x.writeopen = false then setPipe pi none
    else setPipe pi (some x)

/-! ## Processes -/

/-- The entry to a system call. -/
def enter (p : Fin n) : M n Unit := do
  let s ← get
  if (s.proc p).state = .live ∧ (s.proc p).insys = false then
    setProc p fun pr => { pr with insys := true }
  else throw .wait

def leave (p : Fin n) : M n Unit := setProc p fun pr => { pr with insys := false }

def freeproc (p : Fin n) : M n Unit :=
  setProc p fun pr => { pr with state := .unused, parent := none }

/-- `allocproc`; the memory that it needs is there if `mem` is not 0. -/
def allocproc (mem : Nat) : M n (Option (Fin n)) := do
  let s ← get
  match (List.finRange n).find? fun p => (s.proc p).state = .unused with
  | none => return none
  | some p =>
    setProc p fun pr => { pr with state := .used }
    if mem = 0 then
      freeproc p
      return none
    else return some p

/-- A round of the loop of `kfork` over the descriptors. -/
def dupFd (p np : Fin n) (fd : Fin NOFILE) : M n Unit := do
  let s ← get
  match (s.proc p).ofile fd with
  | none => return
  | some f =>
    filedup f
    setOfile np fd (some f)

/-- `idup(p->cwd)`. -/
def dupCwd (p : Fin n) : M n Nat := do
  let s ← get
  match (s.proc p).cwd with
  | none => throw .wild
  | some ip =>
    onFs (Fs.idup ip)
    return ip

/-- The end of `kexit`: the children go to `init`, and the process is a zombie. -/
def endExit (init p : Fin n) : M n Unit :=
  modify fun s =>
    { s with
      proc := fun q =>
        let parent := if (s.proc q).parent = some p then some init else (s.proc q).parent
        if q = p then { s.proc q with parent := parent, state := .zombie, insys := false }
        else { s.proc q with parent := parent } }

/-- `kwait`. The choice 0 is a failed `copyout`, or that the process was killed. -/
def kwait (p : Fin n) (w : Nat) : M n Bool := do
  let s ← get
  if w = 0 then return false
  else
    match (List.finRange n).find? fun q =>
      (s.proc q).parent = some p ∧ (s.proc q).state = .zombie with
    | some q =>
      freeproc q
      return true
    | none => if ∃ q, (s.proc q).parent = some p then throw .wait else return false

end Xv6.Sysfile
