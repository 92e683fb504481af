import Xv6.Lib.System
import Xv6.Vm.Exec

/-!
# Xv6.Vm.Kernel — processes, pipes and the operations that take pages

The system in which pages change hands: the process table, the file table with the
pipes behind it, and physical memory. One label is one operation of a process run
to its end; operations of different processes are interleaved in any order. An
operation that panics halts the system.

From kernel/proc.c, kernel/file.c, kernel/pipe.c, kernel/sysfile.c and
kernel/sysproc.c. The files behind a descriptor matter here as far as they keep a
pipe alive; a `struct pipe` lives in its page, and its two open flags are the word at
offset 544.
-/

namespace Xv6.Vm

open Function

/-! ## State -/

/-- `enum procstate`, with the four states of a process that runs or waits as one. -/
inductive Life
  | unused | live | zombie
  deriving DecidableEq, Repr

structure Proc (n : Nat) where
  state : Life
  mem : ProcMem
  pid : Nat
  parent : Option (Fin n)
  xstate : BitVec 32
  ofile : Fin NOFILE → Option (Fin NFILE)

/-- `FD_NONE`, one end of the pipe in a page, `FD_INODE` and `FD_DEVICE`. -/
inductive FileType
  | none
  | pipe (pi : Nat) (writable : Bool)
  | inode
  deriving DecidableEq, Repr

structure File where
  ref : Nat
  type : FileType
  deriving DecidableEq, Repr

structure St (n : Nat) where
  mem : Mem
  proc : Fin n → Proc n
  nextpid : Nat
  initproc : Option (Fin n)
  file : Fin NFILE → File

/-- Kernel code over the whole state. -/
abbrev K (n : Nat) := StateT (St n) (Except Panic)

variable {n : Nat}

/-- Code that uses memory only. -/
def onMem {α : Type} (m : M α) : K n α := fun s =>
  match m s.mem with
  | .ok (a, t) => .ok (a, { s with mem := t })
  | .error e => .error e

def setProc (p : Fin n) (f : Proc n → Proc n) : K n Unit :=
  modify fun s => { s with proc := update s.proc p (f (s.proc p)) }

def setFile (f : Fin NFILE) (g : File → File) : K n Unit :=
  modify fun s => { s with file := update s.file f (g (s.file f)) }

def setOfile (p : Fin n) (fd : Fin NOFILE) (f : Option (Fin NFILE)) : K n Unit :=
  setProc p fun pr => { pr with ofile := update pr.ofile fd f }

def setMem (p : Fin n) (m : ProcMem) : K n Unit := setProc p fun pr => { pr with mem := m }

/-! ## Processes -/

/-- What `freeproc` makes of a slot. -/
def Proc.cleared (pr : Proc n) : Proc n :=
  { pr with state := .unused, mem := ⟨0, 0, 0⟩, pid := 0, parent := none, xstate := 0 }

/-- The pages `freeproc` gives back. -/
def freeprocMem (L : Layout) (p : ProcMem) : M Unit := do
  if p.trapframe ≠ 0 then kfree L p.trapframe
  if p.pagetable ≠ 0 then procFreepagetable L p.pagetable p.sz

def freeproc (L : Layout) (p : Fin n) : K n Unit := do
  let s ← get
  onMem (freeprocMem L (s.proc p).mem)
  setProc p Proc.cleared

def allocproc (L : Layout) : K n (Option (Fin n)) := do
  let s ← get
  match (List.finRange n).find? fun p => (s.proc p).state = .unused with
  | none => return none
  | some p =>
    modify fun s => { s with nextpid := s.nextpid + 1 }
    setProc p fun pr => { pr with pid := s.nextpid, state := .live }
    let trapframe ← onMem kalloc
    setMem p { (s.proc p).mem with trapframe := trapframe }
    if trapframe = 0 then
      freeproc L p
      return none
    else
      let pagetable ← onMem (procPagetable L trapframe)
      setMem p { (s.proc p).mem with trapframe := trapframe, pagetable := pagetable }
      if pagetable = 0 then
        freeproc L p
        return none
      else
        return some p

def userinit (L : Layout) : K n Unit := do
  match ← allocproc L with
  | none => throw .userinit
  | some p => modify fun s => { s with initproc := some p }

/-! ## Files and pipes -/

def filealloc : K n (Option (Fin NFILE)) := do
  let s ← get
  match (List.finRange NFILE).find? fun f => (s.file f).ref = 0 with
  | none => return none
  | some f =>
    setFile f fun x => { x with ref := 1 }
    return some f

def filedup (f : Fin NFILE) : K n Unit := do
  let s ← get
  if (s.file f).ref < 1 then throw .filedup
  else setFile f fun x => { x with ref := x.ref + 1 }

/-- The word with `readopen` (low half) and `writeopen` (high half). -/
def openWord (readopen writeopen : Bool) : BitVec 64 :=
  (if readopen then 1 else 0) ||| (if writeopen then 0x100000000 else 0)

/-- The index of that word. -/
def OPEN : Fin 512 := 68

def pipeclose (L : Layout) (pi : Nat) (writable : Bool) : M Unit := do
  let w ← load (pi, OPEN)
  -- the half of the other end stays
  let w := if writable then w &&& 0xFFFFFFFF else w &&& 0xFFFFFFFF00000000
  store (pi, OPEN) w
  if w = 0 then kfree L pi

def fileclose (L : Layout) (f : Fin NFILE) : K n Unit := do
  let s ← get
  if (s.file f).ref < 1 then throw .fileclose
  else if 0 < (s.file f).ref - 1 then setFile f fun x => { x with ref := x.ref - 1 }
  else
    setFile f fun _ => { ref := 0, type := .none }
    match (s.file f).type with
    | .pipe pi writable => onMem (pipeclose L pi writable)
    | _ => return ()

def fdalloc (p : Fin n) (f : Fin NFILE) : K n (Option (Fin NOFILE)) := do
  let s ← get
  match (List.finRange NOFILE).find? fun fd => (s.proc p).ofile fd = none with
  | none => return none
  | some fd =>
    setOfile p fd (some f)
    return some fd

def pipealloc (L : Layout) : K n (Option (Fin NFILE × Fin NFILE)) := do
  match ← filealloc with
  | none => return none
  | some f0 =>
    match ← filealloc with
    | none =>
      fileclose L f0
      return none
    | some f1 =>
      let pi ← onMem kalloc
      if pi = 0 then
        fileclose L f0
        fileclose L f1
        return none
      else
        onMem (store (pi, OPEN) (openWord true true))
        setFile f0 fun x => { x with type := .pipe pi false }
        setFile f1 fun x => { x with type := .pipe pi true }
        return some (f0, f1)

/-- The four bytes of an `int`. -/
def intBytes (n : Nat) : List Byte := (List.range 4).map fun k => BitVec.ofNat 8 (n / 256 ^ k)

def sysPipe (L : Layout) (p : Fin n) (fdarray : Nat) : K n Unit := do
  match ← pipealloc L with
  | none => return ()
  | some (rf, wf) =>
    match ← fdalloc p rf with
    | none =>
      fileclose L rf
      fileclose L wf
    | some fd0 =>
      match ← fdalloc p wf with
      | none =>
        setOfile p fd0 none
        fileclose L rf
        fileclose L wf
      | some fd1 =>
        let pm := ((← get).proc p).mem
        let r ← onMem (do
          let r ← copyout L pm pm.pagetable fdarray (intBytes fd0)
          if r < 0 then return r
          else copyout L pm pm.pagetable (u64 (fdarray + 4)) (intBytes fd1))
        if r < 0 then
          setOfile p fd0 none
          setOfile p fd1 none
          fileclose L rf
          fileclose L wf

def sysClose (L : Layout) (p : Fin n) (fd : Fin NOFILE) : K n Unit := do
  match ((← get).proc p).ofile fd with
  | none => return ()
  | some f =>
    setOfile p fd none
    fileclose L f

def sysDup (p : Fin n) (fd : Fin NOFILE) : K n Unit := do
  match ((← get).proc p).ofile fd with
  | none => return ()
  | some f =>
    match ← fdalloc p f with
    | none => return ()
    | some _ => filedup f

/-- The part of `sys_open` that takes a file and a descriptor, for a file or device. -/
def sysOpen (L : Layout) (p : Fin n) : K n Unit := do
  match ← filealloc with
  | none => return ()
  | some f =>
    match ← fdalloc p f with
    | none => fileclose L f
    | some _ => setFile f fun x => { x with type := .inode }

/-! ## fork, exit, wait -/

/-- `*(np->trapframe) = *(p->trapframe)`, 36 words, and a 0 for the child's `a0`. -/
def copyTrapframe (dst src : Nat) : M Unit := do
  modify fun s => s.write dst fun i => if i.val < 36 then s.ram src i else s.ram dst i
  store (dst, 14) 0

/-- The loop of `kfork` over the open files. -/
def dupFiles (p np : Fin n) : K n Unit :=
  forM (List.finRange NOFILE) fun fd => do
    match ((← get).proc p).ofile fd with
    | none => return ()
    | some f =>
      filedup f
      setOfile np fd (some f)

def kfork (L : Layout) (p : Fin n) : K n Unit := do
  match ← allocproc L with
  | none => return ()
  | some np =>
    let s ← get
    let r ← onMem (uvmcopy L (s.proc p).mem.pagetable (s.proc np).mem.pagetable (s.proc p).mem.sz)
    if r < 0 then freeproc L np
    else
      setMem np { (s.proc np).mem with sz := (s.proc p).mem.sz }
      onMem (copyTrapframe (s.proc np).mem.trapframe (s.proc p).mem.trapframe)
      dupFiles p np
      setProc np fun pr => { pr with parent := some p }

/-- The loop of `kexit` over the open files. -/
def closeFiles (L : Layout) (p : Fin n) : K n Unit :=
  forM (List.finRange NOFILE) fun fd => do
    match ((← get).proc p).ofile fd with
    | none => return ()
    | some f =>
      fileclose L f
      setOfile p fd none

def kexit (L : Layout) (p : Fin n) (status : BitVec 32) : K n Unit := do
  let s ← get
  if s.initproc = some p then throw .initExiting
  else
    closeFiles L p
    modify fun s => { s with proc := fun q =>
      if (s.proc q).parent = some p then { s.proc q with parent := s.initproc } else s.proc q }
    setProc p fun pr => { pr with xstate := status, state := .zombie }

/-- `kwait`, when it does not have to sleep. -/
def kwait (L : Layout) (p : Fin n) (addr : Nat) : K n Unit := do
  let s ← get
  match (List.finRange n).find? fun q =>
      (s.proc q).parent = some p ∧ (s.proc q).state = .zombie with
  | none => return ()
  | some q =>
    let pm := (s.proc p).mem
    let r ← onMem (if addr = 0 then return 0
      else copyout L pm pm.pagetable addr (intBytes (s.proc q).xstate.toNat))
    if r < 0 then return () else freeproc L q

/-! ## The system -/

/-- The operations. A process faults at an address, or has the kernel copy to or from its
memory; `kexec` without `sys_exec` is the start of the first process. -/
inductive Lbl (n : Nat)
  | userinit
  | fork (p : Fin n)
  | exec (p : Fin n) (file : Option Exe) (uargv : Nat)
  | kexec (p : Fin n) (file : Option Exe) (argv : List Nat)
  | sbrk (p : Fin n) (amount : BitVec 32) (eager : Bool)
  | fault (p : Fin n) (va : Nat)
  | copyout (p : Fin n) (va : Nat) (src : List Byte)
  | copyin (p : Fin n) (va len : Nat)
  | exit (p : Fin n) (status : BitVec 32)
  | wait (p : Fin n) (addr : Nat)
  | pipe (p : Fin n) (fdarray : Nat)
  | close (p : Fin n) (fd : Fin NOFILE)
  | dup (p : Fin n) (fd : Fin NOFILE)
  | openFile (p : Fin n)

/-- The process that makes the call. -/
def Lbl.caller : Lbl n → Option (Fin n)
  | .userinit => none
  | .fork p | .exec p _ _ | .kexec p _ _ | .sbrk p _ _ | .fault p _ | .copyout p _ _
  | .copyin p _ _ | .exit p _ | .wait p _ | .pipe p _ | .close p _ | .dup p _ | .openFile p =>
    some p

/-- Give the process what an `exec` made. -/
def commit (p : Fin n) : Option (ProcMem × Nat) → K n Unit
  | none => return ()
  | some r => setMem p r.1

def run (L : Layout) : Lbl n → K n Unit
  | .userinit => userinit L
  | .fork p => kfork L p
  | .exec p file uargv => do
    let pm := ((← get).proc p).mem
    commit p (← onMem (sysExec L pm file uargv))
  | .kexec p file argv => do
    let pm := ((← get).proc p).mem
    commit p (← onMem (kexec L pm file argv))
  | .sbrk p amount eager => do
    let pm := ((← get).proc p).mem
    let r ← onMem (sysSbrk L pm amount.toInt eager)
    setMem p r.2
  | .fault p va => do
    let pm := ((← get).proc p).mem
    let _ ← onMem (vmfault L pm pm.pagetable va)
  | .copyout p va src => do
    let pm := ((← get).proc p).mem
    let _ ← onMem (copyout L pm pm.pagetable va src)
  | .copyin p va len => do
    let pm := ((← get).proc p).mem
    let _ ← onMem (copyin L pm pm.pagetable va len)
  | .exit p status => kexit L p status
  | .wait p addr => kwait L p addr
  | .pipe p fdarray => sysPipe L p fdarray
  | .close p fd => sysClose L p fd
  | .dup p fd => sysDup p fd
  | .openFile p => sysOpen L p

/-- The kernel, and whether it has stopped. -/
structure Machine (n : Nat) where
  st : St n
  panicked : Option Panic

/-- A running system lets its first process be made, once, and its live processes call. -/
def enabled (s : Machine n) (l : Lbl n) : Bool :=
  s.panicked = none &&
    match l.caller with
    | none => s.st.initproc.isNone
    | some p => (s.st.proc p).state = .live

def step (L : Layout) (s : Machine n) (l : Lbl n) : Option (Machine n) :=
  if enabled s l then
    match run L l s.st with
    | .ok (_, t) => some ⟨t, none⟩
    | .error e => some ⟨s.st, some e⟩
  else none

/-- No process, no open file, and a free list of distinct pages of RAM. -/
structure Boot (L : Layout) (s : Machine n) : Prop where
  proc : ∀ p, (s.st.proc p).state = .unused ∧ (s.st.proc p).mem = ⟨0, 0, 0⟩ ∧
    ∀ fd, (s.st.proc p).ofile fd = none
  file : ∀ f, s.st.file f = ⟨0, .none⟩
  init : s.st.initproc = none
  panicked : s.panicked = none
  pool : Pool L s.st.mem.free
  chain : Chain s.st.mem.ram s.st.mem.freelist s.st.mem.free
  double : s.st.mem.double = false

def sys (L : Layout) (n : Nat) : Lib.System (Machine n) (Lbl n) := ⟨Boot L, step L⟩

end Xv6.Vm
