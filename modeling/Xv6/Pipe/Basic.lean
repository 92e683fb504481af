import Mathlib.Data.BitVec
import Xv6.Lib.System

/-!
# Xv6.Pipe.Basic — pipewrite, piperead and pipeclose under every schedule

`kernel/pipe.c` as a labelled system. Any number of processes run `pipewrite`,
`piperead` and `pipeclose` on one pipe; a label is one atomic piece of one of
those calls, so the interleavings of the system are the interleavings of the code:

* a call holds `pi->lock` from `acquire` to `release` or `sleep`, one loop test or
  one byte at a time, because `killed(pr)` takes only `p->lock` and `kkill` may hit
  between any two of them;
* `sleep(chan, &pi->lock)` releases the lock and falls asleep in one step (`sleep`
  takes `p->lock` before it drops the lock), `wakeup` makes every sleeper on the
  channel run again, and `kkill` does so for its victim;
* what the user copies find (`copyin`, `copyout`) is chosen by the label.

`nread` and `nwrite` are the 32-bit counters of `struct pipe`, wrapping as they do in C.
-/

namespace Xv6.Pipe

open Lib Function

/-- `#define PIPESIZE 512`. -/
def PIPESIZE : Nat := 512

/-- Where a process is. `w…` are the places of `pipewrite`, `r…` those of `piperead`;
`put` counts the bytes a `pipewrite` has stored since it last took `pi->lock`. -/
inductive Pc where
  | out (ret : Option Int)
  | wLock (i : Nat) (n : Int)
  | wLoop (i : Nat) (n : Int) (put : Nat)
  | wByte (i : Nat) (n : Int) (put : Nat)
  | wSleep (i : Nat) (n : Int)
  | wDone (i : Nat)
  | rLock (n : Int)
  | rLoop (n : Int)
  | rKilled (n : Int)
  | rSleep (n : Int)
  | rCopy (i : Nat) (n : Int)
  | rDone (ret : Int)
deriving DecidableEq, Repr

/-- The places at which `pi->lock` is held. -/
def Pc.holds : Pc → Bool
  | .wLoop .. | .wByte .. | .wDone _ | .rLoop _ | .rKilled _ | .rCopy .. | .rDone _ => true
  | .out _ | .wLock .. | .wSleep .. | .rLock _ | .rSleep _ => false

/-- The channels `&pi->nread` and `&pi->nwrite`. -/
inductive Chan where
  | nread
  | nwrite
deriving DecidableEq, Repr

/-- What `wakeup(chan)` does to a process: a sleeper on `chan` goes back to
`acquire(&pi->lock)` inside `sleep`. -/
def Pc.wake : Chan → Pc → Pc
  | .nread, .rSleep n => .rLock n
  | .nwrite, .wSleep i n => .wLock i n
  | _, pc => pc

/-- `struct pipe`, the processes around it, and the bytes that went in and came out
so far (`accepted`, `delivered`: history, read by no step). -/
structure St (Pid : Type) where
  lock : Option Pid
  data : Nat → UInt8
  nread : BitVec 32
  nwrite : BitVec 32
  readopen : Bool
  writeopen : Bool
  freed : Bool
  killed : Pid → Bool
  pc : Pid → Pc
  accepted : List UInt8
  delivered : List UInt8

variable {Pid : Type}

/-- The test of `pipewrite-full`. -/
def St.full (s : St Pid) : Prop := s.nwrite = s.nread + BitVec.ofNat 32 PIPESIZE

/-- The test of `pipe-empty`. -/
def St.empty (s : St Pid) : Prop := s.nread = s.nwrite

instance (s : St Pid) : Decidable s.full := inferInstanceAs (Decidable (_ = _))
instance (s : St Pid) : Decidable s.empty := inferInstanceAs (Decidable (_ = _))

/-- `wakeup(chan)`. -/
def St.wakeup (s : St Pid) (c : Chan) : St Pid := { s with pc := fun q => (s.pc q).wake c }

/-- A pipe as `pipealloc` leaves it, with every process outside `pipe.c`. -/
def Init (s : St Pid) : Prop :=
  s.lock = none ∧ s.nread = 0 ∧ s.nwrite = 0 ∧ s.readopen = true ∧ s.writeopen = true ∧
  s.freed = false ∧ s.accepted = [] ∧ s.delivered = [] ∧ ∀ p, ∃ r, s.pc p = .out r

/-- The atomic actions. `run`, `copyin` and `copyout` are the next piece of the call
that `p` is in; the last two say what the user copy finds. -/
inductive Lbl (Pid : Type) where
  | write (p : Pid) (n : Int)
  | read (p : Pid) (n : Int)
  | close (p : Pid) (writable : Bool)
  | kkill (p : Pid)
  | run (p : Pid)
  | copyin (p : Pid) (ch : Option UInt8)
  | copyout (p : Pid) (ok : Bool)

section Step

variable [DecidableEq Pid]

/-- Process `p` moves on to `pc`. -/
def St.goto (s : St Pid) (p : Pid) (pc : Pc) : St Pid :=
  { s with pc := update s.pc p pc }

/-- `release(&pi->lock)` on the way out of a call, or on the way into `sleep`. -/
def St.leave (s : St Pid) (p : Pid) (pc : Pc) : St Pid :=
  { s.goto p pc with lock := none }

/-- `acquire(&pi->lock)`: waits while another process holds it. -/
def acquire (s : St Pid) (p : Pid) (pc : Pc) : Option (St Pid) :=
  if s.lock = none then some { s.goto p pc with lock := some p } else none

/-- One iteration of the `pipewrite` loop after its tests: sleep if the pipe is full,
else move one byte (`ch = none`: `copyin` returned -1). -/
def writeByte (s : St Pid) (p : Pid) (i : Nat) (n : Int) (put : Nat) (ch : Option UInt8) :
    St Pid :=
  if s.full then (s.wakeup .nread).leave p (.wSleep i n)
  else
    match ch with
    | none => s.goto p (.wDone i)
    | some c =>
      { s.goto p (.wLoop (i + 1) n (put + 1)) with
        data := update s.data (s.nwrite.toNat % PIPESIZE) c
        nwrite := s.nwrite + 1
        accepted := s.accepted ++ [c] }

/-- One iteration of the copy loop of `piperead` (`ok = false`: `copyout` returned -1). -/
def readByte (s : St Pid) (p : Pid) (i : Nat) (n : Int) (ok : Bool) : St Pid :=
  if ¬ (i : Int) < n then s.goto p (.rDone i)
  else if s.empty then s.goto p (.rDone i)
  else if ok then
    { s.goto p (.rCopy (i + 1) n) with
      nread := s.nread + 1
      delivered := s.delivered ++ [s.data (s.nread.toNat % PIPESIZE)] }
  else s.goto p (.rDone (if i = 0 then -1 else i))

/-- The next piece of `p`'s call, where it touches no user memory. -/
def runPc (s : St Pid) (p : Pid) : Pc → Option (St Pid)
  | .wLock i n => acquire s p (.wLoop i n 0)
  | .wLoop i n put =>
    if (i : Int) < n then
      if s.readopen = false ∨ s.killed p then some (s.leave p (.out (some (-1))))
      else some (s.goto p (.wByte i n put))
    else some (s.goto p (.wDone i))
  | .wDone i => some ((s.wakeup .nread).leave p (.out (some i)))
  | .rLock n => acquire s p (.rLoop n)
  | .rLoop n =>
    if s.empty ∧ s.writeopen then some (s.goto p (.rKilled n))
    else some (s.goto p (.rCopy 0 n))
  | .rKilled n =>
    if s.killed p then some (s.leave p (.out (some (-1))))
    else some (s.leave p (.rSleep n))
  | .rDone r => some ((s.wakeup .nwrite).leave p (.out (some r)))
  | _ => none

/-- The end that `pipeclose(pi, writable)` closes. -/
def closeEnd (s : St Pid) (writable : Bool) : St Pid :=
  if writable then { s with writeopen := false }.wakeup .nread
  else { s with readopen := false }.wakeup .nwrite

/-- `pipeclose(pi, writable)`; the page goes back to `kfree` with the second end. -/
def pipeclose (s : St Pid) (writable : Bool) : St Pid :=
  let s' := closeEnd s writable
  if s'.readopen = false ∧ s'.writeopen = false then { s' with freed := true } else s'

/-- `kkill` reaches `p`: it is marked, and woken if it sleeps. -/
def kkill (s : St Pid) (p : Pid) : St Pid :=
  { s with
    killed := update s.killed p true
    pc := update s.pc p (((s.pc p).wake .nread).wake .nwrite) }

/-- One atomic action. Nothing touches a pipe whose page was freed. -/
def step (s : St Pid) (l : Lbl Pid) : Option (St Pid) :=
  if s.freed then none
  else
    match l with
    | .write p n => match s.pc p with
      | .out _ => some (s.goto p (.wLock 0 n))
      | _ => none
    | .read p n => match s.pc p with
      | .out _ => some (s.goto p (.rLock n))
      | _ => none
    | .close p w => match s.pc p with
      | .out _ => if s.lock = none then some (pipeclose s w) else none
      | _ => none
    | .kkill p => some (kkill s p)
    | .run p => runPc s p (s.pc p)
    | .copyin p ch => match s.pc p with
      | .wByte i n put => some (writeByte s p i n put ch)
      | _ => none
    | .copyout p ok => match s.pc p with
      | .rCopy i n => some (readByte s p i n ok)
      | _ => none

/-- The pipe system. -/
def sys (Pid : Type) [DecidableEq Pid] : System (St Pid) (Lbl Pid) := ⟨Init, step⟩

end Step

end Xv6.Pipe
