import Mathlib.Data.Fin.Basic
import Xv6.Lib.System

/-!
# Xv6.Process.Basic — the process table: `kfork`, `kexit`, `kwait`, `kkill`

The `n` slots of the process table (`NPROC` of them in the kernel) and the kernel code
that changes them. Each section under a `p->lock` is one atomic action, and so is each
access to a `parent` field under `wait_lock`; a process that holds `wait_lock` for longer
(`kexit`, `kwait`) keeps it in `lock` across its actions, and every visit of a slot by a
scan or a `wakeup` is an action of its own, so that `kkill`, the scheduler and other forks
interleave with it.

What a process does outside these functions is left open: it may yield, sleep on other
channels and be woken from them. Whether an allocation or a copy to user memory succeeds is
chosen by the label. `uid`, `exits` and `reaps` are history: they number the processes that
ever lived and record how they ended.
-/

namespace Xv6.Process

open Lib Function

/-- `enum procstate`. -/
inductive ProcState where
  | unused | used | sleeping | runnable | running | zombie
deriving DecidableEq, Repr

/-- The states of a process that can still run. -/
def ProcState.live : ProcState → Bool
  | .sleeping | .runnable | .running => true
  | .unused | .used | .zombie => false

/-- What a process sleeps on: a slot of the table (`kwait`), or anything else. -/
inductive Chan (n : Nat) where
  | proc (i : Fin n)
  | other (c : Nat)
deriving DecidableEq, Repr

/-- `struct proc`, with the number of the process that occupies the slot. -/
structure Proc (n : Nat) where
  state : ProcState
  chan : Option (Chan n)
  killed : Bool
  xstate : BitVec 32
  pid : BitVec 32
  parent : Option (Fin n)
  uid : Nat

/-- `freeproc`. -/
def freeproc {n : Nat} (p : Proc n) : Proc n :=
  { p with
    pid := 0
    parent := none
    chan := none
    killed := false
    xstate := 0
    state := .unused }

/-- Where a process is. `dead` is the place of a slot that no process runs in. -/
inductive Pc (n : Nat) where
  | user
  | slept
  -- kfork: allocproc's scan, then the two sections after the child's lock is released
  | forkScan (k : Nat)
  | forkParent (np : Fin n)
  | forkRun (np : Fin n)
  -- kexit, from acquire(&wait_lock) on
  | exitAcquire (status : BitVec 32)
  | exitReparent (status : BitVec 32) (k : Nat)
  | exitWakeInit (status : BitVec 32) (k j : Nat)
  | exitWakeParent (status : BitVec 32) (parent : Option (Fin n)) (j : Nat)
  | exitZombie (status : BitVec 32)
  -- kwait; addr says whether a status is asked for
  | waitAcquire (addr : Bool)
  | waitScan (addr : Bool) (k : Nat) (havekids : Bool)
  | waitChild (addr : Bool) (k : Fin n)
  | waitEnd (addr : Bool) (havekids : Bool)
  | waitSleep (addr : Bool)
  | waitSlept (addr : Bool)
  | killScan (pid : BitVec 32) (k : Nat)
  | dead
deriving DecidableEq, Repr

/-- A process that called `kexit`: its number, its pid and the status it gave. -/
structure Exit where
  uid : Nat
  pid : BitVec 32
  status : BitVec 32
deriving DecidableEq, Repr

/-- A `kwait` that returned a child: the child's number and slot, the caller's slot, the pid
returned and the status copied out, if one was asked for. -/
structure Reap (n : Nat) where
  uid : Nat
  child : Fin n
  parent : Fin n
  pid : BitVec 32
  status : Option (BitVec 32)
deriving DecidableEq, Repr

/-- The process table with `wait_lock` and `nextpid`. -/
structure St (n : Nat) where
  proc : Fin n → Proc n
  pc : Fin n → Pc n
  lock : Option (Fin n)
  nextpid : BitVec 32
  panicked : Bool
  nextuid : Nat
  exits : List Exit
  reaps : List (Reap n)

/-- The actions. `ok` in `run` says whether the allocations or the user copy of that action
succeed. -/
inductive Lbl (n : Nat) where
  | run (p : Fin n) (ok : Bool)
  | fork (p : Fin n)
  | exit (p : Fin n) (status : BitVec 32)
  | wait (p : Fin n) (addr : Bool)
  | kill (p : Fin n) (pid : BitVec 32)
  | setkilled (p : Fin n)
  | schedule (p : Fin n)
  | yield (p : Fin n)
  | sleep (p : Fin n) (c : Nat)
  | wakeOther (p : Fin n) (c : Nat)
deriving DecidableEq, Repr

variable {n : Nat}

/-- A section under `i`'s lock. -/
def St.modify (s : St n) (i : Fin n) (f : Proc n → Proc n) : St n :=
  { s with proc := update s.proc i (f (s.proc i)) }

def St.goto (s : St n) (p : Fin n) (pc : Pc n) : St n :=
  { s with pc := update s.pc p pc }

/-- The visit of slot `j` by `wakeup(chan)`, called by `me`. -/
def St.wakeVisit (s : St n) (me j : Fin n) (chan : Option (Chan n)) : St n :=
  if j ≠ me ∧ (s.proc j).state = .sleeping ∧ (s.proc j).chan = chan then
    s.modify j fun q => { q with state := .runnable }
  else s

/-! ## `kfork` -/

/-- The visit of slot `k` by `allocproc`, and the rest of `kfork` under the new slot's lock.
The pid is used up even if an allocation fails. -/
def forkVisit (s : St n) (p : Fin n) (k : Fin n) (ok : Bool) : St n :=
  if (s.proc k).state = .unused then
    if ok then
      { s.modify k fun q => { q with pid := s.nextpid, state := .used, uid := s.nextuid } with
        pc := update s.pc p (.forkParent k)
        nextpid := s.nextpid + 1
        nextuid := s.nextuid + 1 }
    else
      { s.modify k freeproc with
        pc := update s.pc p .user
        nextpid := s.nextpid + 1 }
  else s.goto p (.forkScan (k + 1))

/-! ## `kexit` -/

/-- One pass of `reparent`'s loop. -/
def reparentVisit (init : Fin n) (s : St n) (p : Fin n) (status : BitVec 32) (k : Fin n) : St n :=
  if (s.proc k).parent = some p then
    (s.modify k fun q => { q with parent := some init }).goto p (.exitWakeInit status k 0)
  else s.goto p (.exitReparent status (k + 1))

/-- The last section of `kexit`. -/
def becomeZombie (s : St n) (p : Fin n) (status : BitVec 32) : St n :=
  { s.modify p fun q => { q with xstate := status, state := .zombie } with
    pc := update s.pc p .dead
    lock := none
    exits := ⟨(s.proc p).uid, (s.proc p).pid, status⟩ :: s.exits }

/-! ## `kwait` -/

/-- The section of `kwait` under the lock of its child `k`. -/
def waitVisit (s : St n) (p : Fin n) (addr : Bool) (k : Fin n) (ok : Bool) : St n :=
  if (s.proc k).state = .zombie then
    if addr ∧ ¬ ok then { s.goto p .user with lock := none }
    else
      { s.modify k freeproc with
        pc := update s.pc p .user
        lock := none
        reaps := ⟨(s.proc k).uid, k, p, (s.proc k).pid,
          if addr then some (s.proc k).xstate else none⟩ :: s.reaps }
  else s.goto p (.waitScan addr (k + 1) true)

/-- The test after `kwait`'s scan. -/
def waitTest (s : St n) (p : Fin n) (addr havekids : Bool) : St n :=
  if ¬ havekids ∨ (s.proc p).killed then { s.goto p .user with lock := none }
  else s.goto p (.waitSleep addr)

/-- `sleep(p, &wait_lock)` up to `sched()`. -/
def waitSleep (s : St n) (p : Fin n) (addr : Bool) : St n :=
  { s.modify p fun q => { q with chan := some (.proc p), state := .sleeping } with
    pc := update s.pc p (.waitSlept addr)
    lock := none }

/-! ## `kkill` -/

/-- The visit of slot `k` by `kkill(pid)`. -/
def killVisit (s : St n) (p : Fin n) (pid : BitVec 32) (k : Fin n) : St n :=
  if (s.proc k).pid = pid then
    (s.modify k fun q =>
      { q with
        killed := true
        state := if q.state = .sleeping then .runnable else q.state }).goto p .user
  else s.goto p (.killScan pid (k + 1))

/-- The next action of a running process inside one of these functions; `none` while it
waits for `wait_lock`. -/
def runPc (init : Fin n) (s : St n) (p : Fin n) (ok : Bool) : Pc n → Option (St n)
  | .user | .dead => none
  | .slept => some ((s.modify p fun q => { q with chan := none }).goto p .user)
  | .forkScan k => some (if h : k < n then forkVisit s p ⟨k, h⟩ ok else s.goto p .user)
  | .forkParent np =>
    if s.lock = none then
      some ((s.modify np fun q => { q with parent := some p }).goto p (.forkRun np))
    else none
  | .forkRun np =>
    some (((s.modify np fun q => { q with state := .runnable }).goto np .user).goto p .user)
  | .exitAcquire status =>
    if s.lock = none then some { s.goto p (.exitReparent status 0) with lock := some p }
    else none
  | .exitReparent status k =>
    some (if h : k < n then reparentVisit init s p status ⟨k, h⟩
      else s.goto p (.exitWakeParent status (s.proc p).parent 0))
  | .exitWakeInit status k j =>
    some (if h : j < n then
        (s.wakeVisit p ⟨j, h⟩ (some (.proc init))).goto p (.exitWakeInit status k (j + 1))
      else s.goto p (.exitReparent status (k + 1)))
  | .exitWakeParent status parent j =>
    some (if h : j < n then
        (s.wakeVisit p ⟨j, h⟩ (parent.map .proc)).goto p (.exitWakeParent status parent (j + 1))
      else s.goto p (.exitZombie status))
  | .exitZombie status => some (becomeZombie s p status)
  | .waitAcquire addr =>
    if s.lock = none then some { s.goto p (.waitScan addr 0 false) with lock := some p }
    else none
  | .waitScan addr k havekids =>
    some (if h : k < n then
        if (s.proc ⟨k, h⟩).parent = some p then s.goto p (.waitChild addr ⟨k, h⟩)
        else s.goto p (.waitScan addr (k + 1) havekids)
      else s.goto p (.waitEnd addr havekids))
  | .waitChild addr k => some (waitVisit s p addr k ok)
  | .waitEnd addr havekids => some (waitTest s p addr havekids)
  | .waitSleep addr => some (waitSleep s p addr)
  | .waitSlept addr =>
    some ((s.modify p fun q => { q with chan := none }).goto p (.waitAcquire addr))
  | .killScan pid k => some (if h : k < n then killVisit s p pid ⟨k, h⟩ else s.goto p .user)

/-- One action. Only a running process acts; an interrupt can take the CPU from it unless it
holds a lock. -/
def step (init : Fin n) (s : St n) (l : Lbl n) : Option (St n) :=
  if s.panicked then none
  else
    match l with
    | .run p ok => if (s.proc p).state = .running then runPc init s p ok (s.pc p) else none
    | .fork p =>
      if (s.proc p).state = .running ∧ s.pc p = .user then some (s.goto p (.forkScan 0)) else none
    | .exit p status =>
      if (s.proc p).state = .running ∧ s.pc p = .user then
        some (if p = init then { s with panicked := true } else s.goto p (.exitAcquire status))
      else none
    | .wait p addr =>
      if (s.proc p).state = .running ∧ s.pc p = .user then some (s.goto p (.waitAcquire addr))
      else none
    | .kill p pid =>
      if (s.proc p).state = .running ∧ s.pc p = .user then some (s.goto p (.killScan pid 0))
      else none
    | .setkilled p =>
      if (s.proc p).state = .running ∧ s.pc p = .user then
        some (s.modify p fun q => { q with killed := true })
      else none
    | .schedule p =>
      if (s.proc p).state = .runnable then
        some (s.modify p fun q => { q with state := .running })
      else none
    | .yield p =>
      if (s.proc p).state = .running ∧ s.lock ≠ some p then
        some (s.modify p fun q => { q with state := .runnable })
      else none
    | .sleep p c =>
      if (s.proc p).state = .running ∧ s.pc p = .user then
        some ((s.modify p fun q => { q with chan := some (.other c), state := .sleeping }).goto p
          .slept)
      else none
    | .wakeOther p c =>
      if (s.proc p).state = .sleeping ∧ (s.proc p).chan = some (.other c) then
        some (s.modify p fun q => { q with state := .runnable })
      else none

/-- After `userinit`: the slot `init` holds the first process, all others are free. -/
def boot (init : Fin n) : St n where
  proc := fun i =>
    if i = init then ⟨.runnable, none, false, 0, 1, none, 0⟩
    else ⟨.unused, none, false, 0, 0, none, 0⟩
  pc := fun i => if i = init then .user else .dead
  lock := none
  nextpid := 2
  panicked := false
  nextuid := 1
  exits := []
  reaps := []

/-- The process table as a transition system. -/
def sys (init : Fin n) : System (St n) (Lbl n) := ⟨fun s => s = boot init, step init⟩

end Xv6.Process
