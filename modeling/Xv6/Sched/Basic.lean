import Mathlib.Data.Fin.Basic
import Xv6.Lib.System

/-!
# Xv6.Sched.Basic — CPUs, process locks and context switches

`scheduler`, `sched`, `yield`, `forkret`, `sleep`, `wakeup`, `kkill`, `kfork`, `kexit` and
`kwait` of kernel/proc.c on any number of CPUs, at the grain of lock operations: taking a
lock, the assignments up to the next lock operation, and `swtch` are steps of their own. A
spin lock is held by a CPU, as `holding` tests it, so that a `p->lock` taken by a process
is released by the scheduler of its CPU after `swtch`, and the other way round.

Beside them runs one use of `sleep` and `wakeup` in the way the kernel uses them: data
behind a lock `lk`, sleepers that test a condition on it, and wakers that change it
(`Protocol`). Sleeplocks are an instance. Other sleeps, with other locks, and wakeups from
device interrupts are steps too.
-/

namespace Xv6.Sched

open Lib Function

/-- `enum procstate`. -/
inductive ProcState where
  | unused | used | sleeping | runnable | running | zombie
deriving DecidableEq, Repr

/-- What a process sleeps on: a slot of the table (`kwait`), the condition, anything else. -/
inductive Chan (n : Nat) where
  | proc (i : Fin n)
  | cond
  | other (c : Nat)
deriving DecidableEq, Repr

/-- The lock given to `sleep`: `wait_lock`, the lock of the condition, any other. -/
inductive Lk where
  | wait | cond | other
deriving DecidableEq, Repr

structure Proc (n : Nat) where
  state : ProcState
  chan : Option (Chan n)
  killed : Bool
  pid : BitVec 32
  parent : Option (Fin n)

/-- `freeproc`. -/
def freeproc {n : Nat} (p : Proc n) : Proc n :=
  { p with state := .unused, chan := none, killed := false, pid := 0, parent := none }

/-- Where `wakeup` returns to. -/
inductive Ret where
  | user
  | reparent (k : Nat)
  | exit
  | cond
deriving DecidableEq, Repr

/-- Where the kernel thread of a process is. `yield` returns to where the interrupt hit. -/
inductive Pc (n : Nat) where
  | dead
  | user
  | forkret
  | yieldAcq (pc : Pc n)
  | yieldSet (pc : Pc n)
  | yieldSched (pc : Pc n)
  | yieldBack (pc : Pc n)
  | sleepAcq (chan : Chan n) (lk : Lk)
  | sleepRel (chan : Chan n) (lk : Lk)
  | sleepSet (chan : Chan n) (lk : Lk)
  | sleepSched (lk : Lk)
  | sleepBack (lk : Lk)
  | sleepReacq (lk : Lk)
  | wake (chan : Option (Chan n)) (k : Nat) (ret : Ret)
  | wakeHold (chan : Option (Chan n)) (k : Fin n) (ret : Ret)
  | killScan (pid : BitVec 32) (k : Nat)
  | killHold (pid : BitVec 32) (k : Fin n)
  | forkScan (k : Nat)
  | forkHold (k : Fin n)
  | forkParent (np : Fin n)
  | forkAcq (np : Fin n)
  | forkRun (np : Fin n)
  | exitAcq
  | exitReparent (k : Nat)
  | exitOwn
  | exitZombie
  | exitSched
  | exitBack
  | waitAcq
  | waitScan (k : Nat) (havekids : Bool)
  | waitHold (k : Fin n)
  | waitEnd (havekids : Bool)
  -- a sleeper: take lk, test, and go on; a waker: take lk, change the data, wakeup
  | condAcq
  | condTest
  | condRel
  | makeAcq (a : Nat)
  | makeSet (a : Nat)
deriving DecidableEq, Repr

/-- What a CPU executes: its scheduler before slot `k`, or with the lock of slot `k`, or
returned to from the process of slot `k`; or the thread of a process. -/
inductive Thread (n : Nat) where
  | scan (k : Nat)
  | hold (k : Fin n)
  | back (k : Fin n)
  | run (p : Fin n)
deriving DecidableEq, Repr

/-- `struct cpu`: `c->proc`, and the thread. -/
structure Cpu (n : Nat) where
  proc : Option (Fin n)
  thread : Thread n

inductive Panic where
  | schedLock | schedRunning | zombieExit | initExiting
deriving DecidableEq, Repr

/-- Data behind a lock: the condition sleepers test, what one of them (with its pid) makes of
the data when the test succeeds, and what the `a`-th kind of waker makes of it. -/
structure Protocol where
  Data : Type
  cond : Data → Bool
  pass : BitVec 32 → Data → Data
  make : Nat → Data → Data

/-- The words behind the spin lock of a sleeplock. -/
structure Sleeplock where
  locked : Bool
  pid : BitVec 32
deriving DecidableEq, Repr

/-- `acquiresleep` and `releasesleep`. -/
def sleeplock : Protocol where
  Data := Sleeplock
  cond lk := !lk.locked
  pass pid _ := ⟨true, pid⟩
  make _ _ := ⟨false, 0⟩

structure St (P : Protocol) (C : Type) (n : Nat) where
  proc : Fin n → Proc n
  pc : Fin n → Pc n
  plock : Fin n → Option C
  cpu : C → Cpu n
  wait_lock : Option C
  lk : Option C
  data : P.Data
  nextpid : BitVec 32
  panicked : Option Panic

/-- The calls a process makes. -/
inductive Call (n : Nat) where
  | fork | exit | wait
  | kill (pid : BitVec 32)
  | sleep (c : Nat)
  | wakeup (c : Nat)
  | await
  | make (a : Nat)
deriving DecidableEq, Repr

/-- The steps: a CPU goes on (`ok` says whether an allocation or a user copy succeeds), its
process makes a call, its timer interrupts it, and a device interrupt wakes a slot. -/
inductive Lbl (C : Type) (n : Nat) where
  | cpu (c : C) (ok : Bool)
  | call (c : C) (k : Call n)
  | timer (c : C)
  | intr (k : Fin n) (ch : Nat)

variable {P : Protocol} {C : Type} {n : Nat}

section Step

variable [DecidableEq C]

def St.goto (s : St P C n) (p : Fin n) (pc : Pc n) : St P C n :=
  { s with pc := update s.pc p pc }

def St.modify (s : St P C n) (k : Fin n) (f : Proc n → Proc n) : St P C n :=
  { s with proc := update s.proc k (f (s.proc k)) }

def St.setLock (s : St P C n) (k : Fin n) (o : Option C) : St P C n :=
  { s with plock := update s.plock k o }

def St.setCpu (s : St P C n) (c : C) (x : Cpu n) : St P C n :=
  { s with cpu := update s.cpu c x }

/-- `acquire(&proc[k].lock)` by `p` on CPU `c`: waits while it is held. -/
def acquire (s : St P C n) (c : C) (p k : Fin n) (pc : Pc n) : Option (St P C n) :=
  if s.plock k = none then some ((s.setLock k (some c)).goto p pc) else none

/-- `release(&proc[k].lock)`. -/
def release (s : St P C n) (p k : Fin n) (pc : Pc n) : St P C n := (s.setLock k none).goto p pc

def acquireWait (s : St P C n) (c : C) (p : Fin n) (pc : Pc n) : Option (St P C n) :=
  if s.wait_lock = none then some { s.goto p pc with wait_lock := some c } else none

def acquireLk (s : St P C n) (c : C) (p : Fin n) (pc : Pc n) : Option (St P C n) :=
  if s.lk = none then some { s.goto p pc with lk := some c } else none

/-- `sched()`, called by `p` on CPU `c`. -/
def sched (s : St P C n) (c : C) (p : Fin n) (pc : Pc n) : St P C n :=
  match (s.cpu c).proc with
  | none => { s with panicked := some .schedLock }
  | some q =>
    if s.plock q ≠ some c then { s with panicked := some .schedLock }
    else if (s.proc q).state = .running then { s with panicked := some .schedRunning }
    else (s.goto p pc).setCpu c { s.cpu c with thread := .back p }

/-- `wakeup`'s test of a slot. -/
def Proc.woken (chan : Option (Chan n)) (q : Proc n) : Proc n :=
  if q.state = .sleeping ∧ q.chan = chan then { q with state := .runnable } else q

/-- `kkill`'s mark on its victim. -/
def Proc.kill (q : Proc n) : Proc n :=
  { q with killed := true, state := if q.state = .sleeping then .runnable else q.state }

/-- After `wakeup`. -/
def Ret.pc : Ret → Pc n
  | .user => .user
  | .reparent k => .exitReparent (k + 1)
  | .exit => .exitOwn
  | .cond => .condRel

/-- `allocproc` and the copying in `kfork`, with the lock of slot `k`. -/
def forkHold (s : St P C n) (p k : Fin n) (ok : Bool) : St P C n :=
  if (s.proc k).state = .unused then
    if ok then
      { ((release s p k (.forkParent k)).goto k .forkret |>.modify k fun q =>
          { q with pid := s.nextpid, state := .used }) with nextpid := s.nextpid + 1 }
    else
      { (release s p k .user).modify k freeproc with nextpid := s.nextpid + 1 }
  else release s p k (.forkScan (k + 1))

/-- `kwait` with the lock of its child `k`. -/
def waitHold (s : St P C n) (p k : Fin n) (ok : Bool) : St P C n :=
  if (s.proc k).state = .zombie then
    if ok then { ((release s p k .user).goto k .dead).modify k freeproc with wait_lock := none }
    else { release s p k .user with wait_lock := none }
  else release s p k (.waitScan (k + 1) true)

/-- The end of `sleep`, and where its caller goes on. -/
def sleepReacq (s : St P C n) (c : C) (p : Fin n) : Lk → Option (St P C n)
  | .wait => acquireWait s c p (.waitScan 0 false)
  | .cond => acquireLk s c p .condTest
  | .other => some (s.goto p .user)

/-- `release(lk)` in `sleep`. -/
def sleepRel (s : St P C n) (p : Fin n) (chan : Chan n) (lk : Lk) : St P C n :=
  let s := s.goto p (.sleepSet chan lk)
  match lk with
  | .wait => { s with wait_lock := none }
  | .cond => { s with lk := none }
  | .other => s

/-- One pass of `reparent`'s loop, and `wakeup(p->parent)` after it. -/
def exitReparent (init : Fin n) (s : St P C n) (p : Fin n) (k : Nat) : St P C n :=
  if h : k < n then
    if (s.proc ⟨k, h⟩).parent = some p then
      (s.modify ⟨k, h⟩ fun q => { q with parent := some init }).goto p
        (.wake (some (.proc init)) 0 (.reparent k))
    else s.goto p (.exitReparent (k + 1))
  else s.goto p (.wake ((s.proc p).parent.map .proc) 0 .exit)

/-- The next step of the thread of `p`, running on CPU `c`. -/
def runPc (init : Fin n) (s : St P C n) (c : C) (p : Fin n) (ok : Bool) :
    Pc n → Option (St P C n)
  | .dead | .user => none
  | .forkret => some (release s p p .user)
  | .yieldAcq pc => acquire s c p p (.yieldSet pc)
  | .yieldSet pc => some ((s.modify p fun q => { q with state := .runnable }).goto p (.yieldSched pc))
  | .yieldSched pc => some (sched s c p (.yieldBack pc))
  | .yieldBack pc => some (release s p p pc)
  | .sleepAcq chan lk => acquire s c p p (.sleepRel chan lk)
  | .sleepRel chan lk => some (sleepRel s p chan lk)
  | .sleepSet chan lk =>
    some ((s.modify p fun q => { q with chan := some chan, state := .sleeping }).goto p
      (.sleepSched lk))
  | .sleepSched lk => some (sched s c p (.sleepBack lk))
  | .sleepBack lk =>
    some ((release s p p (.sleepReacq lk)).modify p fun q => { q with chan := none })
  | .sleepReacq lk => sleepReacq s c p lk
  | .wake chan k ret =>
    if h : k < n then
      if k = p.val then some (s.goto p (.wake chan (k + 1) ret))
      else acquire s c p ⟨k, h⟩ (.wakeHold chan ⟨k, h⟩ ret)
    else some (s.goto p ret.pc)
  | .wakeHold chan k ret =>
    some ((release s p k (.wake chan (k + 1) ret)).modify k (Proc.woken chan))
  | .killScan pid k =>
    if h : k < n then acquire s c p ⟨k, h⟩ (.killHold pid ⟨k, h⟩) else some (s.goto p .user)
  | .killHold pid k =>
    if (s.proc k).pid = pid then some ((release s p k .user).modify k Proc.kill)
    else some (release s p k (.killScan pid (k + 1)))
  | .forkScan k =>
    if h : k < n then acquire s c p ⟨k, h⟩ (.forkHold ⟨k, h⟩) else some (s.goto p .user)
  | .forkHold k => some (forkHold s p k ok)
  | .forkParent np =>
    if s.wait_lock = none then
      some ((s.modify np fun q => { q with parent := some p }).goto p (.forkAcq np))
    else none
  | .forkAcq np => acquire s c p np (.forkRun np)
  | .forkRun np =>
    some ((release s p np .user).modify np fun q => { q with state := .runnable })
  | .exitAcq => acquireWait s c p (.exitReparent 0)
  | .exitReparent k => some (exitReparent init s p k)
  | .exitOwn => acquire s c p p .exitZombie
  | .exitZombie =>
    some { (s.modify p fun q => { q with state := .zombie }).goto p .exitSched with
      wait_lock := none }
  | .exitSched => some (sched s c p .exitBack)
  | .exitBack => some { s with panicked := some .zombieExit }
  | .waitAcq => acquireWait s c p (.waitScan 0 false)
  | .waitScan k havekids =>
    if h : k < n then
      if (s.proc ⟨k, h⟩).parent = some p then acquire s c p ⟨k, h⟩ (.waitHold ⟨k, h⟩)
      else some (s.goto p (.waitScan (k + 1) havekids))
    else some (s.goto p (.waitEnd havekids))
  | .waitHold k => some (waitHold s p k ok)
  | .waitEnd havekids =>
    if s.plock p = none then
      if ¬ havekids ∨ (s.proc p).killed then some { s.goto p .user with wait_lock := none }
      else some (s.goto p (.sleepAcq (.proc p) .wait))
    else none
  | .condAcq => acquireLk s c p .condTest
  | .condTest =>
    if P.cond s.data then some { s.goto p .condRel with data := P.pass (s.proc p).pid s.data }
    else some (s.goto p (.sleepAcq .cond .cond))
  | .condRel => some { s.goto p .user with lk := none }
  | .makeAcq a => acquireLk s c p (.makeSet a)
  | .makeSet a => some { s.goto p (.wake (some .cond) 0 .cond) with data := P.make a s.data }

/-- The next step of the scheduler of CPU `c`, or of the process on it. -/
def runCpu (init : Fin n) (s : St P C n) (c : C) (ok : Bool) : Thread n → Option (St P C n)
  | .scan k =>
    if h : k < n then
      if s.plock ⟨k, h⟩ = none then
        some ((s.setLock ⟨k, h⟩ (some c)).setCpu c { s.cpu c with thread := .hold ⟨k, h⟩ })
      else none
    else some (s.setCpu c { s.cpu c with thread := .scan 0 })
  | .hold k =>
    if (s.proc k).state = .runnable then
      some ((s.modify k fun q => { q with state := .running }).setCpu c
        { proc := some k, thread := .run k })
    else some ((s.setLock k none).setCpu c { s.cpu c with thread := .scan (k + 1) })
  | .back k => some ((s.setLock k none).setCpu c { proc := none, thread := .scan (k + 1) })
  | .run p => runPc init s c p ok (s.pc p)

/-- Interrupts are on where a process holds no spin lock. -/
def Pc.interruptible : Pc n → Bool
  | .user | .sleepReacq _ | .killScan .. | .forkScan _ | .forkParent _ | .forkAcq _ | .exitAcq
  | .waitAcq | .condAcq | .makeAcq _ => true
  | .wake _ _ ret => ret = .user
  | _ => false

/-- The start of a call. -/
def startCall (init : Fin n) (s : St P C n) (p : Fin n) : Call n → St P C n
  | .fork => s.goto p (.forkScan 0)
  | .exit => if p = init then { s with panicked := some .initExiting } else s.goto p .exitAcq
  | .wait => s.goto p .waitAcq
  | .kill pid => s.goto p (.killScan pid 0)
  | .sleep ch => s.goto p (.sleepAcq (.other ch) .other)
  | .wakeup ch => s.goto p (.wake (some (.other ch)) 0 .user)
  | .await => s.goto p .condAcq
  | .make a => s.goto p (.makeAcq a)

def step (init : Fin n) (s : St P C n) (l : Lbl C n) : Option (St P C n) :=
  if s.panicked ≠ none then none
  else
    match l with
    | .cpu c ok => runCpu init s c ok (s.cpu c).thread
    | .call c k =>
      match (s.cpu c).thread with
      | .run p => if s.pc p = .user then some (startCall init s p k) else none
      | _ => none
    | .timer c =>
      match (s.cpu c).thread with
      | .run p => if (s.pc p).interruptible then some (s.goto p (.yieldAcq (s.pc p))) else none
      | _ => none
    | .intr k ch =>
      if s.plock k = none then some (s.modify k (Proc.woken (some (.other ch)))) else none

/-- After `userinit`, with all CPUs in their schedulers and some data behind `lk`. -/
def Init (init : Fin n) (s : St P C n) : Prop :=
  (∀ i, s.proc i = if i = init then ⟨.runnable, none, false, 1, none⟩
    else ⟨.unused, none, false, 0, none⟩) ∧
  (∀ i, s.pc i = if i = init then .forkret else .dead) ∧ (∀ i, s.plock i = none) ∧
  (∀ c, s.cpu c = ⟨none, .scan 0⟩) ∧ s.wait_lock = none ∧ s.lk = none ∧ s.nextpid = 2 ∧
  s.panicked = none

/-- One such state. -/
def boot (init : Fin n) (d : P.Data) : St P C n where
  proc i := if i = init then ⟨.runnable, none, false, 1, none⟩
    else ⟨.unused, none, false, 0, none⟩
  pc i := if i = init then .forkret else .dead
  plock _ := none
  cpu _ := ⟨none, .scan 0⟩
  wait_lock := none
  lk := none
  data := d
  nextpid := 2
  panicked := none

omit [DecidableEq C] in
theorem boot_init (init : Fin n) (d : P.Data) : Init init (boot init d : St P C n) :=
  ⟨fun _ => rfl, fun _ => rfl, fun _ => rfl, fun _ => rfl, rfl, rfl, rfl, rfl⟩

def sys (P : Protocol) (C : Type) [DecidableEq C] (init : Fin n) :
    System (St P C n) (Lbl C n) := ⟨Init init, step init⟩

end Step

end Xv6.Sched
