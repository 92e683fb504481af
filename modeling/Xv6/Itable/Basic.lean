import Mathlib.Data.Fintype.Prod
import Xv6.Fs.Basic
import Xv6.Lib.System

/-!
# Xv6.Itable.Basic — the inode table under concurrency

The `n` entries of `itable` (`NINODE` of them in the kernel), the on-disk inodes as the buffer
cache shows them, and the processes `P` that run `iget`, `idup`, `ilock`, `iupdate`,
`iunlock`, `iput` and `ialloc` on them. A section under `itable.lock` is one action, and so is
an access to an on-disk inode between `bread` and `brelse`; everything else is cut into single
assignments. The freeing path of `iput` gives up `itable.lock` before it truncates, so its
seven actions interleave with all others.

`K` are the pointers to table entries: open files, current directories, variables. Several
processes may work through one pointer, but nobody drops a pointer that another one is using
or has locked an inode with, and nobody unlocks an inode that was changed and not copied to
disk. `gen` and `dirty` are history: `gen` counts how often a number has been allocated, and
an entry remembers the count that its copy was read with.
-/

namespace Xv6.Itable

open Lib Fs Function

/-- `struct inode`. -/
structure Entry (P K : Type) where
  dev : Nat
  inum : Nat
  ref : Nat
  lock : Option (P × K)
  valid : Bool
  d : Dinode
  gen : Nat
  dirty : Bool

/-- An on-disk inode, with the number of its allocations. -/
structure DiskInode where
  d : Dinode
  gen : Nat

/-- The actions of `ilock`. -/
inductive LockStage where
  | wait | load | loaded
deriving DecidableEq

/-- The actions of the freeing path of `iput`. -/
inductive PutStage where
  | trunc | truncUpdate | type | update | valid | unlock | ref
deriving DecidableEq

inductive Pc (n : Nat) (K : Type) where
  | idle
  | lock (stage : LockStage) (k : K) (i : Fin n)
  | put (stage : PutStage) (k : K) (i : Fin n)
  | allocScan (k : K) (dev : Nat) (type : FType) (inum : Nat)
  | allocGet (k : K) (dev inum : Nat)
deriving DecidableEq

inductive Panic where
  | igetNoInodes | ilock | ilockNoType | iunlock | schedLocks
deriving DecidableEq

structure St (n : Nat) (P K : Type) where
  inode : Fin n → Entry P K
  disk : Nat → Nat → DiskInode
  ptr : K → Option (Fin n)
  pc : P → Pc n K
  panic : Option Panic

/-- The calls; `run` is the next action of a process inside one. -/
inductive Lbl (n : Nat) (P K : Type) where
  | iget (p : P) (k : K) (dev inum : Nat)
  | idup (p : P) (k k' : K)
  | ilock (p : P) (k : K)
  | change (p : P) (i : Fin n) (d : Dinode)
  | iupdate (p : P) (i : Fin n)
  | iunlock (p : P) (k : K)
  | iput (p : P) (k : K)
  | ialloc (p : P) (k : K) (dev : Nat) (type : FType)
  | run (p : P)

variable {n : Nat} {P K : Type}

/-- The pointer that a call is working with. -/
def Pc.token : Pc n K → Option K
  | .idle => none
  | .lock _ k _ | .put _ k _ | .allocScan k .. | .allocGet k .. => some k

/-- The pointer that an `iput` is about to drop. -/
def Pc.puts : Pc n K → Option K
  | .put _ k _ => some k
  | _ => none

/-- Nobody is using the pointer `k`. -/
def St.Unused (s : St n P K) (k : K) : Prop :=
  (∀ q, (s.pc q).token ≠ some k) ∧ ∀ i q, (s.inode i).lock ≠ some (q, k)

/-- Nobody is dropping the pointer `k`. -/
def St.Kept (s : St n P K) (k : K) : Prop :=
  ∀ q, (s.pc q).puts ≠ some k

section
variable [DecidableEq P] [DecidableEq K]

instance [Fintype P] (s : St n P K) (k : K) : Decidable (s.Unused k) :=
  inferInstanceAs (Decidable (_ ∧ _))

instance [Fintype P] (s : St n P K) (k : K) : Decidable (s.Kept k) :=
  inferInstanceAs (Decidable (∀ _, _))

def St.goto (s : St n P K) (p : P) (pc : Pc n K) : St n P K :=
  { s with pc := update s.pc p pc }

def St.set (s : St n P K) (i : Fin n) (e : Entry P K) : St n P K :=
  { s with inode := update s.inode i e }

def St.stop (s : St n P K) (e : Panic) : St n P K :=
  { s with panic := some e }

/-- The on-disk inode of entry `i`. -/
def St.onDisk (s : St n P K) (i : Fin n) : DiskInode :=
  s.disk (s.inode i).dev (s.inode i).inum

def St.setDisk (s : St n P K) (dev inum : Nat) (x : DiskInode) : St n P K :=
  { s with disk := update s.disk dev (update (s.disk dev) inum x) }

/-! ## References -/

/-- The entry in use for `(dev, inum)`. -/
def St.find (s : St n P K) (dev inum : Nat) : Option (Fin n) :=
  (List.finRange n).find? fun i =>
    0 < (s.inode i).ref ∧ (s.inode i).dev = dev ∧ (s.inode i).inum = inum

/-- The first empty entry. -/
def St.empty (s : St n P K) : Option (Fin n) :=
  (List.finRange n).find? fun i => (s.inode i).ref = 0

/-- `iget`, with the result in `k`. -/
def iget (s : St n P K) (k : K) (dev inum : Nat) : St n P K :=
  match s.find dev inum with
  | some i =>
    { s.set i { s.inode i with ref := (s.inode i).ref + 1 } with
      ptr := update s.ptr k (some i) }
  | none =>
    match s.empty with
    | none => s.stop .igetNoInodes
    | some i =>
      { s.set i { s.inode i with dev := dev, inum := inum, ref := 1, valid := false } with
        ptr := update s.ptr k (some i) }

/-- `ip->ref--`, and the pointer is gone. -/
def dropRef (s : St n P K) (p : P) (k : K) (i : Fin n) : St n P K :=
  { s.set i { s.inode i with ref := (s.inode i).ref - 1 } with
    ptr := update s.ptr k none
    pc := update s.pc p .idle }

/-- The first section of `iput`. To sleep with `itable.lock` held would be a panic. -/
def iput (s : St n P K) (p : P) (k : K) (i : Fin n) : St n P K :=
  if (s.inode i).ref = 1 ∧ (s.inode i).valid = true ∧ (s.inode i).d.nlink = 0 then
    if (s.inode i).lock = none then
      (s.set i { s.inode i with lock := some (p, k) }).goto p (.put .trunc k i)
    else s.stop .schedLocks
  else dropRef s p k i

/-- The freeing path. -/
def putStep (s : St n P K) (p : P) (k : K) (i : Fin n) : PutStage → St n P K
  -- itrunc, its iupdate last
  | .trunc =>
    (s.set i { s.inode i with d := { (s.inode i).d with size := 0, addrs := fun _ => 0 } }).goto p
      (.put .truncUpdate k i)
  | .truncUpdate =>
    (s.setDisk (s.inode i).dev (s.inode i).inum ⟨(s.inode i).d, (s.onDisk i).gen⟩).goto p
      (.put .type k i)
  | .type =>
    (s.set i { s.inode i with d := { (s.inode i).d with type := .none } }).goto p (.put .update k i)
  | .update =>
    (s.setDisk (s.inode i).dev (s.inode i).inum ⟨(s.inode i).d, (s.onDisk i).gen⟩).goto p
      (.put .valid k i)
  | .valid => (s.set i { s.inode i with valid := false }).goto p (.put .unlock k i)
  | .unlock => (s.set i { s.inode i with lock := none, dirty := false }).goto p (.put .ref k i)
  | .ref => dropRef s p k i

/-! ## Locks -/

def lockStep (s : St n P K) (p : P) (k : K) (i : Fin n) : LockStage → Option (St n P K)
  | .wait =>
    if (s.inode i).lock = none then
      some ((s.set i { s.inode i with lock := some (p, k) }).goto p (.lock .load k i))
    else none
  | .load =>
    some (if (s.inode i).valid = true then s.goto p .idle
      else
        (s.set i { s.inode i with d := (s.onDisk i).d, gen := (s.onDisk i).gen, dirty := false }).goto
          p (.lock .loaded k i))
  | .loaded =>
    let t := s.set i { s.inode i with valid := true }
    some (if (s.inode i).d.type = .none then t.stop .ilockNoType else t.goto p .idle)

/-! ## Allocation -/

/-- The visit of one on-disk inode by `ialloc`. -/
def allocVisit (s : St n P K) (p : P) (ninodes : Nat) (k : K) (dev : Nat) (type : FType)
    (inum : Nat) : St n P K :=
  if inum < ninodes then
    if (s.disk dev inum).d.type = .none then
      (s.setDisk dev inum ⟨{ Dinode.zero with type := type }, (s.disk dev inum).gen + 1⟩).goto p
        (.allocGet k dev inum)
    else s.goto p (.allocScan k dev type (inum + 1))
  else s.goto p .idle

def runPc (ninodes : Nat) (s : St n P K) (p : P) : Pc n K → Option (St n P K)
  | .idle => none
  | .lock stage k i => lockStep s p k i stage
  | .put stage k i => some (putStep s p k i stage)
  | .allocScan k dev type inum => some (allocVisit s p ninodes k dev type inum)
  | .allocGet k dev inum => some ((iget s k dev inum).goto p .idle)

/-! ## The system -/

/-- Process `p` has locked entry `i` and is in no call. -/
def St.Holds (s : St n P K) (p : P) (i : Fin n) : Prop :=
  s.pc p = .idle ∧ (s.inode i).lock.map Prod.fst = some p

instance (s : St n P K) (p : P) (i : Fin n) : Decidable (s.Holds p i) :=
  inferInstanceAs (Decidable (_ ∧ _))

variable [Fintype P]

def step (ninodes : Nat) (s : St n P K) (l : Lbl n P K) : Option (St n P K) :=
  if s.panic ≠ none then none
  else
    match l with
    | .iget p k dev inum =>
      if s.pc p = .idle ∧ s.ptr k = none ∧ s.Unused k then some (iget s k dev inum) else none
    | .idup p k k' =>
      match s.ptr k with
      | none => none
      | some i =>
        if s.pc p = .idle ∧ s.Kept k ∧ s.ptr k' = none ∧ s.Unused k' then
          some { s.set i { s.inode i with ref := (s.inode i).ref + 1 } with
            ptr := update s.ptr k' (some i) }
        else none
    | .ilock p k =>
      match s.ptr k with
      | none => none
      | some i =>
        if s.pc p = .idle ∧ s.Kept k then
          some (if (s.inode i).ref < 1 then s.stop .ilock else s.goto p (.lock .wait k i))
        else none
    | .change p i d =>
      -- nobody but ilock and iput assigns to ip->type
      if s.Holds p i then
        some (s.set i { s.inode i with d := { d with type := (s.inode i).d.type }, dirty := true })
      else none
    | .iupdate p i =>
      if s.Holds p i then
        some ((s.set i { s.inode i with dirty := false }).setDisk (s.inode i).dev (s.inode i).inum
          ⟨(s.inode i).d, (s.onDisk i).gen⟩)
      else none
    | .iunlock p k =>
      match s.ptr k with
      | none => none
      | some i =>
        if s.pc p = .idle ∧ (s.inode i).lock = some (p, k) ∧ (s.inode i).dirty = false then
          some (if (s.inode i).ref < 1 then s.stop .iunlock
            else s.set i { s.inode i with lock := none })
        else none
    | .iput p k =>
      match s.ptr k with
      | none => none
      | some i => if s.pc p = .idle ∧ s.Unused k then some (iput s p k i) else none
    | .ialloc p k dev type =>
      if s.pc p = .idle ∧ s.ptr k = none ∧ s.Unused k ∧ type ≠ .none then
        some (s.goto p (.allocScan k dev type 1))
      else none
    | .run p => runPc ninodes s p (s.pc p)

/-- After `iinit`, on any disk. -/
structure Init (s : St n P K) : Prop where
  inode : ∀ i, (s.inode i).ref = 0 ∧ (s.inode i).lock = none
  ptr : ∀ k, s.ptr k = none
  pc : ∀ p, s.pc p = .idle
  panic : s.panic = none

def sys (n : Nat) (P K : Type) [DecidableEq P] [DecidableEq K] [Fintype P] (ninodes : Nat) :
    System (St n P K) (Lbl n P K) :=
  ⟨Init, step ninodes⟩

end

end Xv6.Itable
