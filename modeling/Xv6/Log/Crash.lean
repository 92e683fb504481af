import Mathlib.Algebra.Group.Nat.Defs
import Xv6.Block
import Xv6.Lib.Writes
import Xv6.Log.Group

/-!
# Xv6.Log.Crash — the log on disk, crashes and recovery

`commit()` and `recover_from_log()` as a machine over a disk and a buffer cache, with at
most one block write in each step; a crash may come between any two steps and loses
everything but the disk. Block writes are atomic and reach the disk in order.

`touch` is a change of a cached block by the file system, `logWrite` its `log_write`, `evict`
the reuse of an unpinned buffer. They happen while no commit is running (group commit keeps
operations out of `commit()`), and only on home blocks: the log area is `start` to
`start + LOGBLOCKS`.

The history: `begun` are the transactions handed to `commit()` since the last recovery, each
with the contents it asks for, `done` is how many of them had their header written, and
`base` is the disk they started from.
-/

namespace Xv6.Log

open Lib Function

/-! ## The log header -/

/-- The header of `write_head`: `n`, then the block numbers; the words after them stay. -/
def setHead (b : Block) (lh : List Nat) : Block :=
  (lh.zipIdx 1).foldl (fun b e => b.setWord e.2 (BitVec.ofNat 32 e.1))
    (b.setWord 0 (BitVec.ofNat 32 lh.length))

/-- The header as `read_head` reads it. -/
def getHead (b : Block) : List Nat :=
  (List.range (b.getWord 0).toInt.toNat).map fun i => (b.getWord (i + 1)).toNat

namespace Crash

/-- A transaction: the blocks in the header with their contents. -/
abbrev Txn : Type := List (Nat × Block)

/-- Where the machine is. `running` is outside `commit()`; `recovered` is the return of
`recover_from_log()`. -/
inductive Phase where
  | running
  | writeLog (tail : Nat)
  | commitHead
  | install (tail : Nat)
  | clearHead
  | readHead
  | recInstall (tail : Nat)
  | recClear
  | recovered
deriving DecidableEq, Repr

structure St where
  disk : Nat → Block
  cache : Nat → Option Block
  lh : List Nat
  phase : Phase
  base : Nat → Block
  begun : List Txn
  done : Nat

inductive Lbl where
  | touch (b : Nat) (d : Block)
  | logWrite (b : Nat)
  | evict (b : Nat)
  | commit
  | tick
  | crash
  | resume

/-- A block outside the log area. -/
def Home (start b : Nat) : Prop := b < start ∨ start + LOGBLOCKS < b

instance (start b : Nat) : Decidable (Home start b) := inferInstanceAs (Decidable (_ ∨ _))

/-- The contents `bread(b)` returns. -/
def St.bread (s : St) (b : Nat) : Block := (s.cache b).getD (s.disk b)

/-- `bread(b)`, an assignment of its contents, and `bwrite`. -/
def St.bwrite (s : St) (b : Nat) (d : Block) : St :=
  { s with
    disk := update s.disk b d
    cache := update s.cache b (some d) }

/-- `write_head()`. -/
def St.writeHead (s : St) (start : Nat) : St := s.bwrite start (setHead (s.bread start) s.lh)

/-- One pass of `install_trans`'s loop. -/
def St.installOne (s : St) (start tail : Nat) : St :=
  s.bwrite (s.lh.getD tail 0) (s.bread (start + tail + 1))

/-- The blocks that `bpin` keeps in the cache. -/
def St.pinned (s : St) : List Nat :=
  match s.phase with
  | .running | .writeLog _ | .commitHead => s.lh
  | .install tail => s.lh.drop tail
  | _ => []

/-- The next step of `commit()` or `recover_from_log()`. -/
def tick (start : Nat) (s : St) : Option St :=
  match s.phase with
  | .running | .recovered => none
  | .writeLog tail =>
    some (if tail < s.lh.length then
        { s.bwrite (start + tail + 1) (s.bread (s.lh.getD tail 0)) with
          phase := .writeLog (tail + 1) }
      else { s with phase := .commitHead })
  | .commitHead => some { s.writeHead start with phase := .install 0, done := s.done + 1 }
  | .install tail =>
    some (if tail < s.lh.length then
        { s.installOne start tail with phase := .install (tail + 1) }
      else { s with lh := [], phase := .clearHead })
  | .clearHead => some { s.writeHead start with phase := .running }
  | .readHead => some { s with lh := getHead (s.bread start), phase := .recInstall 0 }
  | .recInstall tail =>
    some (if tail < s.lh.length then
        { s.installOne start tail with phase := .recInstall (tail + 1) }
      else { s with lh := [], phase := .recClear })
  | .recClear => some { s.writeHead start with phase := .recovered }

/-- One step. -/
def step (start : Nat) (s : St) : Lbl → Option St
  | .touch b d =>
    if s.phase = .running ∧ Home start b then
      some { s with cache := update s.cache b (some d) }
    else none
  | .logWrite b =>
    if s.phase = .running ∧ Home start b ∧ b < 2 ^ 32 ∧ (s.cache b).isSome ∧
        s.lh.length < LOGBLOCKS then
      some { s with lh := absorb s.lh b }
    else none
  | .evict b =>
    if b ∉ s.pinned then some { s with cache := update s.cache b none } else none
  | .commit =>
    if s.phase = .running then
      some (if 0 < s.lh.length then
          { s with
            phase := .writeLog 0
            begun := s.begun ++ [s.lh.map fun b => (b, s.bread b)] }
        else s)
    else none
  | .tick => tick start s
  | .crash => some { s with cache := fun _ => none, lh := [], phase := .readHead }
  | .resume =>
    if s.phase = .recovered then
      some { s with phase := .running, base := s.disk, begun := [], done := 0 }
    else none

/-- Power on, with an empty log on disk. The words of the header after `n` may be anything. -/
def Init (start : Nat) (s : St) : Prop :=
  (s.disk start).getWord 0 = 0 ∧ (∀ b, s.cache b = none) ∧ s.lh = [] ∧ s.phase = .readHead ∧
  s.base = s.disk ∧ s.begun = [] ∧ s.done = 0

/-- The machine, for a log that starts at block `start`. -/
def sys (start : Nat) : System St Lbl := ⟨Init start, step start⟩

end Crash

end Xv6.Log
