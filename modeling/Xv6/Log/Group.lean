import Xv6.Bio
import Xv6.Lib.System

/-!
# Xv6.Log.Group — operations sharing the log

`begin_op`, `log_write`, `end_op` and `commit` of `kernel/log.c` as a labelled system
over any number of processes. Each section under `log.lock` is one atomic step.
`commit()` runs without the lock, so every buffer it gets or gives back is a step of
its own, open to interleaving with everybody else. Between `begin_op` and `end_op`
(and outside) a process may also `bread` and `brelse` whatever blocks it likes.

A panic stops the machine: it is recorded, and no step follows.
-/

namespace Xv6.Log

open Lib Xv6.Bio Function

/-- The panics of `log.c` and `bio.c` that a step can end in. -/
inductive Panic where
  | logCommitting        -- "log.committing"
  | tooBigTransaction    -- "too big a transaction"
  | outsideTrans         -- "log_write outside of trans"
  | noBuffers            -- "bget: no buffers"
deriving DecidableEq, Repr

/-- The places inside `commit()`. Each names the call made next, with the loop index of
`write_log` and `install_trans` and the buffers (by index) held there. -/
inductive Commit where
  | start
  | logTo (tail : Nat)
  | logFrom (tail tbuf : Nat)
  | logRelFrom (tail tbuf fbuf : Nat)
  | logRelTo (tail tbuf : Nat)
  | head (erase : Bool)
  | headRel (erase : Bool) (buf : Nat)
  | insLog (tail : Nat)
  | insDst (tail lbuf : Nat)
  | insUnpin (tail lbuf dbuf : Nat)
  | insRelLog (tail lbuf dbuf : Nat)
  | insRelDst (tail dbuf : Nat)
  | clear
  | done
deriving DecidableEq, Repr

/-- Where a process is: outside, at the loop test of `begin_op`, asleep there on `&log`,
inside an operation, or committing in `end_op`. -/
inductive Pc where
  | out
  | begin
  | asleep
  | inOp
  | commit (k : Commit)
deriving DecidableEq, Repr

/-- `struct log` (its header as the list of logged block numbers), the buffer cache, and
the processes. `held` lists the buffers obtained by `bread` and not yet released, with
their holders; `wrote p` the distinct blocks `p` has logged in its current operation. -/
structure St (Pid : Type) where
  lh : List Nat
  outstanding : Int
  committing : Bool
  cache : Bcache
  pc : Pid → Pc
  held : List (Pid × Nat)
  wrote : Pid → List Nat
  panic : Option Panic

/-- After `initlog`: the log is empty, nobody is in an operation, no buffer is in use. -/
def Init {Pid : Type} (s : St Pid) : Prop :=
  s.lh = [] ∧ s.outstanding = 0 ∧ s.committing = false ∧ (∀ p, s.pc p = .out) ∧ s.held = [] ∧
  s.panic = none ∧
  s.cache.bufs.length = NBUF ∧ (s.cache.bufs.map Buf.id).Nodup ∧
  (∀ b ∈ s.cache.bufs, b.refcnt = 0) ∧
  ∀ b ∈ s.cache.bufs, ∀ b' ∈ s.cache.bufs,
    b.dev = b'.dev → b.blockno = b'.blockno → b.dev ≠ 0 → b.id = b'.id

/-- The atomic actions. `wake` is `kkill` making a sleeper run; `run` is the next piece of
`commit()`, or the last section of `end_op` after it. -/
inductive Lbl (Pid : Type) where
  | enter (p : Pid)
  | beginOp (p : Pid)
  | wake (p : Pid)
  | bread (p : Pid) (blockno : Nat)
  | logWrite (p : Pid) (buf : Nat)
  | brelse (p : Pid) (buf : Nat)
  | endOp (p : Pid)
  | run (p : Pid)
deriving DecidableEq, Repr

variable {Pid : Type}

/-- `wakeup(&log)`. -/
def St.wakeup (s : St Pid) : St Pid :=
  { s with pc := fun q => if s.pc q = .asleep then .begin else s.pc q }

/-- Log absorption: the header after `log_write` of block `x`. -/
def absorb (lh : List Nat) (x : Nat) : List Nat := if x ∈ lh then lh else lh ++ [x]

/-- The block a buffer holds. -/
def St.blockOf (s : St Pid) (i : Nat) : Option Nat :=
  (s.cache.bufs.find? fun b => b.id = i).map Buf.blockno

section Step

variable [DecidableEq Pid]

/-- Process `p` moves on to `pc`. -/
def St.goto (s : St Pid) (p : Pid) (pc : Pc) : St Pid :=
  { s with pc := update s.pc p pc }

/-- `bread(dev, blockno)` by `p` on the one disk there is; `p` goes on to `next` with the
buffer. -/
def St.bread (s : St Pid) (p : Pid) (blockno : Nat) (next : Nat → Pc) : St Pid :=
  match bget s.cache ROOTDEV blockno with
  | none => { s with panic := some .noBuffers }
  | some (i, c) => { s.goto p (next i) with cache := c, held := (p, i) :: s.held }

/-- `brelse(buf)` by `p`. -/
def St.brelse (s : St Pid) (p : Pid) (i : Nat) (next : Pc) : St Pid :=
  { s.goto p next with cache := Bio.brelse s.cache i, held := s.held.erase (p, i) }

/-- One pass of `begin_op`'s loop. -/
def beginOp (s : St Pid) (p : Pid) : St Pid :=
  if s.committing then s.goto p .asleep
  else if s.lh.length + (s.outstanding + 1) * MAXOPBLOCKS > LOGBLOCKS then s.goto p .asleep
  else { s.goto p .inOp with
    outstanding := s.outstanding + 1
    wrote := update s.wrote p [] }

/-- `log_write(b)` for the buffer `i` holding block `x`. -/
def logWrite (s : St Pid) (p : Pid) (i x : Nat) : St Pid :=
  if s.lh.length ≥ LOGBLOCKS then { s with panic := some .tooBigTransaction }
  else if s.outstanding < 1 then { s with panic := some .outsideTrans }
  else
    { s with
      lh := absorb s.lh x
      cache := if x ∈ s.lh then s.cache else bpin s.cache i
      wrote := update s.wrote p (absorb (s.wrote p) x) }

/-- The first section of `end_op`. -/
def endOp (s : St Pid) (p : Pid) : St Pid :=
  let s := { s with outstanding := s.outstanding - 1 }
  if s.committing then { s with panic := some .logCommitting }
  else if s.outstanding = 0 then { s.goto p (.commit .start) with committing := true }
  else s.wakeup.goto p .out

/-- The next piece of `commit()`; at its end, the last section of `end_op`. `start` is
`log.start`; the block writes themselves do not touch this state. -/
def commitStep (start : Nat) (s : St Pid) (p : Pid) : Commit → St Pid
  | .start => s.goto p (.commit (if 0 < s.lh.length then .logTo 0 else .done))
  | .logTo tail =>
    if tail < s.lh.length then
      s.bread p (start + tail + 1) fun tbuf => .commit (.logFrom tail tbuf)
    else s.goto p (.commit (.head false))
  | .logFrom tail tbuf =>
    s.bread p (s.lh.getD tail 0) fun fbuf => .commit (.logRelFrom tail tbuf fbuf)
  | .logRelFrom tail tbuf fbuf => s.brelse p fbuf (.commit (.logRelTo tail tbuf))
  | .logRelTo tail tbuf => s.brelse p tbuf (.commit (.logTo (tail + 1)))
  | .head erase => s.bread p start fun buf => .commit (.headRel erase buf)
  | .headRel erase buf => s.brelse p buf (.commit (if erase then .done else .insLog 0))
  | .insLog tail =>
    if tail < s.lh.length then
      s.bread p (start + tail + 1) fun lbuf => .commit (.insDst tail lbuf)
    else s.goto p (.commit .clear)
  | .insDst tail lbuf =>
    s.bread p (s.lh.getD tail 0) fun dbuf => .commit (.insUnpin tail lbuf dbuf)
  | .insUnpin tail lbuf dbuf =>
    { s.goto p (.commit (.insRelLog tail lbuf dbuf)) with cache := bunpin s.cache dbuf }
  | .insRelLog tail lbuf dbuf => s.brelse p lbuf (.commit (.insRelDst tail dbuf))
  | .insRelDst tail dbuf => s.brelse p dbuf (.commit (.insLog (tail + 1)))
  | .clear => { s.goto p (.commit (.head true)) with lh := [] }
  | .done => { s.wakeup.goto p .out with committing := false }

/-- One atomic action. -/
def step (start : Nat) (s : St Pid) (l : Lbl Pid) : Option (St Pid) :=
  if s.panic ≠ none then none
  else
    match l with
    | .enter p => if s.pc p = .out then some (s.goto p .begin) else none
    | .beginOp p => if s.pc p = .begin then some (beginOp s p) else none
    | .wake p => if s.pc p = .asleep then some (s.goto p .begin) else none
    | .bread p blockno =>
      if s.pc p = .out ∨ s.pc p = .inOp then some (s.bread p blockno fun _ => s.pc p) else none
    | .logWrite p i =>
      if s.pc p = .inOp ∧ (p, i) ∈ s.held then
        (s.blockOf i).map fun x => logWrite s p i x
      else none
    | .brelse p i =>
      if (s.pc p = .out ∨ s.pc p = .inOp) ∧ (p, i) ∈ s.held then
        some (s.brelse p i (s.pc p))
      else none
    | .endOp p => if s.pc p = .inOp then some (endOp s p) else none
    | .run p => match s.pc p with
      | .commit k => some (commitStep start s p k)
      | _ => none

/-- The log system, for a log that starts at block `start`. -/
def sys (Pid : Type) [DecidableEq Pid] (start : Nat) : System (St Pid) (Lbl Pid) :=
  ⟨Init, step start⟩

end Step

/-- Three processes, an empty log, a cache as `binit` leaves it. -/
def idle3 : St (Fin 3) where
  lh := []
  outstanding := 0
  committing := false
  cache := binit
  pc := fun _ => .out
  held := []
  wrote := fun _ => []
  panic := none

theorem idle3_init : Init idle3 :=
  ⟨rfl, rfl, rfl, fun _ => rfl, rfl, rfl, by decide, by decide, by decide, by decide⟩

end Xv6.Log
