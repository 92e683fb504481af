import Xv6.Lib.System
import Xv6.Fs.Basic

/-!
# Xv6.Filewrite.Basic — writing through a shared descriptor

The `FD_INODE` branch of `filewrite` (kernel/file.c), run by any number of processes on one
`struct file`. A call writes its bytes in chunks, each in a transaction of its own and under
the lock of the inode; `f->off` is read by `writei` and advanced after it. Between the chunks
of one call other processes run. Meanwhile other files are written too, and compete for the
blocks of the disk.
-/

namespace Xv6.Filewrite

open Lib Fs

/-- `max`, the most bytes that are written at a time. -/
def maxChunk : Nat := (MAXOPBLOCKS - 1 - 1 - 2) / 2 * BSIZE

/-- The arguments of a call: the user's memory from `addr` on, and the number of bytes. -/
structure Call where
  src : Nat → Option Byte
  n : Nat

/-- `n1`, when `i` bytes have been written. -/
def Call.n1 (c : Call) (i : Nat) : Nat := min (c.n - i) maxChunk

/-- The bytes from `i` on, `m` of them. -/
def Call.bytes (c : Call) (i m : Nat) : List Byte :=
  (List.range m).map fun k => (c.src (i + k)).getD 0

/-- Where a process is. `r` is what `writei` returned. -/
inductive Pc
  | idle (ret : Int)
  | top (c : Call) (i : Nat)
  | locked (c : Call) (i : Nat)
  | wrote (c : Call) (i : Nat) (r : Option Nat)
  | advanced (c : Call) (i : Nat) (r : Option Nat)

/-- `off` is `f->off`. The last two fields record what happened: the bytes of all calls a
process has made, and the chunks that were written, in the order of the lock. -/
structure St (P : Type) where
  fs : Fs.St
  off : Nat
  pc : P → Pc
  given : P → List (List Byte)
  hist : List (P × List Byte)

inductive Act (P : Type)
  | call (p : P) (c : Call)
  | lock (p : P)
  | write (p : P)
  | advance (p : P)
  | unlock (p : P)
  | ret (p : P)
  | other (j : Nat) (src : Nat → Option Byte) (off n : Nat)

/-- A write to another file. -/
def writeOther (sb : Super) (j : Nat) (src : Nat → Option Byte) (off n : Nat) : F Unit := do
  ilock j
  let _ ← writei sb j src off n
  iunlock j

/-- The result of a call that has written `i` bytes. -/
def Call.ret (c : Call) (i : Nat) : Int := if i = c.n then c.n else -1

section
variable {P : Type} [DecidableEq P]

def St.setPc (s : St P) (p : P) (pc : Pc) : St P := { s with pc := Function.update s.pc p pc }

/-- The atomic steps of the processes that share the file with inode `inum`. -/
def step (sb : Super) (inum : Nat) (s : St P) : Act P → Option (St P)
  | .call p c =>
    match s.pc p with
    | .idle _ => some { s.setPc p (.top c 0) with
        given := Function.update s.given p (s.given p ++ [c.bytes 0 c.n]) }
    | _ => none
  | .lock p =>
    match s.pc p with
    | .top c i =>
      if i < c.n then
        match ilock inum s.fs with
        | .ok ((), fs) => some { s.setPc p (.locked c i) with fs }
        | .error _ => none
      else none
    | _ => none
  | .write p =>
    match s.pc p with
    | .locked c i =>
      match writei sb inum (fun k => c.src (i + k)) s.off (c.n1 i) s.fs with
      | .ok (r, fs) => some { s.setPc p (.wrote c i r) with
          fs, hist := s.hist ++ [(p, c.bytes i (r.getD 0))] }
      | .error _ => none
    | _ => none
  | .advance p =>
    match s.pc p with
    | .wrote c i r => some { s.setPc p (.advanced c i r) with off := u32 (s.off + r.getD 0) }
    | _ => none
  | .unlock p =>
    match s.pc p with
    | .advanced c i r =>
      match iunlock inum s.fs with
      | .ok ((), fs) =>
        -- a chunk that was not written in full ends the call
        if r = some (c.n1 i) then some { s.setPc p (.top c (i + c.n1 i)) with fs }
        else some { s.setPc p (.idle (c.ret i)) with fs }
      | .error _ => none
    | _ => none
  | .ret p =>
    match s.pc p with
    | .top c i => if i < c.n then none else some (s.setPc p (.idle (c.ret i)))
    | _ => none
  | .other j src off n =>
    if j ≠ inum ∧ n < 2 ^ 32 then
      match writeOther sb j src off n s.fs with
      | .ok ((), fs) => some { s with fs }
      | .error _ => none
    else none

end

end Xv6.Filewrite
