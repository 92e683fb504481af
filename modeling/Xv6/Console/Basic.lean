import Xv6.Lib.Queue
import Xv6.Lib.System

/-!
# Xv6.Console.Basic — console input

`consoleintr`, `consoleread` and `consolegetc_nb` of kernel/console.c on the circular buffer of
`cons`. All of them hold `cons.lock`, except where `consoleread` sleeps; so a step of the system
is a whole `consoleintr` or `consolegetc_nb`, or a `consoleread` from where it gets the lock to
where it sleeps or returns.

`typed`, `committed` and `log` are not in the source: the bytes stored so far, the bytes handed
to readers by an advance of `cons.w`, and what each part of a `consoleread` has delivered.
-/

namespace Xv6.Console

open Lib Function

abbrev Byte := BitVec 8

def INPUT_BUF_SIZE : Nat := 128

/-- `C('D')`. -/
def ctrlD : Byte := 0x04
/-- `C('H')`. -/
def ctrlH : Byte := 0x08
/-- `C('P')`. -/
def ctrlP : Byte := 0x10
/-- `C('U')`. -/
def ctrlU : Byte := 0x15
def delete : Byte := 0x7f
def newline : Byte := 0x0a
def carriageReturn : Byte := 0x0d

structure Cons where
  buf : Nat → Byte
  r : BitVec 32
  w : BitVec 32
  e : BitVec 32

/-- The bytes from one index to another. -/
def Cons.bytes (s : Cons) (lo hi : BitVec 32) : List Byte := queue INPUT_BUF_SIZE s.buf lo hi

/-! ## `consoleintr` -/

/-- The loop for control-U, which ends at `cons.w` after `cons.e - cons.w` rounds at most. -/
def killLine : Nat → Cons → Cons
  | 0, s => s
  | fuel + 1, s =>
    if s.e ≠ s.w ∧ s.buf ((s.e - 1#32).toNat % INPUT_BUF_SIZE) ≠ newline then
      killLine fuel { s with e := s.e - 1#32 }
    else s

/-- The byte that is stored for a character without a meaning of its own. -/
def input (s : Cons) (c : Byte) : Option Byte :=
  if c ≠ 0 ∧ (s.e - s.r).toNat < INPUT_BUF_SIZE then
    some (if c = carriageReturn then newline else c)
  else none

def store (s : Cons) (c : Byte) : Cons :=
  let s := { s with buf := update s.buf (s.e.toNat % INPUT_BUF_SIZE) c, e := s.e + 1#32 }
  if c = newline ∨ c = ctrlD ∨ (s.e - s.r).toNat = INPUT_BUF_SIZE then { s with w := s.e } else s

/-- What is stored for an input character. -/
def stored (s : Cons) (c : Byte) : Option Byte :=
  if c = ctrlP ∨ c = ctrlU ∨ c = ctrlH ∨ c = delete then none else input s c

def consoleintr (s : Cons) (c : Byte) : Cons :=
  if c = ctrlP then s
  else if c = ctrlU then killLine (s.e - s.w).toNat s
  else if c = ctrlH ∨ c = delete then if s.e ≠ s.w then { s with e := s.e - 1#32 } else s
  else
    match input s c with
    | some c => store s c
    | none => s

/-! ## `consoleread` and `consolegetc_nb` -/

/-- How `consoleread` leaves the lock: it returns the number of bytes, or -1 because the process
was killed, or it sleeps with `n` bytes to come. -/
inductive Status where
  | done (ret : Nat)
  | killed
  | asleep (n : Nat)
deriving DecidableEq, Repr

/-- The loop of `consoleread`, with `n` bytes to come: the bytes copied out. Byte `k` of the
destination can be written if `dst k`. -/
def readLoop (dst : Nat → Bool) (target : Nat) (killed : Bool) :
    Nat → Cons → Cons × List Byte × Status
  | 0, s => (s, [], .done target)
  | n + 1, s =>
    if s.r = s.w then (s, [], if killed then .killed else .asleep (n + 1))
    else
      let c := s.buf (s.r.toNat % INPUT_BUF_SIZE)
      let t := { s with r := s.r + 1#32 }
      if c = ctrlD then
        -- kept for the next read if this one has something to return
        (if n + 1 < target then { t with r := t.r - 1#32 } else t, [], .done (target - (n + 1)))
      else if dst (target - (n + 1)) = false then (t, [], .done (target - (n + 1)))
      else if c = newline then (t, [c], .done (target - n))
      else
        let rest := readLoop dst target killed n t
        (rest.1, c :: rest.2.1, rest.2.2)

/-- `consolegetc_nb`: the character, if there is one. -/
def consolegetc (s : Cons) : Cons × Option Byte :=
  if s.r ≠ s.e then
    let c := s.buf (s.r.toNat % INPUT_BUF_SIZE)
    let t := { s with r := s.r + 1#32 }
    (if t.w < t.r then { t with w := t.r } else t, some c)
  else (s, none)

/-! ## The system -/

/-- A `consoleread` under way: the bytes asked for, those still to come, the destination. -/
structure Read where
  target : Nat
  n : Nat
  dst : Nat → Bool

/-- What a part of a `consoleread` has delivered, and how it ended. -/
structure Event (R : Type) where
  reader : R
  bytes : List Byte
  status : Status
deriving DecidableEq, Repr

structure St (R : Type) where
  cons : Cons
  reader : R → Option Read
  log : List (Event R)
  typed : List Byte
  committed : List Byte

/-- An input character, a call of `consoleread` for `n` bytes, a part of one, and
`consolegetc_nb`. A call with `n < 0` does what one with `n = 0` does. -/
inductive Lbl (R : Type) where
  | intr (c : Byte)
  | read (p : R) (n : Nat) (dst : Nat → Bool)
  | run (p : R) (killed : Bool)
  | getc

variable {R : Type} [DecidableEq R]

def Status.remains (rd : Read) : Status → Option Read
  | .asleep n => some { rd with n }
  | .done _ | .killed => none

def step (s : St R) : Lbl R → Option (St R)
  | .intr c =>
    let cons := consoleintr s.cons c
    some
      { s with
        cons
        typed := s.typed ++ (stored s.cons c).toList
        committed := s.committed ++ cons.bytes s.cons.w cons.w }
  | .read p n dst =>
    match s.reader p with
    | some _ => none
    | none => some { s with reader := update s.reader p (some ⟨n, n, dst⟩) }
  | .run p killed =>
    match s.reader p with
    | none => none
    | some rd =>
      let out := readLoop rd.dst rd.target killed rd.n s.cons
      some
        { s with
          cons := out.1
          reader := update s.reader p (out.2.2.remains rd)
          log := s.log ++ [⟨p, out.2.1, out.2.2⟩] }
  | .getc => some { s with cons := (consolegetc s.cons).1 }

/-- The bytes that reads have delivered. -/
def St.delivered (s : St R) : List Byte := s.log.flatMap Event.bytes

structure Init (s : St R) : Prop where
  r : s.cons.r = 0
  w : s.cons.w = 0
  e : s.cons.e = 0
  reader : ∀ p, s.reader p = none
  log : s.log = []
  typed : s.typed = []
  committed : s.committed = []

def sys (R : Type) [DecidableEq R] : System (St R) (Lbl R) := ⟨Init, step⟩

end Xv6.Console
