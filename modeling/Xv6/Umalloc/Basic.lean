import Xv6.Lib.Linked
import Xv6.Lib.Spans
import Xv6.Lib.System

/-!
# Xv6.Umalloc.Basic — the allocator of user programs

user/umalloc.c: a free list through the headers of the blocks, in a ring that starts at the
header `base` of the program's data and is entered at `freep`. Addresses count bytes, sizes
count headers, and a size is a `uint`. The system outside is `sbrk`, of which the answers to
come are part of the state, and the program, which calls `malloc` and frees what it got. For
the proofs the state also keeps what was granted and what the program holds.
-/

namespace Xv6.Umalloc

open Lib

/-- `sizeof(Header)`. -/
def HSIZE : Nat := 16

/-- What `morecore` asks for at least. -/
def NALLOC : Nat := 4096

def u32 (x : Nat) : Nat := x % 2 ^ 32

structure Header where
  ptr : Nat
  size : Nat
  deriving DecidableEq, Repr

/-- Where the program has its data, and its heap behind it. -/
structure Program where
  base : Nat
  heap : Nat
  base_pos : 0 < base
  base_le : base + HSIZE ≤ heap

/-- Answer `k` of `sbrk` is `none` if the call fails, and otherwise how far behind all that was
granted before the new memory lies. -/
structure St where
  mem : Nat → Header
  freep : Nat
  sbrk : Nat → Option Nat
  brk : Nat
  granted : List Span
  live : List (Nat × Nat)

def St.setPtr (s : St) (a ptr : Nat) : St :=
  { s with mem := Function.update s.mem a { s.mem a with ptr := ptr } }

def St.setSize (s : St) (a size : Nat) : St :=
  { s with mem := Function.update s.mem a { s.mem a with size := size } }

/-! ## free -/

/-- The loop: the block after which `bp` belongs. -/
def free.find (mem : Nat → Header) (bp : Nat) : Nat → Nat → Option Nat
  | 0, _ => none
  | fuel + 1, p =>
    if p < bp ∧ bp < (mem p).ptr then some p
    else if (mem p).ptr ≤ p ∧ (p < bp ∨ bp < (mem p).ptr) then some p
    else free.find mem bp fuel (mem p).ptr

/-- The block `bp` and its successor. -/
def free.joinNext (s : St) (bp p : Nat) : St :=
  let next := (s.mem p).ptr
  if bp + HSIZE * (s.mem bp).size = next then
    (s.setSize bp (u32 ((s.mem bp).size + (s.mem next).size))).setPtr bp (s.mem next).ptr
  else s.setPtr bp next

/-- The block `bp` and its predecessor `p`. -/
def free.joinPrev (s : St) (bp p : Nat) : St :=
  if p + HSIZE * (s.mem p).size = bp then
    (s.setSize p (u32 ((s.mem p).size + (s.mem bp).size))).setPtr p (s.mem bp).ptr
  else s.setPtr p bp

def free (fuel ap : Nat) (s : St) : Option St :=
  let bp := ap - HSIZE
  (free.find s.mem bp fuel s.freep).map fun p =>
    { free.joinPrev (free.joinNext s bp p) bp p with freep := p }

/-! ## malloc -/

/-- At least `NALLOC` units are asked for. -/
def morecore.amount (nu : Nat) : Nat := if nu < NALLOC then NALLOC else nu

/-- When `sbrk` fails 0 is returned. -/
def morecore (fuel nu : Nat) (s : St) : Option (Nat × St) :=
  let nu := morecore.amount nu
  let s' := { s with sbrk := fun k => s.sbrk (k + 1) }
  match s.sbrk 0 with
  | none => some (0, s')
  | some gap =>
    let hp := s.brk + gap
    let s' := { s' with
      brk := hp + HSIZE * nu
      granted := (hp, nu) :: s.granted }
    (free fuel (hp + HSIZE) (s'.setSize hp nu)).map fun s => (s.freep, s)

/-- A block that is large enough is taken whole, or from its end. -/
def malloc.take (nunits prevp p : Nat) (s : St) : Nat × St :=
  if (s.mem p).size = nunits then
    (p + HSIZE, { s.setPtr prevp (s.mem p).ptr with freep := prevp })
  else
    let size := (s.mem p).size - nunits
    let q := p + HSIZE * size
    (q + HSIZE, { (s.setSize p size).setSize q nunits with freep := prevp })

def malloc.loop (fuel₀ nunits : Nat) : Nat → Nat → Nat → St → Option (Nat × St)
  | 0, _, _, _ => none
  | fuel + 1, prevp, p, s =>
    if nunits ≤ (s.mem p).size then some (malloc.take nunits prevp p s)
    else if p = s.freep then
      match morecore fuel₀ nunits s with
      | none => none
      | some (p, s) =>
        if p = 0 then some (0, s) else malloc.loop fuel₀ nunits fuel p (s.mem p).ptr s
    else malloc.loop fuel₀ nunits fuel p (s.mem p).ptr s

/-- `base` becomes the only block of the ring in the first call. -/
def malloc.start (prog : Program) (s : St) : St :=
  if s.freep = 0 then
    { (s.setPtr prog.base prog.base).setSize prog.base 0 with freep := prog.base }
  else s

def malloc (prog : Program) (fuel nbytes : Nat) (s : St) : Option (Nat × St) :=
  let nunits := (nbytes + HSIZE - 1) / HSIZE + 1
  let s := malloc.start prog s
  malloc.loop fuel nunits fuel s.freep (s.mem s.freep).ptr s

/-! ## A program -/

inductive Act
  | malloc (nbytes : Nat)
  | free (ap : Nat)
  deriving DecidableEq, Repr

/-- More rounds than a loop can make: there are no more blocks than bytes. -/
def St.fuel (s : St) : Nat := 2 * s.brk

/-- The program asks for any `uint` of bytes and frees a block that it holds. -/
def step (prog : Program) (s : St) : Act → Option St
  | .malloc nbytes =>
    if nbytes < 2 ^ 32 then
      (malloc prog s.fuel nbytes s).map fun r =>
        if r.1 = 0 then r.2 else { r.2 with live := (r.1, nbytes) :: r.2.live }
    else none
  | .free ap =>
    match s.live.find? fun l => l.1 == ap with
    | none => none
    | some l => (free s.fuel ap s).map fun s => { s with live := s.live.erase l }

/-- Before the first call nothing is granted, and memory holds anything. -/
def sys (prog : Program) : System St Act where
  Init s := s.freep = 0 ∧ s.brk = prog.heap ∧ s.granted = [] ∧ s.live = []
  step s a := step prog s a

end Xv6.Umalloc
