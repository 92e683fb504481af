import Xv6.Lib.Ring
import Xv6.Lib.System
import Xv6.Param

/-!
# Xv6.Cache.Basic — the buffer cache with its pointers and its locks

kernel/bio.c as any number of processes call it: `bget` in its two parts under
`bcache.lock` (the lookup is counted before the search), `acquiresleep` on the buffer, the
disk read, `brelse`, `bpin` and `bunpin`. The list through `bcache.head` is the two pointer
fields of each buffer, edited by the assignments of the source. `Xv6.Bio` is the same cache
with the list abstract and every call in one piece.

A *session* `u : U` is one use of a buffer, from `bread` to `brelse`; a process may have
several. A process releases what it got and pins what it holds; `bunpin` takes back one of
the pins taken.
-/

namespace Xv6.Cache

open Lib Function

/-- A `struct buf *`: `none` is `&bcache.head`. -/
abbrev Node := Option (Fin NBUF)

structure Buf (U δ : Type) where
  valid : Bool
  dev : BitVec 32
  blockno : BitVec 32
  refcnt : Nat
  lock : Option U
  data : δ

/-- Where a session is: before `bread`, in `bget` with `bcache.lock`, at `acquiresleep`,
with the buffer locked, waiting for the disk, returned from `bread`, and in `brelse` after
`releasesleep`. -/
inductive Pc where
  | out
  | look (dev blockno : BitVec 32)
  | wait (i : Fin NBUF)
  | locked (i : Fin NBUF)
  | reading (i : Fin NBUF)
  | held (i : Fin NBUF)
  | rel (i : Fin NBUF)
deriving DecidableEq, Repr

inductive Panic where
  | noBuffers | brelse | bwrite
deriving DecidableEq, Repr

/-- `bcache`, the counters of kernel/sysproc.c, and the sessions. The fields after
`panicked` are history: the pins taken and not given back, the time of a buffer's last
`brelse` to no reference (0: never), the events counted without bound, and the buffers
assigned by a miss whose disk read has not been issued. -/
structure St (U δ : Type) where
  buf : Fin NBUF → Buf U δ
  next : Node → Node
  prev : Node → Node
  lock : Option U
  read_cache_counter : BitVec 64
  read_cache_hit_counter : BitVec 64
  write_cahce_counter : BitVec 64
  read_disk_counter : BitVec 64
  write_disk_counter : BitVec 64
  pc : U → Pc
  panicked : Option Panic
  pins : Fin NBUF → Nat
  last : Fin NBUF → Nat
  clock : Nat
  hits : Nat
  misses : Nat
  reads : Nat
  unread : Fin NBUF → Bool

inductive Lbl (U δ : Type) where
  | bread (u : U) (dev blockno : BitVec 32)
  | go (u : U)
  | done (u : U) (d : δ)
  | write (u : U) (d : δ)
  | bwrite (u : U)
  | brelse (u : U)
  | bpin (u : U)
  | bunpin (i : Fin NBUF)

variable {U δ : Type}

/-- The loop of `binit`. -/
def binit : (Node → Node) × (Node → Node) :=
  (List.finRange NBUF).foldl
    (fun p b => (insertNext p.1 none (some b), insertPrev p.1 p.2 none (some b)))
    (fun _ => none, fun _ => none)

/-- `b->dev == dev && b->blockno == blockno`. -/
def Buf.holds (b : Buf U δ) (dev blockno : BitVec 32) : Bool :=
  b.dev = dev ∧ b.blockno = blockno

/-- The first loop of `bget`. -/
def cached (s : St U δ) (dev blockno : BitVec 32) : Option Node :=
  walk s.next none (fun b => b.elim false fun i => (s.buf i).holds dev blockno) (NBUF + 1)
    (s.next none)

/-- The second loop of `bget`. -/
def victim (s : St U δ) : Option Node :=
  walk s.prev none (fun b => b.elim false fun i => (s.buf i).refcnt = 0) (NBUF + 1) (s.prev none)

section Step

variable [DecidableEq U]

def St.goto (s : St U δ) (u : U) (pc : Pc) : St U δ := { s with pc := update s.pc u pc }

def St.modify (s : St U δ) (i : Fin NBUF) (f : Buf U δ → Buf U δ) : St U δ :=
  { s with buf := update s.buf i (f (s.buf i)) }

/-- `bget` after the lookup was counted. -/
def bget (s : St U δ) (u : U) (dev blockno : BitVec 32) : St U δ :=
  match cached s dev blockno with
  | some (some i) =>
    { (s.modify i fun b => { b with refcnt := b.refcnt + 1 }).goto u (.wait i) with
      read_cache_hit_counter := s.read_cache_hit_counter + 1
      lock := none
      hits := s.hits + 1 }
  | _ =>
    match victim s with
    | some (some i) =>
      { (s.modify i fun b =>
          { b with dev := dev, blockno := blockno, valid := false, refcnt := 1 }).goto u
          (.wait i) with
        write_cahce_counter := s.write_cahce_counter + 1
        lock := none
        misses := s.misses + 1
        unread := update s.unread i true }
    | _ => { s with panicked := some .noBuffers }

/-- `brelse` after `releasesleep`. -/
def brelse (s : St U δ) (u : U) (i : Fin NBUF) : St U δ :=
  let s := (s.modify i fun b => { b with refcnt := b.refcnt - 1 }).goto u .out
  if (s.buf i).refcnt = 0 then
    let next := unlinkNext s.next s.prev (some i)
    let prev := unlinkPrev s.next s.prev (some i)
    { s with
      next := insertNext next none (some i)
      prev := insertPrev next prev none (some i)
      clock := s.clock + 1
      last := update s.last i (s.clock + 1) }
  else s

/-- The next step of a session that needs nothing from outside. -/
def go (s : St U δ) (u : U) : Pc → Option (St U δ)
  | .look dev blockno => some (bget s u dev blockno)
  | .wait i =>
    if (s.buf i).lock = none then
      some ((s.modify i fun b => { b with lock := some u }).goto u (.locked i))
    else none
  | .locked i =>
    if (s.buf i).valid then some (s.goto u (.held i))
    else
      -- virtio_disk_rw(b, 0) counts the read before it does anything else
      some { s.goto u (.reading i) with
        read_disk_counter := s.read_disk_counter + 1
        reads := s.reads + 1
        unread := update s.unread i false }
  | .rel i => if s.lock = none then some (brelse s u i) else none
  | .out | .reading _ | .held _ => none

def step (s : St U δ) (l : Lbl U δ) : Option (St U δ) :=
  if s.panicked ≠ none then none
  else
    match l with
    | .bread u dev blockno =>
      if s.pc u = .out ∧ s.lock = none ∧ dev ≠ 0 then
        some { s.goto u (.look dev blockno) with
          lock := some u
          read_cache_counter := s.read_cache_counter + 1 }
      else none
    | .go u => go s u (s.pc u)
    | .done u d =>
      match s.pc u with
      | .reading i =>
        some ((s.modify i fun b => { b with data := d, valid := true }).goto u (.held i))
      | _ => none
    | .write u d =>
      match s.pc u with
      | .held i => some (s.modify i fun b => { b with data := d })
      | _ => none
    | .bwrite u =>
      match s.pc u with
      | .held i =>
        if (s.buf i).lock = some u then
          some { s with write_disk_counter := s.write_disk_counter + 1 }
        else some { s with panicked := some .bwrite }
      | _ => none
    | .brelse u =>
      match s.pc u with
      | .held i =>
        if (s.buf i).lock = some u then
          some ((s.modify i fun b => { b with lock := none }).goto u (.rel i))
        else some { s with panicked := some .brelse }
      | _ => none
    | .bpin u =>
      match s.pc u with
      | .held i =>
        if s.lock = none then
          some { s.modify i fun b => { b with refcnt := b.refcnt + 1 } with
            pins := update s.pins i (s.pins i + 1) }
        else none
      | _ => none
    | .bunpin i =>
      if 0 < s.pins i ∧ s.lock = none then
        some { s.modify i fun b => { b with refcnt := b.refcnt - 1 } with
          pins := update s.pins i (s.pins i - 1) }
      else none

/-- After `binit`, with any contents in the buffers. -/
def Init (s : St U δ) : Prop :=
  (∀ i, (s.buf i).valid = false ∧ (s.buf i).dev = 0 ∧ (s.buf i).blockno = 0 ∧
    (s.buf i).refcnt = 0 ∧ (s.buf i).lock = none) ∧
  (s.next, s.prev) = binit ∧ s.lock = none ∧ s.read_cache_counter = 0 ∧
  s.read_cache_hit_counter = 0 ∧ s.write_cahce_counter = 0 ∧ s.read_disk_counter = 0 ∧
  s.write_disk_counter = 0 ∧ (∀ u, s.pc u = .out) ∧ s.panicked = none ∧
  (∀ i, s.pins i = 0 ∧ s.last i = 0 ∧ s.unread i = false) ∧ s.clock = 0 ∧ s.hits = 0 ∧
  s.misses = 0 ∧ s.reads = 0

/-- One such state. -/
def boot (d : δ) : St U δ where
  buf _ := ⟨false, 0, 0, 0, none, d⟩
  next := binit.1
  prev := binit.2
  lock := none
  read_cache_counter := 0
  read_cache_hit_counter := 0
  write_cahce_counter := 0
  read_disk_counter := 0
  write_disk_counter := 0
  pc _ := .out
  panicked := none
  pins _ := 0
  last _ := 0
  clock := 0
  hits := 0
  misses := 0
  reads := 0
  unread _ := false

omit [DecidableEq U] in
theorem boot_init (d : δ) : Init (boot d : St U δ) :=
  ⟨fun _ => ⟨rfl, rfl, rfl, rfl, rfl⟩, rfl, rfl, rfl, rfl, rfl, rfl, rfl, fun _ => rfl, rfl,
    fun _ => ⟨rfl, rfl, rfl⟩, rfl, rfl, rfl, rfl⟩

def sys (U δ : Type) [DecidableEq U] : System (St U δ) (Lbl U δ) := ⟨Init, step⟩

end Step

end Xv6.Cache
