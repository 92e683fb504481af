import Xv6.Lib.Queue
import Xv6.Lib.System

/-!
# Xv6.Virtio.Basic — the disk driver, its interrupt and the device

`virtio_disk_rw` and `virtio_disk_intr` with the memory they share with the device: the
descriptors, the request headers, the status bytes and the two rings, whose indices are
16-bit words that wrap. Processes `P` call the driver for buffers `B` whose sleep-lock they
hold, as `bread` and `bwrite` do. Everything under `disk.vdisk_lock` is cut into small
actions, since the device does not take that lock: every call of `alloc_desc` and of
`free_desc`, the entry in the avail ring and the increment of its index, every pass of the
interrupt's loop.

The device takes the heads of chains out of the avail ring one by one, reads a chain and
writes its status byte at any later time, and announces what it has finished in any order.

`uid`, and the lists `calls`, `finished`, `cleared` and `returned`, are history: the calls
are numbered, and the number of a call stands in its request header.
-/

namespace Xv6.Virtio

open Lib Function

def NUM : Nat := 8

def VRING_DESC_F_NEXT : BitVec 16 := 1
def VRING_DESC_F_WRITE : BitVec 16 := 2

def VIRTIO_BLK_T_IN : BitVec 32 := 0
def VIRTIO_BLK_T_OUT : BitVec 32 := 1

/-- What a descriptor can point to. -/
inductive Addr (B : Type) where
  | null
  | ops (i : Nat)
  | data (b : B)
  | status (i : Nat)
deriving DecidableEq

/-- `struct virtq_desc`. -/
structure Desc (B : Type) where
  addr : Addr B
  len : BitVec 32
  flags : BitVec 16
  next : Nat

/-- A descriptor after `free_desc`. -/
def Desc.zero {B : Type} : Desc B := ⟨.null, 0, 0, 0⟩

def Desc.hasNext {B : Type} (d : Desc B) : Bool := d.flags &&& VRING_DESC_F_NEXT != 0

/-- `struct virtio_blk_req`, with the number of the call it was written by. -/
structure BlkReq where
  type : BitVec 32
  reserved : BitVec 32
  sector : BitVec 64
  uid : Nat

/-- `disk.info[i]`. -/
structure Info (B : Type) where
  b : Option B
  status : BitVec 8

/-- `struct virtq_avail`. -/
structure Avail where
  ring : Nat → Nat
  idx : BitVec 16

/-- `struct virtq_used_elem`, with the number of the call that the device has finished. -/
structure UsedElem where
  id : Nat
  uid : Nat
deriving DecidableEq

/-- `struct virtq_used`. -/
structure Used where
  ring : Nat → UsedElem
  idx : BitVec 16

/-- A call of `virtio_disk_rw`. -/
structure Call (B : Type) where
  uid : Nat
  b : B
  sector : BitVec 64
  write : Bool
deriving DecidableEq

/-- The descriptors `idx[0]`, `idx[1]`, `idx[2]` of a call. -/
structure Idx where
  i0 : Nat
  i1 : Nat
  i2 : Nat
deriving DecidableEq

/-- Where a process is in `virtio_disk_rw`. -/
inductive Pc (B : Type) where
  | out
  | acquire (c : Call B)
  -- alloc3_desc: the descriptors it has, and those it still has to give back
  | alloc (c : Call B) (got : List Nat)
  | undo (c : Call B) (left : List Nat)
  | sleepFree (c : Call B)
  | format (c : Call B) (r : Idx)
  | ring (c : Call B) (r : Idx)
  | notify (c : Call B) (r : Idx)
  | wait (c : Call B) (r : Idx)
  | sleepBuf (c : Call B) (r : Idx)
  | clear (c : Call B) (r : Idx)
  -- free_chain at descriptor i
  | chain (c : Call B) (r : Idx) (i : Nat)
  | release (c : Call B)
deriving DecidableEq

/-- Where the interrupt handler is. -/
inductive Intr where
  | off
  | loop
  | entry (e : UsedElem)
deriving DecidableEq

/-- Who holds `vdisk_lock`. -/
inductive Ctx (P : Type) where
  | call (p : P)
  | intr
deriving DecidableEq

/-- `&disk.free[0]`, or a buffer. -/
inductive Chan (B : Type) where
  | free
  | buf (b : B)
deriving DecidableEq

/-- Why the machine has stopped. -/
inductive Panic where
  | freeDesc1 | freeDesc2 | intrStatus | nullBuf | badChain
deriving DecidableEq

/-- A chain the device is working on; `done` is the call it has carried out. -/
structure Work where
  id : Nat
  done : Option Nat
deriving DecidableEq

structure St (P B : Type) where
  -- struct disk
  desc : Nat → Desc B
  avail : Avail
  used : Used
  free : Nat → Bool
  used_idx : BitVec 16
  info : Nat → Info B
  ops : Nat → BlkReq
  vdisk_lock : Option (Ctx P)
  -- b->disk, and the owner of b->lock
  disk : B → Bool
  owner : B → Option P
  read_disk_counter : BitVec 64
  write_disk_counter : BitVec 64
  -- the kernel's threads
  pc : P → Pc B
  chan : P → Option (Chan B)
  intr : Intr
  -- the device: how far it has read the avail ring, its work, and an entry of the used ring
  -- it has written and not yet counted
  seen : BitVec 16
  work : List Work
  pushing : Option UsedElem
  panic : Option Panic
  -- history
  calls : List (Call B)
  finished : List (Call B)
  cleared : List (Nat × B)
  returned : List (Call B)

inductive Lbl (P B : Type) where
  | acquiresleep (p : P) (b : B)
  | releasesleep (p : P) (b : B)
  | rw (p : P) (b : B) (blockno : BitVec 32) (write : Bool)
  | run (p : P)
  | kkill (p : P)
  | intr
  | take
  | finish (id : Nat)
  | push (e : UsedElem)
  | publish
deriving DecidableEq

variable {P B : Type} [DecidableEq P] [DecidableEq B]

def St.goto (s : St P B) (p : P) (pc : Pc B) : St P B :=
  { s with pc := update s.pc p pc }

/-- `wakeup(c)`. -/
def St.wakeup (s : St P B) (c : Chan B) : St P B :=
  { s with chan := fun q => if s.chan q = some c then none else s.chan q }

/-! ## Descriptors -/

/-- The scan of `alloc_desc`. -/
def St.freeIndex (s : St P B) : Option Nat := (List.range NUM).find? s.free

/-- `free_desc`. -/
def freeDesc (s : St P B) (i : Nat) : Except Panic (St P B) :=
  if i ≥ NUM then .error .freeDesc1
  else if s.free i then .error .freeDesc2
  else
    .ok ({ s with
      desc := update s.desc i Desc.zero
      free := update s.free i true }.wakeup .free)

/-- Continue with `k`, unless there was a panic. -/
def andThen (s : St P B) (x : Except Panic (St P B)) (k : St P B → St P B) : St P B :=
  match x with
  | .error e => { s with panic := some e }
  | .ok t => k t

/-- One call of `alloc_desc` by `alloc3_desc`. -/
def allocStep (s : St P B) (p : P) (c : Call B) (got : List Nat) : St P B :=
  match s.freeIndex with
  | none => s.goto p (.undo c got)
  | some i =>
    { s with
      free := update s.free i false
      pc := update s.pc p
        (match got with
        | [i0, i1] => .format c ⟨i0, i1, i⟩
        | _ => .alloc c (got ++ [i])) }

/-- One call of `free_desc` by `free_chain(i)`. -/
def chainStep (s : St P B) (p : P) (c : Call B) (r : Idx) (i : Nat) : St P B :=
  andThen s (freeDesc s i) fun t =>
    t.goto p (if (s.desc i).hasNext then .chain c r (s.desc i).next else .release c)

/-! ## `virtio_disk_rw` -/

/-- The request header. -/
def Call.req (c : Call B) : BlkReq :=
  ⟨if c.write then VIRTIO_BLK_T_OUT else VIRTIO_BLK_T_IN, 0, c.sector, c.uid⟩

/-- The three descriptors of a request. -/
def Idx.desc0 (r : Idx) : Desc B := ⟨.ops r.i0, 16, VRING_DESC_F_NEXT, r.i1⟩

def Idx.desc1 (r : Idx) (c : Call B) : Desc B :=
  ⟨.data c.b, 1024, (if c.write then 0 else VRING_DESC_F_WRITE) ||| VRING_DESC_F_NEXT, r.i2⟩

def Idx.desc2 (r : Idx) : Desc B := ⟨.status r.i0, 1, VRING_DESC_F_WRITE, 0⟩

/-- The three descriptors are formatted and the buffer is recorded for `virtio_disk_intr`. -/
def formatStep (s : St P B) (p : P) (c : Call B) (r : Idx) : St P B :=
  { s with
    ops := update s.ops r.i0 c.req
    desc := update (update (update s.desc r.i0 r.desc0) r.i1
      (r.desc1 c)) r.i2 r.desc2
    info := update s.info r.i0 ⟨some c.b, 0xff⟩
    disk := update s.disk c.b true
    pc := update s.pc p (.ring c r) }

/-- The call takes `vdisk_lock`, first or after `sleep`. -/
def acquire (s : St P B) (p : P) (pc : Pc B) : Option (St P B) :=
  if s.vdisk_lock = none then some { s.goto p pc with vdisk_lock := some (.call p) } else none

/-- `sleep(c, &disk.vdisk_lock)`. -/
def sleep (s : St P B) (p : P) (c : Chan B) (pc : Pc B) : St P B :=
  { s.goto p pc with vdisk_lock := none, chan := update s.chan p (some c) }

/-- The next action of a call. -/
def runPc (s : St P B) (p : P) : Pc B → Option (St P B)
  | .out => none
  | .acquire c =>
    (acquire s p (.alloc c [])).map fun t =>
      if c.write then { t with write_disk_counter := t.write_disk_counter + 1 }
      else { t with read_disk_counter := t.read_disk_counter + 1 }
  | .alloc c got => some (allocStep s p c got)
  | .undo c [] => some (sleep s p .free (.sleepFree c))
  | .undo c (i :: left) => some (andThen s (freeDesc s i) fun t => t.goto p (.undo c left))
  | .sleepFree c => if s.chan p = none then acquire s p (.alloc c []) else none
  | .format c r => some (formatStep s p c r)
  | .ring c r =>
    some { s.goto p (.notify c r) with
      avail.ring := update s.avail.ring (s.avail.idx.toNat % NUM) r.i0 }
  | .notify c r => some { s.goto p (.wait c r) with avail.idx := s.avail.idx + 1 }
  | .wait c r =>
    some (if s.disk c.b then sleep s p (.buf c.b) (.sleepBuf c r) else s.goto p (.clear c r))
  | .sleepBuf c r => if s.chan p = none then acquire s p (.wait c r) else none
  | .clear c r =>
    some { s.goto p (.chain c r r.i0) with
      info := update s.info r.i0 { s.info r.i0 with b := none } }
  | .chain c r i => some (chainStep s p c r i)
  | .release c =>
    some { s.goto p .out with vdisk_lock := none, returned := c :: s.returned }

/-! ## `virtio_disk_intr` -/

/-- The body of the loop, for the entry `e` of the used ring. -/
def intrBody (s : St P B) (e : UsedElem) : St P B :=
  if (s.info e.id).status ≠ 0 then { s with panic := some .intrStatus }
  else
    match (s.info e.id).b with
    | none => { s with panic := some .nullBuf }
    | some b =>
      { s with
        disk := update s.disk b false
        used_idx := s.used_idx + 1
        intr := .loop
        cleared := (e.uid, b) :: s.cleared }.wakeup (.buf b)

def runIntr (s : St P B) : Intr → Option (St P B)
  | .off => if s.vdisk_lock = none then some { s with vdisk_lock := some .intr, intr := .loop }
    else none
  | .loop =>
    some (if s.used_idx ≠ s.used.idx then
        { s with intr := .entry (s.used.ring (s.used_idx.toNat % NUM)) }
      else { s with vdisk_lock := none, intr := .off })
  | .entry e => some (intrBody s e)

/-! ## The device -/

/-- The device follows the chain at `id`: header, data, status byte. -/
def readChain (s : St P B) (id : Nat) : Option (Call B × Nat) :=
  let d0 := s.desc id
  let d1 := s.desc d0.next
  let d2 := s.desc d1.next
  match d0.addr, d1.addr, d2.addr with
  | .ops k, .data b, .status j =>
    let write := (s.ops k).type == VIRTIO_BLK_T_OUT
    -- the device writes the data of a read and the status, and nothing else
    if d0.flags = VRING_DESC_F_NEXT ∧ d2.flags = VRING_DESC_F_WRITE ∧
        d1.flags = (if write then 0 else VRING_DESC_F_WRITE) ||| VRING_DESC_F_NEXT then
      some (⟨(s.ops k).uid, b, (s.ops k).sector, write⟩, j)
    else none
  | _, _, _ => none

/-- The device carries out the request at `id`, with success. -/
def finishStep (s : St P B) (id : Nat) : St P B :=
  match readChain s id with
  | none => { s with panic := some .badChain }
  | some (c, j) =>
    { s with
      info := update s.info j { s.info j with status := 0 }
      work := ⟨id, some c.uid⟩ :: s.work.erase ⟨id, none⟩
      finished := c :: s.finished }

/-- One action. -/
def step (s : St P B) (l : Lbl P B) : Option (St P B) :=
  if s.panic ≠ none then none
  else
    match l with
    | .acquiresleep p b =>
      if s.pc p = .out ∧ s.owner b = none then
        some { s with owner := update s.owner b (some p) }
      else none
    | .releasesleep p b =>
      if s.pc p = .out ∧ s.owner b = some p then
        some { s with owner := update s.owner b none }
      else none
    | .rw p b blockno write =>
      if s.pc p = .out ∧ s.owner b = some p then
        let c : Call B := ⟨s.calls.length, b, (blockno * 2).setWidth 64, write⟩
        some { s.goto p (.acquire c) with calls := c :: s.calls }
      else none
    | .run p => runPc s p (s.pc p)
    | .kkill p => some { s with chan := update s.chan p none }
    | .intr => runIntr s s.intr
    | .take =>
      if s.seen ≠ s.avail.idx then
        some { s with
          seen := s.seen + 1
          work := ⟨s.avail.ring (s.seen.toNat % NUM), none⟩ :: s.work }
      else none
    | .finish id => if ⟨id, none⟩ ∈ s.work then some (finishStep s id) else none
    | .push e =>
      if ⟨e.id, some e.uid⟩ ∈ s.work ∧ s.pushing = none then
        some { s with
          used.ring := update s.used.ring (s.used.idx.toNat % NUM) e
          pushing := some e
          work := s.work.erase ⟨e.id, some e.uid⟩ }
      else none
    | .publish =>
      if s.pushing ≠ none then some { s with used.idx := s.used.idx + 1, pushing := none }
      else none

/-- After `virtio_disk_init`. -/
def boot : St P B where
  desc := fun _ => Desc.zero
  avail := ⟨fun _ => 0, 0⟩
  used := ⟨fun _ => ⟨0, 0⟩, 0⟩
  free := fun _ => true
  used_idx := 0
  info := fun _ => ⟨none, 0⟩
  ops := fun _ => ⟨0, 0, 0, 0⟩
  vdisk_lock := none
  disk := fun _ => false
  owner := fun _ => none
  read_disk_counter := 0
  write_disk_counter := 0
  pc := fun _ => .out
  chan := fun _ => none
  intr := .off
  seen := 0
  work := []
  pushing := none
  panic := none
  calls := []
  finished := []
  cleared := []
  returned := []

def sys (P B : Type) [DecidableEq P] [DecidableEq B] : System (St P B) (Lbl P B) :=
  ⟨fun s => s = boot, step⟩

end Xv6.Virtio
