import Xv6.Vm.Memory

/-!
# Xv6.Vm.PageTable — the page-table code of kernel/vm.c

Sv39 page tables in raw memory: a table is a page of 512 page-table entries, an
entry is a 64-bit word with a page number above ten flag bits. `walk` descends
from a root table through two interior levels to the entry of a virtual address
and can add missing tables on the way.

A page table and a physical address are page numbers; a virtual address and a size
are 64-bit numbers, and `u64` marks where the source's arithmetic can wrap. Loops
whose number of turns is not fixed in advance carry a turn bound and stop with
`Panic.spin` at its end, so that a result is never read off a loop that the
source would still be in.
-/

namespace Xv6.Vm

/-! ## Page-table entries -/

def PTE_V : BitVec 64 := 1
def PTE_R : BitVec 64 := 2
def PTE_W : BitVec 64 := 4
def PTE_X : BitVec 64 := 8
/-- User code can access the page. -/
def PTE_U : BitVec 64 := 16

/-- Some bit of `flags` is set in `pte`. -/
def has (pte flags : BitVec 64) : Bool := (pte &&& flags) != 0

def PA2PTE (pa : Nat) : BitVec 64 := BitVec.ofNat 64 pa <<< 10

def PTE2PA (pte : BitVec 64) : Nat := ((pte >>> 10) <<< 12).toNat / PGSIZE

def PTE_FLAGS (pte : BitVec 64) : BitVec 64 := pte &&& 0x3FF

/-- The nine bits of `va` that index the table at `level`. -/
def PX (level va : Nat) : Fin 512 :=
  ⟨va / 2 ^ (12 + 9 * level) % 512, Nat.mod_lt _ (by decide)⟩

/-- What the address-space code uses of `struct proc`. -/
structure ProcMem where
  pagetable : Nat
  trapframe : Nat
  sz : Nat
  deriving DecidableEq, Repr

/-! ## Walking and mapping -/

/-- The loop of `walk`, from the table at `level` down. -/
def walkFrom (va : Nat) (alloc : Bool) : Nat → Nat → M (Option Slot)
  | 0, pagetable => return some (pagetable, PX 0 va)
  | level + 1, pagetable => do
    let pte ← load (pagetable, PX (level + 1) va)
    if has pte PTE_V then
      walkFrom va alloc level (PTE2PA pte)
    else if alloc then do
      let page ← kalloc
      if page = 0 then
        return none
      else
        memset page 0
        store (pagetable, PX (level + 1) va) (PA2PTE page ||| PTE_V)
        walkFrom va alloc level page
    else
      return none

def walk (pagetable va : Nat) (alloc : Bool) : M (Option Slot) :=
  if MAXVA ≤ va then throw .walk else walkFrom va alloc 2 pagetable

def walkaddr (pagetable va : Nat) : M Nat :=
  if MAXVA ≤ va then return 0
  else do
    match ← walk pagetable va false with
    | none => return 0
    | some a =>
      let pte ← load a
      if has pte PTE_V = false then return 0
      else if has pte PTE_U = false then return 0
      else return PTE2PA pte

def ismapped (pagetable va : Nat) : M Bool := do
  match ← walk pagetable va false with
  | none => return false
  | some a => return has (← load a) PTE_V

/-- The loop of `mappages`, with `n` pages to map after the one at `a`. -/
def mappages.loop (pagetable : Nat) (perm : BitVec 64) : Nat → Nat → Nat → M Int
  | n, a, pa => do
    match ← walk pagetable a true with
    | none => return -1
    | some slot =>
      if has (← load slot) PTE_V then
        throw .remap
      else
        store slot (PA2PTE pa ||| perm ||| PTE_V)
        match n with
        | 0 => return 0
        | n + 1 => loop pagetable perm n (u64 (a + PGSIZE)) (pa + 1)

def mappages (pagetable va size pa : Nat) (perm : BitVec 64) : M Int :=
  if va % PGSIZE ≠ 0 then throw .mappagesVa
  else if size % PGSIZE ≠ 0 then throw .mappagesSize
  else if size = 0 then throw .mappagesZero
  else mappages.loop pagetable perm (size / PGSIZE - 1) va pa

/-! ## Creating, growing and freeing address spaces -/

def uvmcreate : M Nat := do
  let pagetable ← kalloc
  if pagetable = 0 then
    return 0
  else
    memset pagetable 0
    return pagetable

/-- The loop of `uvmunmap`, with `n` pages to go. -/
def uvmunmap.loop (L : Layout) (pagetable : Nat) (do_free : Bool) : Nat → Nat → M Unit
  | 0, _ => return ()
  | n + 1, a => do
    match ← walk pagetable a false with
    | none => loop L pagetable do_free n (a + PGSIZE)
    | some slot =>
      let pte ← load slot
      if has pte PTE_V = false then
        loop L pagetable do_free n (a + PGSIZE)
      else
        if do_free then kfree L (PTE2PA pte)
        store slot 0
        loop L pagetable do_free n (a + PGSIZE)

def uvmunmap (L : Layout) (pagetable va npages : Nat) (do_free : Bool) : M Unit :=
  if va % PGSIZE ≠ 0 then throw .uvmunmap
  else
    -- the bound of the source's loop wraps, its counter then does not
    uvmunmap.loop L pagetable do_free ((u64 (va + npages * PGSIZE) - va) / PGSIZE) va

def uvmdealloc (L : Layout) (pagetable oldsz newsz : Nat) : M Nat :=
  if oldsz ≤ newsz then return oldsz
  else if PGROUNDUP newsz < PGROUNDUP oldsz then do
    -- `int npages`, passed on as a `uint64`
    let npages := (BitVec.ofNat 32 ((PGROUNDUP oldsz - PGROUNDUP newsz) / PGSIZE)).signExtend 64
    uvmunmap L pagetable (PGROUNDUP newsz) npages.toNat true
    return newsz
  else
    return newsz

/-- The loop of `uvmalloc`. Each turn takes a page, so there is a turn bound. -/
def uvmalloc.loop (L : Layout) (pagetable oldsz newsz : Nat) (xperm : BitVec 64) :
    Nat → Nat → M Nat
  | 0, _ => throw .spin
  | fuel + 1, a =>
    if a < newsz then do
      let mem ← kalloc
      if mem = 0 then
        let _ ← uvmdealloc L pagetable a oldsz
        return 0
      else
        memset mem 0
        let r ← mappages pagetable a PGSIZE mem (PTE_R ||| PTE_U ||| xperm)
        if r ≠ 0 then
          kfree L mem
          let _ ← uvmdealloc L pagetable a oldsz
          return 0
        else
          loop L pagetable oldsz newsz xperm fuel (u64 (a + PGSIZE))
    else
      return newsz

def uvmalloc (L : Layout) (pagetable oldsz newsz : Nat) (xperm : BitVec 64) : M Nat :=
  if newsz < oldsz then return oldsz
  else uvmalloc.loop L pagetable (PGROUNDUP oldsz) newsz xperm (RAMPAGES + 1) (PGROUNDUP oldsz)

/-- `freewalk`; the recursion of the source follows the tables, three levels deep in a
well-formed tree. -/
def freewalk (L : Layout) : Nat → Nat → M Unit
  | 0, _ => throw .spin
  | depth + 1, pagetable => do
    forM (List.finRange 512) fun i => do
      let pte ← load (pagetable, i)
      if has pte PTE_V ∧ has pte (PTE_R ||| PTE_W ||| PTE_X) = false then
        freewalk L depth (PTE2PA pte)
        store (pagetable, i) 0
      else if has pte PTE_V then
        throw .freewalkLeaf
    kfree L pagetable

def uvmfree (L : Layout) (pagetable sz : Nat) : M Unit := do
  if 0 < sz then uvmunmap L pagetable 0 (PGROUNDUP sz / PGSIZE) true
  freewalk L 3 pagetable

/-- The page copy `memmove(mem, pa, PGSIZE)`. -/
def copyPage (dst src : Nat) : M Unit := modify fun s => s.write dst (s.ram src)

/-- The loop of `uvmcopy`, and its error exit. -/
def uvmcopy.loop (L : Layout) (old new sz : Nat) : Nat → Nat → M Int
  | 0, _ => throw .spin
  | fuel + 1, i =>
    if i < sz then do
      match ← walk old i false with
      | none => loop L old new sz fuel (u64 (i + PGSIZE))
      | some slot =>
        let pte ← load slot
        if has pte PTE_V = false then
          loop L old new sz fuel (u64 (i + PGSIZE))
        else
          let mem ← kalloc
          if mem = 0 then
            uvmunmap L new 0 (i / PGSIZE) true
            return -1
          else
            copyPage mem (PTE2PA pte)
            let r ← mappages new i PGSIZE mem (PTE_FLAGS pte)
            if r ≠ 0 then
              kfree L mem
              uvmunmap L new 0 (i / PGSIZE) true
              return -1
            else
              loop L old new sz fuel (u64 (i + PGSIZE))
    else
      return 0

def uvmcopy (L : Layout) (old new sz : Nat) : M Int :=
  uvmcopy.loop L old new sz (sz / PGSIZE + 2) 0

def uvmclear (pagetable va : Nat) : M Unit := do
  match ← walk pagetable va false with
  | none => throw .uvmclear
  | some slot => store slot ((← load slot) &&& ~~~ PTE_U)

def vmfault (L : Layout) (p : ProcMem) (pagetable va : Nat) : M Nat :=
  if p.sz ≤ va then return 0
  else do
    let va := PGROUNDDOWN va
    if ← ismapped pagetable va then
      return 0
    else
      let mem ← kalloc
      if mem = 0 then
        return 0
      else
        memset mem 0
        -- into the table of the current process, whichever table was asked about
        let r ← mappages p.pagetable va PGSIZE mem (PTE_W ||| PTE_U ||| PTE_R)
        if r ≠ 0 then
          kfree L mem
          return 0
        else
          return mem

/-! ## Copying between kernel and user memory -/

abbrev Byte := BitVec 8

def wordOf (off : Nat) : Fin 512 := ⟨off / 8 % 512, Nat.mod_lt _ (by decide)⟩

def getByte (page : Page) (off : Nat) : Byte := (page (wordOf off) >>> (8 * (off % 8))).setWidth 8

def setByte (page : Page) (off : Nat) (b : Byte) : Page :=
  Function.update page (wordOf off)
    (page (wordOf off) &&& ~~~ (0xFF#64 <<< (8 * (off % 8))) ||| b.setWidth 64 <<< (8 * (off % 8)))

/-- `n` bytes of a page from `off` on. -/
def getBytes (page : Page) (off n : Nat) : List Byte :=
  (List.range n).map fun k => getByte page (off + k)

def setBytes (page : Page) (off : Nat) : List Byte → Page
  | [] => page
  | b :: bs => setBytes (setByte page off b) (off + 1) bs

/-- `memmove(pa + off, src, n)`. -/
def putBytes (pa off : Nat) (src : List Byte) : M Unit :=
  modify fun s => s.write pa (setBytes (s.ram pa) off src)

/-- The user page behind `va0`, which may have to be faulted in. -/
def userPage (L : Layout) (p : ProcMem) (pagetable va0 : Nat) : M Nat := do
  let pa0 ← walkaddr pagetable va0
  if pa0 = 0 then vmfault L p pagetable va0 else return pa0

def copyout.loop (L : Layout) (p : ProcMem) (pagetable : Nat) : Nat → Nat → List Byte → M Int
  | _, _, [] => return 0
  | 0, _, _ :: _ => throw .spin
  | fuel + 1, dstva, b :: bs => do
    let src := b :: bs
    let va0 := PGROUNDDOWN dstva
    if MAXVA ≤ va0 then return -1
    else
      let pa0 ← userPage L p pagetable va0
      if pa0 = 0 then return -1
      else
        match ← walk pagetable va0 false with
        | none => throw .null
        | some slot =>
          -- forbid copyout over read-only user text pages
          if has (← load slot) PTE_W = false then return -1
          else
            let n := min (PGSIZE - (dstva - va0)) src.length
            putBytes pa0 (dstva - va0) (src.take n)
            loop L p pagetable fuel (u64 (va0 + PGSIZE)) (src.drop n)

def copyout (L : Layout) (p : ProcMem) (pagetable dstva : Nat) (src : List Byte) : M Int :=
  copyout.loop L p pagetable src.length dstva src

/-- The bytes moved so far are `dst`. -/
def copyin.loop (L : Layout) (p : ProcMem) (pagetable : Nat) :
    Nat → Nat → Nat → List Byte → M (Int × List Byte)
  | _, _, 0, dst => return (0, dst)
  | 0, _, _ + 1, _ => throw .spin
  | fuel + 1, srcva, k + 1, dst => do
    let len := k + 1
    let va0 := PGROUNDDOWN srcva
    let pa0 ← userPage L p pagetable va0
    if pa0 = 0 then return (-1, dst)
    else
      let n := min (PGSIZE - (srcva - va0)) len
      let page := (← get).ram pa0
      loop L p pagetable fuel (u64 (va0 + PGSIZE)) (len - n)
        (dst ++ getBytes page (srcva - va0) n)

def copyin (L : Layout) (p : ProcMem) (pagetable srcva len : Nat) : M (Int × List Byte) :=
  copyin.loop L p pagetable len srcva len []

/-- The inner loop of `copyinstr`: the bytes up to a NUL, and whether there was one. -/
def scan (page : Page) : Nat → Nat → List Byte × Bool
  | 0, _ => ([], false)
  | n + 1, off =>
    if getByte page off = 0 then ([], true)
    else ((getByte page off :: (scan page n (off + 1)).1), (scan page n (off + 1)).2)

def copyinstr.loop (pagetable : Nat) : Nat → Nat → Nat → List Byte → M (Int × List Byte)
  | _, _, 0, dst => return (-1, dst)
  | 0, _, _ + 1, _ => throw .spin
  | fuel + 1, srcva, k + 1, dst => do
    let va0 := PGROUNDDOWN srcva
    let pa0 ← walkaddr pagetable va0
    if pa0 = 0 then return (-1, dst)
    else
      let n := min (PGSIZE - (srcva - va0)) (k + 1)
      let str := scan ((← get).ram pa0) n (srcva - va0)
      if str.2 then return (0, dst ++ str.1 ++ [0])
      else loop pagetable fuel (u64 (va0 + PGSIZE)) (k + 1 - n) (dst ++ str.1)

def copyinstr (pagetable srcva max : Nat) : M (Int × List Byte) :=
  copyinstr.loop pagetable max srcva max []

end Xv6.Vm
