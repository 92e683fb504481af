import Xv6.Vm.Copy
import Xv6.Param

/-!
# Xv6.Vm.Exec — replacing an address space (kernel/exec.c, `sys_exec`)

`kexec` builds a new address space from an executable, copies the arguments onto
its stack, and only then gives up the old one. The executable is what `readi` makes
of it: any bytes at any offset, possibly fewer than asked for. `sys_exec` holds the
argument strings in pages of its own meanwhile.

While the image is loaded, every page below the running size is mapped (`Image`).
This bounds the size by the pages there are, whatever the headers say, so that
`walk` is never asked for an address beyond `MAXVA`.
-/

namespace Xv6.Vm

open Lib

/-! ## The executable -/

/-- What `readi(ip, 0, dst, off, n)` copies, given offset and length. -/
abbrev Exe := Nat → Nat → List Byte

def u32 (n : Nat) : Nat := n % 2 ^ 32

/-- 64-bit unsigned subtraction. -/
def sub64 (a b : Nat) : Nat := u64 (a + 2 ^ 64 - b)

def readi (exe : Exe) (off n : Nat) : List Byte := (exe off n).take n

/-- A little-endian number. -/
def le : List Byte → Nat
  | [] => 0
  | b :: bs => b.toNat + 256 * le bs

/-- The field of `n` bytes at `off` in a header. -/
def field (header : List Byte) (off n : Nat) : Nat := le ((header.drop off).take n)

def ELF_MAGIC : Nat := 0x464C457F

def ELF_PROG_LOAD : Nat := 1

/-- `sizeof(struct elfhdr)` and `sizeof(struct proghdr)`. -/
def ELFHDR : Nat := 64
def PROGHDR : Nat := 56

/-- What `kexec` uses of a program header. -/
structure Proghdr where
  type : Nat
  flags : Nat
  off : Nat
  vaddr : Nat
  filesz : Nat
  memsz : Nat

def Proghdr.ofBytes (b : List Byte) : Proghdr where
  type := field b 0 4
  flags := field b 4 4
  off := field b 8 8
  vaddr := field b 16 8
  filesz := field b 32 8
  memsz := field b 40 8

def flags2perm (flags : Nat) : BitVec 64 :=
  (if flags % 2 = 1 then PTE_X else 0) ||| (if flags / 2 % 2 = 1 then PTE_W else 0)

/-! ## Loading segments -/

/-- The loop of `loadseg`. -/
def loadseg.loop (exe : Exe) (pagetable va offset sz : Nat) : Nat → Nat → M Int
  | 0, _ => throw .spin
  | fuel + 1, i =>
    if i < sz then do
      let pa ← walkaddr pagetable (u64 (va + i))
      if pa = 0 then throw .loadseg
      else
        let n := if sz - i < PGSIZE then sz - i else PGSIZE
        let bytes := readi exe (u32 (offset + i)) n
        putBytes pa 0 bytes
        if bytes.length ≠ n then return -1
        else loop exe pagetable va offset sz fuel (u32 (i + PGSIZE))
    else
      return 0

def loadseg (exe : Exe) (pagetable va offset sz : Nat) : M Int :=
  loadseg.loop exe pagetable va offset sz (sz / PGSIZE + 2) 0

/-- The loop of `kexec` over the program headers, `n` of them left: whether it went through,
and the size reached. -/
def loadSegs (L : Layout) (exe : Exe) (pagetable : Nat) : Nat → Nat → Nat → M (Bool × Nat)
  | 0, _, sz => return (true, sz)
  | n + 1, off, sz =>
    let bytes := readi exe off PROGHDR
    let ph := Proghdr.ofBytes bytes
    if bytes.length ≠ PROGHDR then return (false, sz)
    else if ph.type ≠ ELF_PROG_LOAD then loadSegs L exe pagetable n (u32 (off + PROGHDR)) sz
    else if ph.memsz < ph.filesz then return (false, sz)
    else if u64 (ph.vaddr + ph.memsz) < ph.vaddr then return (false, sz)
    else if ph.vaddr % PGSIZE ≠ 0 then return (false, sz)
    else do
      let sz1 ← uvmalloc L pagetable sz (u64 (ph.vaddr + ph.memsz)) (flags2perm ph.flags)
      if sz1 = 0 then return (false, sz)
      else
        let r ← loadseg exe pagetable ph.vaddr (u32 ph.off) (u32 ph.filesz)
        if r < 0 then return (false, sz1)
        else loadSegs L exe pagetable n (u32 (off + PROGHDR)) sz1

/-! ## Arguments -/

/-- The string in a page of `sys_exec`; `fetchstr` has put its NUL into the page. -/
def cstr (page : Nat) : M (List Byte) := do
  return (scan ((← get).ram page) (PGSIZE - 1) 0).1

/-- The bytes of a 64-bit word. -/
def wordBytes (n : Nat) : List Byte :=
  (List.range 8).map fun k => BitVec.ofNat 8 (n / 256 ^ k)

/-- The loop of `kexec` that pushes the argument strings; `ustack` holds their addresses. -/
def pushArgs (L : Layout) (p : ProcMem) (pagetable stackbase : Nat) :
    List Nat → Nat → List Nat → M (Option (Nat × List Nat))
  | [], sp, ustack => return some (sp, ustack)
  | arg :: argv, sp, ustack =>
    if MAXARG ≤ ustack.length then return none
    else do
      let str ← cstr arg
      let sp := sub64 sp (str.length + 1)
      let sp := sp - sp % 16
      if sp < stackbase then return none
      else
        let r ← copyout L p pagetable sp (str ++ [0])
        if r < 0 then return none
        else pushArgs L p pagetable stackbase argv sp (ustack ++ [sp])

/-! ## `kexec` and `sys_exec` -/

/-- The `bad` exit, once there is a page table. -/
def kexec.bad (L : Layout) (pagetable sz : Nat) : M (Option (ProcMem × Nat)) := do
  procFreepagetable L pagetable sz
  return none

/-- After the segments are loaded: the stack, the arguments, the commit. -/
def kexec.finish (L : Layout) (p : ProcMem) (argv : List Nat) (entry pagetable sz : Nat) :
    M (Option (ProcMem × Nat)) := do
  let sz := PGROUNDUP sz
  let sz1 ← uvmalloc L pagetable sz (u64 (sz + (USERSTACK + 1) * PGSIZE)) PTE_W
  if sz1 = 0 then bad L pagetable sz
  else
    uvmclear pagetable (sub64 sz1 ((USERSTACK + 1) * PGSIZE))
    let stackbase := sub64 sz1 (USERSTACK * PGSIZE)
    match ← pushArgs L p pagetable stackbase argv sz1 [] with
    | none => bad L pagetable sz1
    | some (sp, ustack) =>
      let sp := sub64 sp ((ustack.length + 1) * 8)
      let sp := sp - sp % 16
      if sp < stackbase then bad L pagetable sz1
      else
        let r ← copyout L p pagetable sp ((ustack ++ [0]).flatMap wordBytes)
        if r < 0 then bad L pagetable sz1
        else
          -- the trapframe's a1, epc and sp
          store (p.trapframe, 15) (BitVec.ofNat 64 sp)
          store (p.trapframe, 3) (BitVec.ofNat 64 entry)
          store (p.trapframe, 6) (BitVec.ofNat 64 sp)
          procFreepagetable L p.pagetable p.sz
          return some ({ p with pagetable := pagetable, sz := sz1 }, ustack.length)

/-- `kexec` on the file found at the path: the process with its new address space and `argc`,
or `none` for -1. -/
def kexec (L : Layout) (p : ProcMem) (file : Option Exe) (argv : List Nat) :
    M (Option (ProcMem × Nat)) :=
  match file with
  | none => return none
  | some exe =>
    let elf := readi exe 0 ELFHDR
    if elf.length ≠ ELFHDR then return none
    else if field elf 0 4 ≠ ELF_MAGIC then return none
    else do
      let pagetable ← procPagetable L p.trapframe
      if pagetable = 0 then return none
      else
        let r ← loadSegs L exe pagetable (field elf 56 2) (u32 (field elf 32 8)) 0
        if r.1 = false then kexec.bad L pagetable r.2
        else kexec.finish L p argv (field elf 24 8) pagetable r.2

def fetchaddr (L : Layout) (p : ProcMem) (addr : Nat) : M (Option Nat) :=
  if p.sz ≤ addr ∨ p.sz < u64 (addr + 8) then return none
  else do
    let r ← copyin L p p.pagetable addr 8
    if r.1 ≠ 0 then return none else return some (le r.2)

/-- The loop of `sys_exec` that fetches the arguments, with `n` slots of `argv` left. -/
def fetchArgs (L : Layout) (p : ProcMem) : Nat → Nat → List Nat → M (Bool × List Nat)
  | 0, _, argv => return (false, argv)
  | n + 1, addr, argv => do
    match ← fetchaddr L p addr with
    | none => return (false, argv)
    | some uarg =>
      if uarg = 0 then return (true, argv)
      else
        let page ← kalloc
        if page = 0 then return (false, argv)
        else
          let r ← copyinstr p.pagetable uarg PGSIZE
          putBytes page 0 r.2
          if r.1 < 0 then return (false, argv ++ [page])
          else fetchArgs L p n (u64 (addr + 8)) (argv ++ [page])

def sysExec (L : Layout) (p : ProcMem) (file : Option Exe) (uargv : Nat) :
    M (Option (ProcMem × Nat)) := do
  let args ← fetchArgs L p MAXARG uargv []
  if args.1 then
    let r ← kexec L p file args.2
    forM args.2 fun page => kfree L page
    return r
  else
    forM args.2 fun page => kfree L page
    return none

end Xv6.Vm
