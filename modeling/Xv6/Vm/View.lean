import Xv6.Vm.Space

/-!
# Xv6.Vm.View — user memory as system calls see it

`view s p` is the memory of a process without its page table: which pages user code can access,
whether it can write them, and what is in them. A page below the size of the process that is not
there yet counts as a page of zeros, which is what a fault makes of it.

On such a memory copying goes byte by byte, and stops at the first byte that cannot be accessed.
The code copies page by page; the lemmas here put a page's part of a copy in one piece.
-/

namespace Xv6.Vm

open Lib Function List

/-- A page that user code can access. -/
structure UPage where
  write : Bool
  data : Page

/-- The accessible pages by their numbers. -/
abbrev UMem := Nat → Option UPage

/-- What an entry says of page `v` in a process of size `sz`. -/
def pageView (ram : Nat → Page) (sz v : Nat) (pte : BitVec 64) : Option UPage :=
  if UVPN ≤ v then none
  else if has pte PTE_V then
    if has pte PTE_U then some ⟨has pte PTE_W, ram (PTE2PA pte)⟩ else none
  else if v < pages sz then some ⟨true, filled 0⟩ else none

def view (s : Mem) (p : ProcMem) : UMem := fun v =>
  pageView s.ram p.sz v (leafAt s.ram 2 p.pagetable v)

/-- The page is in the page table. -/
def mapped (s : Mem) (p : ProcMem) (v : Nat) : Bool := has (leafAt s.ram 2 p.pagetable v) PTE_V

/-- What is there without a fault. -/
def present (s : Mem) (p : ProcMem) : UMem := fun v => if mapped s p v then view s p v else none

/-- The page of `va` was to be faulted in, but there was no memory: at most the one page that
`vmfault` has put back is free. -/
def Starved (s : Mem) (p : ProcMem) (va : Nat) : Prop :=
  va / PGSIZE < pages p.sz ∧ mapped s p (va / PGSIZE) = false ∧ s.free.length ≤ 1

/-! ## Copying -/

namespace UMem

def byte (u : UMem) (va : Nat) : Option Byte :=
  (u (va / PGSIZE)).map fun pg => getByte pg.data (va % PGSIZE)

/-- The memory with a byte written, if the page can be written. -/
def put (u : UMem) (va : Nat) (b : Byte) : Option UMem :=
  match u (va / PGSIZE) with
  | some pg =>
    if pg.write then
      some (update u (va / PGSIZE) (some ⟨true, setByte pg.data (va % PGSIZE) b⟩))
    else none
  | none => none

def copyin (u : UMem) : Nat → Nat → Int × List Byte
  | _, 0 => (0, [])
  | va, n + 1 =>
    match u.byte va with
    | none => (-1, [])
    | some b => ((copyin u (va + 1) n).1, b :: (copyin u (va + 1) n).2)

def copyout (u : UMem) : Nat → List Byte → Int × UMem
  | _, [] => (0, u)
  | va, b :: bs =>
    match u.put va b with
    | none => (-1, u)
    | some u => copyout u (va + 1) bs

/-- The bytes of a string, with its NUL, if it ends within `n` bytes. -/
def copyinstr (u : UMem) : Nat → Nat → Int × List Byte
  | _, 0 => (-1, [])
  | va, n + 1 =>
    match u.byte va with
    | none => (-1, [])
    | some b =>
      if b = 0 then (0, [0])
      else ((copyinstr u (va + 1) n).1, b :: (copyinstr u (va + 1) n).2)

/-- The memory after the size has changed: new pages are zeros. -/
def resize (u : UMem) (sz sz' : Nat) : UMem := fun v =>
  if v < pages sz' then if v < pages sz then u v else some ⟨true, filled 0⟩ else none

/-! ## A page at a time -/

variable {u : UMem} {va n k : Nat} {pg : UPage}

theorem next_page (h : va % PGSIZE + (n + 1) ≤ PGSIZE) :
    n = 0 ∨ ((va + 1) / PGSIZE = va / PGSIZE ∧ (va + 1) % PGSIZE = va % PGSIZE + 1) := by
  rw [PGSIZE_eq] at h ⊢
  omega

theorem byte_eq (hpg : u (va / PGSIZE) = some pg) :
    u.byte va = some (getByte pg.data (va % PGSIZE)) := by
  rw [byte, hpg]
  rfl

theorem getBytes_succ (page : Page) (off n : Nat) :
    getBytes page off (n + 1) = getByte page off :: getBytes page (off + 1) n := by
  unfold getBytes
  rw [range_succ_eq_map, map_cons, map_map]
  refine congrArg (_ :: ·) (map_congr_left fun i _ => congrArg (getByte page) ?_)
  simp only [Nat.succ_eq_add_one]
  omega

/-- Bytes that lie on one page. -/
theorem copyin_page (hpg : u (va / PGSIZE) = some pg) (h : va % PGSIZE + n ≤ PGSIZE) :
    u.copyin va (n + k) =
      ((u.copyin (va + n) k).1, getBytes pg.data (va % PGSIZE) n ++ (u.copyin (va + n) k).2) := by
  induction n generalizing va with
  | zero => rw [Nat.zero_add, Nat.add_zero]; rfl
  | succ n ih =>
    rw [Nat.succ_add, copyin, byte_eq hpg, getBytes_succ]
    rcases next_page h with rfl | ⟨hpage, hoff⟩
    · rw [Nat.zero_add]
      rfl
    · have hpg' : u ((va + 1) / PGSIZE) = some pg := by rw [hpage]; exact hpg
      have hrest := ih hpg' (by omega)
      rw [hoff, Nat.add_assoc, Nat.add_comm 1] at hrest
      simp only [hrest, cons_append]

theorem copyin_none (hn : u (va / PGSIZE) = none) : u.copyin va (n + 1) = (-1, []) := by
  rw [copyin, byte, hn]
  rfl

theorem copyout_page (hpg : u (va / PGSIZE) = some pg) (hw : pg.write = true) (bs : List Byte)
    (rest : List Byte) (h : va % PGSIZE + bs.length ≤ PGSIZE) :
    u.copyout va (bs ++ rest) =
      copyout (update u (va / PGSIZE)
        (some ⟨true, setBytes pg.data (va % PGSIZE) bs⟩)) (va + bs.length) rest := by
  induction bs generalizing va u pg with
  | nil =>
    have hsame : update u (va / PGSIZE) (some ⟨true, setBytes pg.data (va % PGSIZE) []⟩) =
        u := by
      rw [← hw]
      exact (congrArg (update u (va / PGSIZE)) hpg.symm).trans (update_eq_self _ _)
    rw [hsame]
    rfl
  | cons b bs ih =>
    rw [cons_append, copyout, put, hpg]
    dsimp only
    rw [if_pos hw]
    dsimp only
    rcases next_page h with hnil | ⟨hpage, hoff⟩
    · rw [length_eq_zero_iff] at hnil
      subst hnil
      rfl
    · have hpg' : update u (va / PGSIZE)
          (some ⟨true, setByte pg.data (va % PGSIZE) b⟩) ((va + 1) / PGSIZE) =
            some ⟨true, setByte pg.data (va % PGSIZE) b⟩ := by
        rw [hpage, update_self]
      rw [ih hpg' rfl (by rw [length_cons] at h; omega), hpage, update_idem, hoff,
        length_cons, Nat.add_assoc, Nat.add_comm 1]
      rfl

theorem copyout_refused (b : Byte) (bs : List Byte)
    (h : ∀ pg, u (va / PGSIZE) = some pg → pg.write = false) :
    u.copyout va (b :: bs) = (-1, u) := by
  have hput : u.put va b = none := by
    rw [put]
    cases hpg : u (va / PGSIZE) with
    | none => rfl
    | some pg => simp [h pg hpg]
  rw [copyout, hput]

/-- A string that goes beyond the page, or ends on it. -/
theorem copyinstr_page (hpg : u (va / PGSIZE) = some pg) (h : va % PGSIZE + n ≤ PGSIZE) :
    u.copyinstr va (n + k) =
      if (scan pg.data n (va % PGSIZE)).2 then (0, (scan pg.data n (va % PGSIZE)).1 ++ [0])
      else ((u.copyinstr (va + n) k).1,
        (scan pg.data n (va % PGSIZE)).1 ++ (u.copyinstr (va + n) k).2) := by
  induction n generalizing va with
  | zero => rw [Nat.zero_add, Nat.add_zero]; rfl
  | succ n ih =>
    rw [Nat.succ_add, copyinstr, byte_eq hpg]
    dsimp only
    rw [scan]
    by_cases hb : getByte pg.data (va % PGSIZE) = 0
    · rw [if_pos hb, if_pos hb]
      rfl
    rw [if_neg hb, if_neg hb]
    dsimp only
    rcases next_page h with rfl | ⟨hpage, hoff⟩
    · rw [Nat.zero_add]
      rfl
    · have hpg' : u ((va + 1) / PGSIZE) = some pg := by rw [hpage]; exact hpg
      have hrest := ih hpg' (by omega)
      rw [hoff, Nat.add_assoc, Nat.add_comm 1] at hrest
      rw [hrest]
      split_ifs
      · rfl
      · rfl

theorem copyinstr_none (hn : u (va / PGSIZE) = none) : u.copyinstr va (n + 1) = (-1, []) := by
  rw [copyinstr, byte, hn]
  rfl

end UMem

end Xv6.Vm
