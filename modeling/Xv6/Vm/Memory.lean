import Mathlib.Order.Interval.Finset.Nat
import Xv6.Lib.Wp

/-!
# Xv6.Vm.Memory — physical memory and its allocator

RAM is an array of 4096-byte pages of 512 words. Every pointer that `kalloc`,
`kfree` and the page tables pass around is page-aligned, so a page is named by its
page number `pa / PGSIZE`, and page 0 is the null pointer.

The free list of kernel/kalloc.c is threaded through the free pages themselves:
the first word of a free page points to the next one. A write to a free page or a
second `kfree` of one would damage the list, and both are possible in this model;
`Heap C own` says that neither has happened: the pages of the pool `C` are exactly
those in `own` together with those on a well-formed list.
-/

namespace Xv6.Vm

open Lib Function Multiset

/-! ## Address constants (kernel/riscv.h, kernel/memlayout.h) -/

/-- Bytes per page. -/
def PGSIZE : Nat := 4096

def KERNBASE : Nat := 0x80000000

def PHYSTOP : Nat := KERNBASE + 128 * 1024 * 1024

/-- One beyond the highest virtual address the kernel uses. -/
def MAXVA : Nat := 2 ^ (9 + 9 + 9 + 12 - 1)

def TRAMPOLINE : Nat := MAXVA - PGSIZE

def TRAPFRAME : Nat := TRAMPOLINE - PGSIZE

/-- 64-bit unsigned wrap-around. -/
def u64 (n : Nat) : Nat := n % 2 ^ 64

def PGROUNDUP (sz : Nat) : Nat := u64 (sz + PGSIZE - 1) / PGSIZE * PGSIZE

def PGROUNDDOWN (a : Nat) : Nat := a / PGSIZE * PGSIZE

/-- Pages of RAM; no list of distinct pages is longer. -/
def RAMPAGES : Nat := (PHYSTOP - KERNBASE) / PGSIZE

theorem PGSIZE_eq : PGSIZE = 4096 := rfl

theorem KERNBASE_page : KERNBASE / PGSIZE = 0x80000 := rfl

theorem PHYSTOP_page : PHYSTOP / PGSIZE = 0x88000 := rfl

theorem RAMPAGES_eq : RAMPAGES = 0x8000 := rfl

/-- Where the kernel image lies: the first whole page after `end`, and the page of
the trampoline code inside the image. -/
structure Layout where
  endPage : Nat
  trampoline : Nat
  kernbase_le : KERNBASE / PGSIZE ≤ trampoline
  trampoline_lt : trampoline < endPage
  endPage_le : endPage ≤ PHYSTOP / PGSIZE

/-! ## Memory -/

scoped instance neZeroWords : @NeZero Nat Zero.ofOfNat0 512 := ⟨Nat.succ_ne_zero 511⟩

/-- One page: 512 words. -/
abbrev Page := Fin 512 → BitVec 64

/-- The address of a word: its page and its index there. -/
abbrev Slot := Nat × Fin 512

/-- A page all of whose bytes are `c`. -/
def filled (c : BitVec 8) : Page := fun _ => c.setWidth 64 * 0x0101010101010101#64

@[simp] theorem filled_zero (i : Fin 512) : filled 0#8 i = 0#64 := by
  unfold filled
  decide

/-- Physical memory and `kmem.freelist`. `double` is a ghost: some `kfree` was given a page
that was on the free list. -/
structure Mem where
  ram : Nat → Page
  freelist : Nat
  double : Bool

/-- The panics of kernel/vm.c, kernel/kalloc.c, kernel/exec.c and `kexit`; `spin` is a loop or
recursion of the source that would not end, `null` a null pointer that is used, and `userinit`
the one that `userinit` uses when there is no memory for the first process. -/
inductive Panic
  | kfree | walk | mappagesVa | mappagesSize | mappagesZero | remap | uvmunmap | freewalkLeaf
  | uvmclear | loadseg | initExiting | filedup | fileclose | spin | null | userinit
  deriving DecidableEq, Repr

/-- Kernel code over physical memory. -/
abbrev M := StateT Mem (Except Panic)

/-- The memory after page `p` was overwritten. -/
def Mem.write (s : Mem) (p : Nat) (page : Page) : Mem :=
  { s with ram := update s.ram p page }

@[simp] theorem Mem.write_self (s : Mem) (p : Nat) (page : Page) : (s.write p page).ram p = page :=
  update_self _ _ _

variable {p : Nat}

theorem Mem.write_of_ne (s : Mem) {q : Nat} (page : Page) (h : q ≠ p) :
    (s.write p page).ram q = s.ram q :=
  update_of_ne h _ _

def memset (p : Nat) (c : BitVec 8) : M Unit := modify fun s => s.write p (filled c)

def load (a : Slot) : M (BitVec 64) := do return (← get).ram a.1 a.2

def store (a : Slot) (w : BitVec 64) : M Unit :=
  modify fun s => s.write a.1 (update (s.ram a.1) a.2 w)

section
variable {E : Panic → Prop} {s : Mem}

@[simp] theorem wp_load {Q : BitVec 64 → Mem → Prop} (a : Slot) :
    wp E (load a) Q s ↔ Q (s.ram a.1 a.2) s := by
  simp only [load, wp_bind, wp_get, wp_pure]

@[simp] theorem wp_memset {Q : Unit → Mem → Prop} (p : Nat) (c : BitVec 8) :
    wp E (memset p c) Q s ↔ Q () (s.write p (filled c)) := by
  rw [memset, wp_modify]

@[simp] theorem wp_store {Q : Unit → Mem → Prop} (a : Slot) (w : BitVec 64) :
    wp E (store a w) Q s ↔
      Q () (s.write a.1 (update (s.ram a.1) a.2 w)) := by
  rw [store, wp_modify]

end

/-! ## The allocator (kernel/kalloc.c) -/

/-- `r->next`: the page the first word of `r` points to. -/
def next (ram : Nat → Page) (r : Nat) : Nat := (ram r 0).toNat / PGSIZE

/-- The pages met by following at most `n` links from `r`. -/
def freePages (ram : Nat → Page) : Nat → Nat → List Nat
  | 0, _ => []
  | n + 1, r => if r = 0 then [] else r :: freePages ram n (next ram r)

/-- The pages on the free list. -/
def Mem.free (s : Mem) : List Nat := freePages s.ram RAMPAGES s.freelist

def kalloc : M Nat := do
  let s ← get
  let r := s.freelist
  if r = 0 then
    return 0
  else
    set { s with freelist := next s.ram r }
    memset r 5
    return r

def kfree (L : Layout) (pa : Nat) : M Unit := do
  if pa < L.endPage ∨ PHYSTOP / PGSIZE ≤ pa then
    throw .kfree
  else
    modify fun s => { s with double := s.double || decide (pa ∈ s.free) }
    memset pa 1
    let s ← get
    store (pa, 0) (BitVec.ofNat 64 (s.freelist * PGSIZE))
    modify fun s => { s with freelist := pa }

/-- The loop of `count_free_ram`; `none` if the list goes on for longer than there is RAM. -/
def countFreeRam.loop (ram : Nat → Page) : Nat → Nat → Nat → Option Nat
  | 0, _, _ => none
  | fuel + 1, r, free_bytes =>
    if r = 0 then some free_bytes
    else loop ram fuel (next ram r) (free_bytes + PGSIZE)

def countFreeRam (s : Mem) : Option Nat :=
  countFreeRam.loop s.ram (RAMPAGES + 1) s.freelist 0

/-! ## The free list as a chain -/

/-- Following the links from `r` meets the pages of the list in order and ends. -/
def Chain (ram : Nat → Page) : Nat → List Nat → Prop
  | r, [] => r = 0
  | r, p :: l => r = p ∧ p ≠ 0 ∧ Chain ram (next ram p) l

variable {ram : Nat → Page} {l : List Nat}

/-- The first word of `p` is the address of page `r`. -/
theorem next_of_link {r : Nat} (h : ram p 0 = BitVec.ofNat 64 (r * PGSIZE))
    (hr : r < PHYSTOP / PGSIZE) : next ram p = r := by
  rw [PHYSTOP_page] at hr
  simp only [next, h, PGSIZE_eq, BitVec.toNat_ofNat]
  omega

/-- A chain depends on its own pages only. -/
theorem Chain.congr {ram' : Nat → Page} : ∀ {r : Nat}, (∀ q ∈ l, ram' q = ram q)
    → Chain ram r l → Chain ram' r l := by
  induction l with
  | nil => intro r _ h; exact h
  | cons p l ih =>
    intro r hram h
    rcases h with ⟨hr, hp, hrest⟩
    refine ⟨hr, hp, ?_⟩
    have hnext : next ram' p = next ram p := by
      unfold next
      rw [hram p List.mem_cons_self]
    rw [hnext]
    exact ih (fun q hq => hram q (List.mem_cons_of_mem p hq)) hrest

theorem Chain.freePages_eq : ∀ {r n : Nat},
    Chain ram r l → l.length ≤ n → freePages ram n r = l := by
  induction l with
  | nil =>
    intro r n h _
    cases n with
    | zero => rfl
    | succ n => simp [freePages, show r = 0 from h]
  | cons p l ih =>
    intro r n h hn
    rcases h with ⟨rfl, hr, hrest⟩
    cases n with
    | zero => simp at hn
    | succ n =>
      simp only [freePages, hr, if_false]
      rw [ih hrest (by simpa using hn)]

/-- The loop of the system call counts the pages of the list. -/
theorem Chain.count_eq : ∀ {r n b : Nat},
    Chain ram r l → l.length < n →
      countFreeRam.loop ram n r b = some (b + PGSIZE * l.length) := by
  induction l with
  | nil =>
    intro r n b h hn
    cases n with
    | zero => simp at hn
    | succ n => simp [countFreeRam.loop, show r = 0 from h]
  | cons p l ih =>
    intro r n b h hn
    rcases h with ⟨rfl, hr, hrest⟩
    cases n with
    | zero => simp at hn
    | succ n =>
      simp only [countFreeRam.loop, hr, if_false]
      rw [ih hrest (by simpa using hn)]
      simp only [List.length_cons, Nat.mul_succ, Option.some.injEq]
      omega

/-! ## Pools and heaps -/

/-- The pages the allocator manages: distinct, and all accepted by `kfree`. -/
structure Pool (L : Layout) (C : Multiset Nat) : Prop where
  nodup : C.Nodup
  range : ∀ p ∈ C, L.endPage ≤ p ∧ p < PHYSTOP / PGSIZE

/-- Every page of the pool `C` is in `own` or on the free list, which is intact. -/
structure Heap (C own : Multiset Nat) (s : Mem) : Prop where
  list : ∃ l : List Nat, Chain s.ram s.freelist l ∧ own + (l : Multiset Nat) = C
  double : s.double = false

/-- Memory outside the pool and in the pages `keep` is the same. -/
def Keeps (C keep : Multiset Nat) (s t : Mem) : Prop :=
  ∀ q, q ∈ keep ∨ q ∉ C → t.ram q = s.ram q

section
variable {L : Layout} {C own R : Multiset Nat} {s t u : Mem} {E : Panic → Prop}

theorem Keeps.refl (C R : Multiset Nat) (s : Mem) : Keeps C R s s := fun _ _ => rfl

theorem Keeps.trans (h₁ : Keeps C R s t) (h₂ : Keeps C R t u) : Keeps C R s u :=
  fun q hq => (h₂ q hq).trans (h₁ q hq)

theorem Keeps.mono {R' : Multiset Nat} (h : Keeps C R s t) (hle : R' ≤ R) :
    Keeps C R' s t :=
  fun q hq => h q (hq.imp_left fun hm => mem_of_le hle hm)

/-- What changes one page `p` of the pool keeps every other page. -/
theorem Keeps.of_ne (h : ∀ q ≠ p, t.ram q = s.ram q) (hp : p ∈ C) (hkeep : p ∉ R) :
    Keeps C R s t := by
  intro q hq
  apply h
  rintro rfl
  exact hq.elim hkeep fun hC => hC hp

theorem Pool.pos (hC : Pool L C) (hp : p ∈ C) : p ≠ 0 := by
  have h₁ := (hC.range p hp).1
  have h₂ := L.kernbase_le
  have h₃ := L.trampoline_lt
  rw [KERNBASE_page] at h₂
  omega

theorem Pool.lt (hC : Pool L C) (hp : p ∈ C) : p < 2 ^ 44 := by
  have h := (hC.range p hp).2
  rw [PHYSTOP_page] at h
  omega

theorem Pool.card_le (hC : Pool L C) : C.card ≤ RAMPAGES := by
  have hsub : (⟨C, hC.nodup⟩ : Finset Nat) ⊆
      Finset.Ico (KERNBASE / PGSIZE) (PHYSTOP / PGSIZE) := by
    intro p hp
    have hr := hC.range p hp
    have hk := L.kernbase_le
    have ht := L.trampoline_lt
    exact Finset.mem_Ico.mpr ⟨by omega, hr.2⟩
  have hcard := Finset.card_le_card hsub
  rw [Nat.card_Ico] at hcard
  exact hcard

theorem Heap.own_le (h : Heap C own s) : own ≤ C := by
  rcases h.list with ⟨l, -, hl⟩
  exact hl ▸ le_add_right own _

theorem Heap.mem (h : Heap C own s) (hp : p ∈ own) : p ∈ C :=
  mem_of_le h.own_le hp

variable (hC : Pool L C)
include hC

section
variable (h : Heap C own s)
include h

theorem Heap.nodup : own.Nodup :=
  nodup_of_le h.own_le hC.nodup

/-- The free list holds what is not owned. -/
theorem Heap.free_eq : own + (s.free : Multiset Nat) = C ∧ Chain s.ram s.freelist s.free := by
  rcases h.list with ⟨l, hchain, hl⟩
  have hlen : l.length ≤ RAMPAGES := by
    have hcard := hC.card_le
    rw [← hl, card_add, coe_card] at hcard
    omega
  have hfree : s.free = l := hchain.freePages_eq hlen
  rw [hfree]
  exact ⟨hl, hchain⟩

theorem Heap.countFreeRam_eq : countFreeRam s = some (PGSIZE * s.free.length) := by
  rcases h.free_eq hC with ⟨hl, hchain⟩
  have hlen : s.free.length < RAMPAGES + 1 := by
    have hcard := hC.card_le
    rw [← hl, card_add, coe_card] at hcard
    omega
  have hcount := hchain.count_eq (b := 0) hlen
  rw [Nat.zero_add] at hcount
  exact hcount

/-- Writing to owned pages, with the list head untouched, leaves the heap as it is. -/
theorem Heap.keep (hram : ∀ q ∉ own, t.ram q = s.ram q) (hfree : t.freelist = s.freelist)
    (hdouble : t.double = s.double) : Heap C own t := by
  rcases h.list with ⟨l, hchain, hl⟩
  have hdisj : ∀ q ∈ l, q ∉ own := by
    intro q hq ho
    have hnd := hC.nodup
    rw [← hl] at hnd
    exact disjoint_left.mp (nodup_add.mp hnd).2.2 ho (by simpa using hq)
  refine ⟨⟨l, ?_, hl⟩, hdouble.trans h.double⟩
  rw [hfree]
  exact hchain.congr fun q hq => hram q (hdisj q hq)

/-- A page that is owned is not on the free list. -/
theorem Heap.write (hp : p ∈ own) (page : Page) :
    Heap C own (s.write p page) := by
  refine h.keep hC (fun q hq => ?_) rfl rfl
  have hne : q ≠ p := fun he => hq (he ▸ hp)
  exact update_of_ne hne page s.ram

/-- `kalloc` takes a page from the list, or finds it empty. -/
theorem kalloc_spec :
    wp E kalloc (fun r t =>
      (r = 0 ∧ t = s ∧ own = C) ∨
      (r ≠ 0 ∧ Heap C (r ::ₘ own) t ∧ ∀ q ≠ r, t.ram q = s.ram q)) s := by
  rcases h.list with ⟨l, hchain, hl⟩
  simp only [kalloc, wp_bind, wp_get, wp_ite, wp_pure, wp_set, wp_memset, true_and]
  refine ⟨fun hr => .inl ?_, fun hr => .inr ⟨hr, ?_, ?_⟩⟩
  · -- a null head is the empty list
    cases l with
    | nil => simpa using hl
    | cons p l => exact absurd (hchain.1.symm.trans hr) hchain.2.1
  · cases l with
    | nil => exact absurd hchain hr
    | cons p l =>
      rcases hchain with ⟨rfl, -, hrest⟩
      have hp : s.freelist ∉ l := by
        have hnd := hC.nodup
        rw [← hl] at hnd
        exact (List.nodup_cons.mp (coe_nodup.mp (nodup_add.mp hnd).2.1)).1
      refine ⟨⟨l, hrest.congr fun q hq => ?_, ?_⟩, h.double⟩
      · have hne : q ≠ s.freelist := fun he => hp (he ▸ hq)
        exact update_of_ne hne _ _
      · rw [← hl, ← cons_coe, cons_add, add_cons]
  · intro q hq
    exact update_of_ne hq _ _

end

/-- `kfree` puts an owned page on the list. -/
theorem kfree_spec (h : Heap C (p ::ₘ own) s) :
    wp E (kfree L p) (fun _ t =>
      Heap C own t ∧ ∀ q ≠ p, t.ram q = s.ram q) s := by
  have hpC : p ∈ C := h.mem (mem_cons_self p own)
  have hrange := hC.range p hpC
  rcases h.free_eq hC with ⟨hl, hchain⟩
  have hnd := hC.nodup
  rw [← hl] at hnd
  have hfree : p ∉ s.free := fun hm =>
    disjoint_left.mp (nodup_add.mp hnd).2.2 (mem_cons_self p own)
      (by simpa using hm)
  -- the head of the list is a page of the pool or null, so its address fits a word
  have hhead : s.freelist < PHYSTOP / PGSIZE := by
    cases hf : s.free with
    | nil =>
      rw [hf] at hchain
      rw [show s.freelist = 0 from hchain]
      decide
    | cons r l =>
      rw [hf] at hchain hl
      rw [hchain.1]
      refine (hC.range r ?_).2
      rw [← hl]
      simp
  simp only [kfree, wp_bind, wp_ite, wp_throw, wp_modify, wp_get, wp_memset, wp_store]
  refine ⟨fun hbad => absurd hbad (by omega), fun _ => ⟨⟨⟨p :: s.free, ?_, ?_⟩, ?_⟩, ?_⟩⟩
  · refine ⟨rfl, hC.pos hpC, ?_⟩
    rw [next_of_link (r := s.freelist) (by simp [Mem.write]) hhead]
    refine hchain.congr fun q hq => ?_
    have hne : q ≠ p := fun he => hfree (he ▸ hq)
    simp [Mem.write, hne]
  · rw [← hl, ← cons_coe, add_cons, cons_add]
  · simp [Mem.write, h.double, hfree]
  · intro q hq
    simp [Mem.write, hq]

end

/-! ## Memory at boot -/

/-- `kinit` has freed page `endPage` and the `k` after it: each holds the address of the one
before. -/
def booted (L : Layout) (k : Nat) : Mem where
  ram q i := if i = 0 ∧ L.endPage < q then BitVec.ofNat 64 ((q - 1) * PGSIZE) else 0
  freelist := L.endPage + k
  double := false

section
variable {L : Layout} {k : Nat} (h : L.endPage + k < PHYSTOP / PGSIZE)
include h

/-- `kinit` frees the pages upwards, so the list goes down. -/
theorem booted_links :
    Chain (booted L k).ram (L.endPage + k) (List.range' L.endPage (k + 1)).reverse := by
  have hpos := L.trampoline_lt
  induction k with
  | zero => exact ⟨rfl, by omega, by simp [booted, next, Chain]⟩
  | succ k ih =>
    rw [List.range'_1_concat, List.reverse_append]
    refine ⟨by omega, by omega, ?_⟩
    rw [next_of_link (r := L.endPage + k) (if_pos ⟨rfl, by omega⟩) (by omega)]
    exact ih (by omega)

theorem booted_free : (booted L k).free = (List.range' L.endPage (k + 1)).reverse := by
  refine (booted_links h).freePages_eq ?_
  have hlow := L.kernbase_le
  have hend := L.trampoline_lt
  rw [PHYSTOP_page] at h
  rw [KERNBASE_page] at hlow
  rw [List.length_reverse, List.length_range', RAMPAGES_eq]
  omega

theorem booted_chain : Chain (booted L k).ram (booted L k).freelist (booted L k).free := by
  rw [booted_free h]
  exact booted_links h

theorem booted_pool : Pool L (booted L k).free := by
  rw [booted_free h]
  refine ⟨?_, fun p hp => ?_⟩
  · rw [coe_nodup, List.nodup_reverse]
    exact List.nodup_range'
  · rw [mem_coe, List.mem_reverse, List.mem_range'_1] at hp
    omega

end

/-- What a run that returns leaves, by its result. -/
theorem run_of_result {α : Type} {x : Except Panic (α × Mem)} {a : α}
    (h : x.toOption.map Prod.fst = some a) : ∃ t, x = .ok (a, t) := by
  cases x with
  | error e => cases h
  | ok r =>
    obtain ⟨b, t⟩ := r
    cases h
    exact ⟨t, rfl⟩

end Xv6.Vm
