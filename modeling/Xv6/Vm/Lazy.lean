import Xv6.Vm.Copy

/-!
# Xv6.Vm.Lazy — eager and lazy growth

Two processes that made the same calls of `sbrk`, one with `SBRK_EAGER` and one with `SBRK_LAZY`,
see the same memory (`Alike`), although the second has fewer pages. `copyin` and `copyout` fault
the missing pages in and cannot tell the two apart as long as there is memory for that.
`copyinstr` does not fault: it gives up at a page that is missing, where the other process has a
page of zeros, hence the end of a string (`lazy_growth_alike`, `lazyRun_differs`).
-/

namespace Xv6.Vm

open Lib

/-! ## Strings across missing pages -/

theorem getByte_blank (off : Nat) : getByte (filled 0) off = 0 := by
  have hzero : filled 0 (wordOf off) = 0#64 := filled_zero _
  rw [getByte, hzero, BitVec.zero_ushiftRight]
  rfl

namespace UMem

/-- The memory of the pages in `A` only. -/
def restrict (u : UMem) (A : Nat → Bool) : UMem := fun v => if A v then u v else none

/-- All pages outside `A` are blank. -/
def BlankOutside (u : UMem) (A : Nat → Bool) : Prop :=
  ∀ v, A v = false → u v = none ∨ u v = some ⟨true, filled 0⟩

variable {A : Nat → Bool} {va : Nat}

theorem byte_restrict_true {u : UMem} (h : A (va / PGSIZE) = true) :
    (u.restrict A).byte va = u.byte va := by
  rw [byte, restrict, if_pos h]
  rfl

theorem byte_restrict_false {u : UMem} (h : A (va / PGSIZE) = false) :
    (u.restrict A).byte va = none := by
  rw [byte, restrict, if_neg (by simp [h])]
  rfl

theorem byte_restrict_none {u : UMem} (h : u.byte va = none) (A : Nat → Bool) :
    (u.restrict A).byte va = none := by
  cases hA : A (va / PGSIZE) with
  | true => rw [byte_restrict_true hA, h]
  | false => exact byte_restrict_false hA

/-- A byte other than NUL is not on a blank page. -/
theorem BlankOutside.mem {u : UMem} (h : u.BlankOutside A) {b : Byte} (hbyte : u.byte va = some b)
    (hb : b ≠ 0) : A (va / PGSIZE) = true := by
  cases hA : A (va / PGSIZE) with
  | true => rfl
  | false =>
    rcases h _ hA with hnone | hblank
    · rw [byte, hnone] at hbyte
      cases hbyte
    · rw [byte_eq hblank, getByte_blank] at hbyte
      cases hbyte
      exact absurd rfl hb

/-- Reading a string with some pages missing or with others: the same, exactly if every byte of the
string is on a page that is missing in both or in neither. -/
theorem copyinstr_restrict {u : UMem} {B : Nat → Bool} (hA : u.BlankOutside A)
    (hB : u.BlankOutside B) (n : Nat) : ∀ va,
    (u.restrict A).copyinstr va n = (u.restrict B).copyinstr va n ↔
      ∀ k < (u.copyinstr va n).2.length, A ((va + k) / PGSIZE) = B ((va + k) / PGSIZE) := by
  induction n with
  | zero => exact fun va => iff_of_true rfl fun k hk => absurd hk (Nat.not_lt_zero k)
  | succ n ih =>
    intro va
    rw [copyinstr, copyinstr, copyinstr]
    cases hbyte : u.byte va with
    | none =>
      rw [byte_restrict_none hbyte, byte_restrict_none hbyte]
      exact iff_of_true rfl fun k hk => absurd hk (Nat.not_lt_zero k)
    | some b =>
      by_cases hb : b = 0
      · -- the end of the string, which a missing page hides
        subst hb
        have hone : (∀ k < [(0 : Byte)].length, A ((va + k) / PGSIZE) = B ((va + k) / PGSIZE)) ↔
            A (va / PGSIZE) = B (va / PGSIZE) := by
          simp
        simp only [if_true]
        rw [hone]
        cases hAv : A (va / PGSIZE) <;> cases hBv : B (va / PGSIZE)
        · simp [byte_restrict_false hAv, byte_restrict_false hBv]
        · simp [byte_restrict_false hAv, byte_restrict_true hBv, hbyte]
        · simp [byte_restrict_true hAv, byte_restrict_false hBv, hbyte]
        · simp [byte_restrict_true hAv, byte_restrict_true hBv, hbyte]
      · have hAv := hA.mem hbyte hb
        have hBv := hB.mem hbyte hb
        rw [byte_restrict_true hAv, byte_restrict_true hBv, hbyte]
        dsimp only
        rw [if_neg hb, if_neg hb, if_neg hb, Prod.mk.injEq, List.cons.injEq]
        have hrest := ih (va + 1)
        have hshift (k : Nat) : va + (k + 1) = va + 1 + k := by omega
        rw [Prod.ext_iff] at hrest
        constructor
        · rintro ⟨hret, -, hbytes⟩ k hk
          cases k with
          | zero => rw [Nat.add_zero, hAv, hBv]
          | succ k =>
            rw [hshift]
            exact hrest.mp ⟨hret, hbytes⟩ k (Nat.lt_of_succ_lt_succ hk)
        · intro hall
          have hsame := hrest.mpr fun k hk => hshift k ▸ hall (k + 1) (Nat.succ_lt_succ hk)
          exact ⟨hsame.1, rfl, hsame.2⟩

theorem length_copyin {u : UMem} {n : Nat} : ∀ {va : Nat}, (u.copyin va n).1 = 0 →
    (u.copyin va n).2.length = n := by
  induction n with
  | zero => exact fun _ => rfl
  | succ n ih =>
    intro va h
    rw [copyin] at h ⊢
    cases hbyte : u.byte va with
    | none =>
      rw [hbyte] at h
      cases h
    | some b =>
      rw [hbyte] at h
      exact congrArg (· + 1) (ih h)

end UMem

/-! ## Growing -/

/-- Calls of `sbrk` with one flag, what they return, and the process after them. Since `kalloc`
succeeds, a call is refused only for the size it asks for. -/
inductive Sbrks (L : Layout) (eager : Bool) :
    Mem → ProcMem → List Int → List (Option Nat) → Mem → ProcMem → Prop
  | nil (s : Mem) (p : ProcMem) : Sbrks L eager s p [] [] s p
  | cons {s t u : Mem} {p p' q : ProcMem} {n : Int} {ns : List Int} {r : Option Nat}
      {rs : List (Option Nat)} (call : sysSbrk L p n eager s = .ok ((r, p'), t))
      (granted : r = none → TRAPFRAME < addInt p.sz n) (rest : Sbrks L eager t p' ns rs u q) :
      Sbrks L eager s p (n :: ns) (r :: rs) u q

/-- Two processes that see the same memory. -/
structure Alike (L : Layout) (C R : Multiset Nat) (s₁ : Mem) (p₁ : ProcMem) (s₂ : Mem)
    (p₂ : ProcMem) : Prop where
  user₁ : ∃ m, User L C ({p₁.trapframe} + R) p₁ m s₁
  user₂ : ∃ m, User L C ({p₂.trapframe} + R) p₂ m s₂
  sz : p₁.sz = p₂.sz
  view : view s₁ p₁ = view s₂ p₂

section
variable {L : Layout} {C R : Multiset Nat} {s s₁ s₂ t₁ t₂ : Mem} {p p₁ p₂ q₁ q₂ : ProcMem}
  {m : Nat → BitVec 64} {n : Int} {ns : List Int} {rs₁ rs₂ : List (Option Nat)}

/-- One call, whose result depends on the size only. -/
theorem sbrk_result (hC : Pool L C) (hn : -2 ^ 31 ≤ n ∧ n < 2 ^ 31) {eager : Bool}
    (h : User L C ({p.trapframe} + R) p m s) {r : Option Nat} {q : ProcMem} {t : Mem}
    (hcall : sysSbrk L p n eager s = .ok ((r, q), t))
    (hgranted : r = none → TRAPFRAME < addInt p.sz n) :
    (∃ m', User L C ({q.trapframe} + R) q m' t) ∧
      r = (sbrkSize p.sz n).map (fun _ => p.sz) ∧ q.sz = (sbrkSize p.sz n).getD p.sz ∧
      view t q = (view s p).resize p.sz q.sz := by
  have hspec := (wp_of_eq hcall).mp
    (sysSbrk_spec (E := fun _ => False) hC hn eager h)
  rcases hspec with ⟨-, -, htf, ⟨m', hu⟩, hcase⟩
  dsimp only at htf hu hcase
  refine ⟨⟨m', htf ▸ hu⟩, ?_⟩
  rcases hcase with ⟨hr, rfl, hview, hn0, -⟩ | ⟨hr, hsize, hview⟩
  · have hsize : sbrkSize q.sz n = none := by
      rw [sbrkSize, if_neg (by omega), if_pos (hgranted hr)]
    rw [hsize]
    exact ⟨hr, rfl, by rw [h.view_same, hview]⟩
  · rw [hsize]
    exact ⟨hr, rfl, hview⟩

/-- The same calls keep two processes alike, and return the same. -/
theorem Alike.sbrks (hC : Pool L C) (h₁ : Sbrks L true s₁ p₁ ns rs₁ t₁ q₁) :
    ∀ {s₂ p₂ rs₂}, (∀ n ∈ ns, -2 ^ 31 ≤ n ∧ n < 2 ^ 31) → Alike L C R s₁ p₁ s₂ p₂ →
      Sbrks L false s₂ p₂ ns rs₂ t₂ q₂ → rs₁ = rs₂ ∧ Alike L C R t₁ q₁ t₂ q₂ := by
  induction h₁ with
  | nil s p =>
    intro s₂ p₂ rs₂ _ h h₂
    cases h₂
    exact ⟨rfl, h⟩
  | cons hcall hgranted _ ih =>
    intro s₂ p₂ rs₂ hns h h₂
    cases h₂ with
    | cons hcall' hgranted' hrest' =>
      obtain ⟨hn, hns⟩ := List.forall_mem_cons.mp hns
      obtain ⟨m₁, hu₁⟩ := h.user₁
      obtain ⟨m₂, hu₂⟩ := h.user₂
      obtain ⟨hw₁, hr₁, hsz₁, hview₁⟩ := sbrk_result hC hn hu₁ hcall hgranted
      obtain ⟨hw₂, hr₂, hsz₂, hview₂⟩ := sbrk_result hC hn hu₂ hcall' hgranted'
      rw [← h.sz] at hr₂ hsz₂ hview₂
      have hsz := hsz₁.trans hsz₂.symm
      obtain ⟨hrs, halike⟩ := ih hns ⟨hw₁, hw₂, hsz, by rw [hview₁, hview₂, hsz, h.view]⟩ hrest'
      exact ⟨by rw [hr₁, hr₂, hrs], halike⟩

/-! ## Copying -/

/-- A page that is not mapped is seen as blank, if at all. -/
theorem User.blankOutside (h : User L C R p m s) : (view s p).BlankOutside (mapped s p) := by
  intro v hv
  rw [h.view_apply]
  by_cases hvU : v < UVPN
  · rw [h.mapped_eq hvU] at hv
    rw [pageView_invalid hvU hv]
    split_ifs
    · exact .inr rfl
    · exact .inl rfl
  · left
    rw [pageView, if_pos (le_of_not_gt hvU)]

variable (hC : Pool L C) (h : User L C ({p.trapframe} + R) p m s)
include hC h

theorem User.lt_tf : p.trapframe < 2 ^ 44 :=
  hC.lt (h.table.heap.mem (by simp))

/-- `copyin` stopped behind the bytes it has read because there was no memory for a page. -/
def CopyinStarved (p : ProcMem) (va : Nat) (r : Int × List Byte) (t : Mem) : Prop :=
  r.1 = -1 ∧ Starved t p (va + r.2.length)

/-- `copyout` stopped behind the bytes it has written because there was no memory for a page. -/
def CopyoutStarved (p : ProcMem) (va : Nat) (src : List Byte) (s : Mem) (r : Int) (t : Mem) :
    Prop :=
  r = -1 ∧ ∃ k < src.length, (view s p).copyout va (src.take k) = (0, view t p) ∧
    Starved t p (va + k)

theorem copyin_result (va len : Nat) :
    ∃ r t, copyin L p p.pagetable va len s = .ok (r, t) ∧
      (r = (view s p).copyin va len ∨ CopyinStarved p va r t) := by
  obtain ⟨r, t, hrun, -, -, -, hr⟩ :=
    wp_returns (copyin_loop hC (h.lt_tf hC) len va len [] m s le_rfl h)
  refine ⟨r, t, hrun, hr.imp (fun hr => hr) ?_⟩
  rintro ⟨k, -, hzero, hr, hstarved⟩
  rw [List.nil_append] at hr
  subst hr
  exact ⟨rfl, by rw [UMem.length_copyin hzero]; exact hstarved⟩

theorem copyout_result (va : Nat) (src : List Byte) :
    ∃ r t, copyout L p p.pagetable va src s = .ok (r, t) ∧
      ((view s p).copyout va src = (r, view t p) ∨ CopyoutStarved p va src s r t) := by
  obtain ⟨r, t, hrun, -, -, hr⟩ :=
    wp_returns (copyout_loop hC (h.lt_tf hC) src.length va src m s le_rfl h)
  refine ⟨r, t, hrun, hr.imp_right ?_⟩
  rintro ⟨k, hk, hcopied, hr, hstarved⟩
  exact ⟨hr, k, hk, hcopied, hstarved⟩

theorem copyinstr_result (va max : Nat) :
    copyinstr p.pagetable va max s = .ok ((present s p).copyinstr va max, s) := by
  obtain ⟨r, t, hrun, rfl, rfl⟩ := wp_returns (copyinstr_spec hC h (h.lt_tf hC) va max)
  exact hrun

/-- After the same calls of `sbrk`, eager in one process and lazy in the other, `copyin` and
`copyout` do the same in both unless memory runs out, and `copyinstr` does the same exactly if no
byte of the string is on a page that only one of them has. -/
theorem lazy_growth_alike (hns : ∀ n ∈ ns, -2 ^ 31 ≤ n ∧ n < 2 ^ 31)
    (h₁ : Sbrks L true s p ns rs₁ s₁ p₁) (h₂ : Sbrks L false s p ns rs₂ s₂ p₂) :
    rs₁ = rs₂ ∧
    (∀ va len, ∃ r₁ t₁ r₂ t₂, copyin L p₁ p₁.pagetable va len s₁ = .ok (r₁, t₁) ∧
      copyin L p₂ p₂.pagetable va len s₂ = .ok (r₂, t₂) ∧
      (¬ CopyinStarved p₁ va r₁ t₁ → ¬ CopyinStarved p₂ va r₂ t₂ → r₁ = r₂)) ∧
    (∀ va src, ∃ r₁ t₁ r₂ t₂, copyout L p₁ p₁.pagetable va src s₁ = .ok (r₁, t₁) ∧
      copyout L p₂ p₂.pagetable va src s₂ = .ok (r₂, t₂) ∧
      (¬ CopyoutStarved p₁ va src s₁ r₁ t₁ → ¬ CopyoutStarved p₂ va src s₂ r₂ t₂ →
        r₁ = r₂ ∧ view t₁ p₁ = view t₂ p₂)) ∧
    (∀ va max, ∃ r₁ r₂, copyinstr p₁.pagetable va max s₁ = .ok (r₁, s₁) ∧
      copyinstr p₂.pagetable va max s₂ = .ok (r₂, s₂) ∧
      (r₁ = r₂ ↔ ∀ k < ((view s₁ p₁).copyinstr va max).2.length,
        mapped s₁ p₁ ((va + k) / PGSIZE) = mapped s₂ p₂ ((va + k) / PGSIZE))) := by
  obtain ⟨hrs, halike⟩ := Alike.sbrks hC h₁ hns ⟨⟨m, h⟩, ⟨m, h⟩, rfl, rfl⟩ h₂
  obtain ⟨m₁, hu₁⟩ := halike.user₁
  obtain ⟨m₂, hu₂⟩ := halike.user₂
  refine ⟨hrs, fun va len => ?_, fun va src => ?_, fun va max => ?_⟩
  · obtain ⟨r₁, t₁, hrun₁, hr₁⟩ := copyin_result hC hu₁ va len
    obtain ⟨r₂, t₂, hrun₂, hr₂⟩ := copyin_result hC hu₂ va len
    refine ⟨r₁, t₁, r₂, t₂, hrun₁, hrun₂, fun hfed₁ hfed₂ => ?_⟩
    rw [hr₁.resolve_right hfed₁, hr₂.resolve_right hfed₂, halike.view]
  · obtain ⟨r₁, t₁, hrun₁, hr₁⟩ := copyout_result hC hu₁ va src
    obtain ⟨r₂, t₂, hrun₂, hr₂⟩ := copyout_result hC hu₂ va src
    refine ⟨r₁, t₁, r₂, t₂, hrun₁, hrun₂, fun hfed₁ hfed₂ => ?_⟩
    have hsame := (hr₁.resolve_right hfed₁).symm.trans
      (halike.view ▸ hr₂.resolve_right hfed₂)
    exact Prod.mk.injEq _ _ _ _ ▸ hsame
  · refine ⟨_, _, copyinstr_result hC hu₁ va max, copyinstr_result hC hu₂ va max, ?_⟩
    have hblank₂ := hu₂.blankOutside
    rw [← halike.view] at hblank₂
    have hpresent : present s₂ p₂ = (view s₁ p₁).restrict (mapped s₂ p₂) := by
      rw [halike.view]
      rfl
    rw [hpresent]
    exact UMem.copyinstr_restrict hu₁.blankOutside hblank₂ max va

end

/-! ## A process that grows by a page -/

def lazyLayout : Layout := ⟨524304, 524303, by decide, by decide, by decide⟩

/-- Eight pages of RAM. -/
def lazyMem : Mem := booted lazyLayout 7

def lazyPool : Multiset Nat := lazyMem.free

/-- A process without user memory, as `allocproc` makes it. -/
def newProcess (L : Layout) : M ProcMem := do
  let trapframe ← kalloc
  let pagetable ← procPagetable L trapframe
  return ⟨pagetable, trapframe, 0⟩

theorem lazyMem_pool : Pool lazyLayout lazyPool := booted_pool (by decide)

theorem lazyMem_heap : Heap lazyPool 0 lazyMem :=
  ⟨⟨_, booted_chain (by decide), zero_add _⟩, rfl⟩

theorem run_bind {α β : Type} {x : M α} {f : α → M β} {s t : Mem} {a : α}
    (h : x s = .ok (a, t)) : (x >>= f) s = f a t := by
  change (x s).bind (fun r => f r.1 r.2) = _
  rw [h]
  rfl

theorem newProcess_user {L : Layout} {C R : Multiset Nat} {s t : Mem} {p : ProcMem}
    (hC : Pool L C) (h : Heap C R s) (hrun : newProcess L s = .ok (p, t))
    (hpt : p.pagetable ≠ 0) (htf : p.trapframe ≠ 0) :
    User L C ({p.trapframe} + R) p (bare L p.trapframe) t := by
  have hspec : wp (fun _ => False) (newProcess L) (fun p t => p.pagetable ≠ 0 →
      p.trapframe ≠ 0 → User L C ({p.trapframe} + R) p (bare L p.trapframe) t) s := by
    rw [newProcess]
    refine wp_call (kalloc_spec hC h) fun tf t ht => ?_
    rw [wp_bind]
    rcases ht with ⟨rfl, rfl, -⟩ | ⟨-, hheap, -⟩
    · refine wp_mono (procPagetable_spec hC h 0) fun pt u _ => ?_
      exact wp_ret (fun _ hne => absurd rfl hne)
    refine wp_mono (procPagetable_spec hC hheap tf) fun pt u hu => ?_
    rw [wp_pure]
    intro hne _
    rcases hu.2 with ⟨h0, -⟩ | ⟨-, htable⟩
    · exact absurd h0 hne
    · refine ⟨?_, Space.bare L tf⟩
      rw [leaves_zero fun v _ hv => by rw [bare_user hv]; exact has_zero _, zero_add,
        Multiset.singleton_add]
      exact htable
  exact (wp_of_eq hrun).mp hspec hpt htf

/-- The new process before and after it has grown by a page. -/
def lazyProc : ProcMem := ⟨524310, 524311, 0⟩

def grownProc : ProcMem := ⟨524310, 524311, 4096⟩

/-- A call after the process has grown, by its result from the beginning. -/
theorem grown_call {α : Type} {f : ProcMem → M α} {eager : Bool} {s t : Mem} {a : α}
    (hs : newProcess lazyLayout lazyMem = .ok (lazyProc, s))
    (ht : sysSbrk lazyLayout lazyProc 4096 eager s = .ok ((some 0, grownProc), t))
    (hall : ((newProcess lazyLayout >>= fun p => sysSbrk lazyLayout p 4096 eager >>= fun q =>
      f q.2) lazyMem).toOption.map Prod.fst = some a) : ∃ u, f grownProc t = .ok (a, u) := by
  rw [run_bind hs, run_bind ht] at hall
  exact run_of_result hall

/-- The process grown in both ways: eight bytes of the page are read from either, and the empty
string at its beginning only from the eager one. -/
theorem lazyRun_grown : ∃ s, User lazyLayout lazyPool ({lazyProc.trapframe} + 0) lazyProc
      (bare lazyLayout lazyProc.trapframe) s ∧
    ∀ eager, ∃ t, Sbrks lazyLayout eager s lazyProc [4096] [some 0] t grownProc ∧
      copyinstr grownProc.pagetable 0 1 t = .ok (if eager then (0, [0]) else (-1, []), t) ∧
      ∃ u, copyin lazyLayout grownProc grownProc.pagetable 0 8 t =
        .ok ((0, List.replicate 8 0), u) := by
  have hnew : ((newProcess lazyLayout) lazyMem).toOption.map Prod.fst = some lazyProc := by
    decide +kernel
  obtain ⟨s, hs⟩ := run_of_result hnew
  have hu := newProcess_user lazyMem_pool lazyMem_heap hs (by decide) (by decide)
  refine ⟨s, hu, fun eager => ?_⟩
  have hall : ∀ eager, ((newProcess lazyLayout >>= fun p => sysSbrk lazyLayout p 4096 eager)
      lazyMem).toOption.map Prod.fst = some (some 0, grownProc) := by decide +kernel
  have hgrow := hall eager
  rw [run_bind hs] at hgrow
  obtain ⟨t, ht⟩ := run_of_result hgrow
  obtain ⟨m, hgrown⟩ := (sbrk_result lazyMem_pool (by decide) hu ht (by rintro ⟨⟩)).1
  obtain ⟨u, hstr⟩ := grown_call (f := fun q => copyinstr q.pagetable 0 1)
    (a := if eager then (0, [0]) else (-1, [])) hs ht (by cases eager <;> decide +kernel)
  have hsame := copyinstr_result lazyMem_pool hgrown 0 1
  rw [hstr] at hsame
  obtain rfl : u = t := (Prod.mk.inj (Except.ok.inj hsame)).2
  refine ⟨u, .cons ht (by rintro ⟨⟩) (.nil _ _), hstr,
    grown_call (f := fun q => copyin lazyLayout q q.pagetable 0 8) hs ht ?_⟩
  cases eager <;> decide +kernel

/-- The empty string at address 0 of a page that was just added: it is read from the eager process,
and the lazy one gets an error. -/
theorem lazyRun_differs : ∃ s s₁ s₂,
    User lazyLayout lazyPool ({lazyProc.trapframe} + 0) lazyProc
        (bare lazyLayout lazyProc.trapframe) s ∧
      Sbrks lazyLayout true s lazyProc [4096] [some 0] s₁ grownProc ∧
      Sbrks lazyLayout false s lazyProc [4096] [some 0] s₂ grownProc ∧
      copyinstr grownProc.pagetable 0 1 s₁ = .ok ((0, [0]), s₁) ∧
      copyinstr grownProc.pagetable 0 1 s₂ = .ok ((-1, []), s₂) := by
  obtain ⟨s, hu, hgrown⟩ := lazyRun_grown
  obtain ⟨s₁, h₁, hstr₁, -⟩ := hgrown true
  obtain ⟨s₂, h₂, hstr₂, -⟩ := hgrown false
  exact ⟨s, s₁, s₂, hu, h₁, h₂, hstr₁, hstr₂⟩

/-- The same bytes are read from the page, whether it was there or is faulted in; the strings
differ, so the page of the byte is in one of the processes only. -/
theorem lazy_growth_alike_lazyRun : ∃ s s₁ s₂ r₁ t₁ r₂ t₂,
    Sbrks lazyLayout true s lazyProc [4096] [some 0] s₁ grownProc ∧
      Sbrks lazyLayout false s lazyProc [4096] [some 0] s₂ grownProc ∧
      copyin lazyLayout grownProc grownProc.pagetable 0 8 s₁ = .ok (r₁, t₁) ∧
      copyin lazyLayout grownProc grownProc.pagetable 0 8 s₂ = .ok (r₂, t₂) ∧ r₁ = r₂ ∧
      ¬ ∀ k < ((view s₁ grownProc).copyinstr 0 1).2.length,
        mapped s₁ grownProc ((0 + k) / PGSIZE) = mapped s₂ grownProc ((0 + k) / PGSIZE) := by
  obtain ⟨s, hu, hgrown⟩ := lazyRun_grown
  obtain ⟨s₁, h₁, hstr₁, u₁, hcopy₁⟩ := hgrown true
  obtain ⟨s₂, h₂, hstr₂, u₂, hcopy₂⟩ := hgrown false
  obtain ⟨-, hcopyin, -, hcopyinstr⟩ := lazy_growth_alike lazyMem_pool hu (by decide) h₁ h₂
  obtain ⟨r₁, t₁, r₂, t₂, hr₁, hr₂, hsame⟩ := hcopyin 0 8
  obtain ⟨x₁, x₂, hx₁, hx₂, hiff⟩ := hcopyinstr 0 1
  refine ⟨s, s₁, s₂, r₁, t₁, r₂, t₂, h₁, h₂, hr₁, hr₂, hsame (fun hf => ?_) fun hf => ?_,
    fun hall => ?_⟩
  · cases hr₁.symm.trans hcopy₁
    exact absurd hf.1 (by decide)
  · cases hr₂.symm.trans hcopy₂
    exact absurd hf.1 (by decide)
  · cases hx₁.symm.trans hstr₁
    cases hx₂.symm.trans hstr₂
    exact absurd (hiff.mpr hall) (by decide)

end Xv6.Vm
