import Xv6.Vm.View

/-!
# Xv6.Vm.User — the address space of a process

`Space` is what holds of the map of a live process: user pages only below `sz`, the
trampoline and the trapframe in the two top pages, nothing above. `User` adds that
the process owns its tables and its user pages. Creating and freeing an address
space, faulting a page in, copying to and from user memory and `sbrk` keep it, on
every exit, and leave the pages of everybody else alone.
-/

namespace Xv6.Vm

open Lib Function Multiset

/-! ## The code (kernel/proc.c, kernel/sysproc.c) -/

def procPagetable (L : Layout) (trapframe : Nat) : M Nat := do
  let pagetable ← uvmcreate
  if pagetable = 0 then
    return 0
  else
    let r ← mappages pagetable TRAMPOLINE PGSIZE L.trampoline (PTE_R ||| PTE_X)
    if r < 0 then
      uvmfree L pagetable 0
      return 0
    else
      let r ← mappages pagetable TRAPFRAME PGSIZE trapframe (PTE_R ||| PTE_W)
      if r < 0 then
        uvmunmap L pagetable TRAMPOLINE 1 false
        uvmfree L pagetable 0
        return 0
      else
        return pagetable

def procFreepagetable (L : Layout) (pagetable sz : Nat) : M Unit := do
  uvmunmap L pagetable TRAMPOLINE 1 false
  uvmunmap L pagetable TRAPFRAME 1 false
  uvmfree L pagetable sz

/-- `sz + n` for an `int n`, in 64 bits. -/
def addInt (sz : Nat) (n : Int) : Nat := ((sz + n) % 2 ^ 64).toNat

/-- `growproc`: the process with its new size, or `none` for -1. -/
def growproc (L : Layout) (p : ProcMem) (n : Int) : M (Option ProcMem) :=
  if 0 < n then
    if TRAPFRAME < addInt p.sz n then return none
    else do
      let sz ← uvmalloc L p.pagetable p.sz (addInt p.sz n) PTE_W
      if sz = 0 then return none else return some { p with sz := sz }
  else if n < 0 then do
    let sz ← uvmdealloc L p.pagetable p.sz (addInt p.sz n)
    return some { p with sz := sz }
  else
    return some p

/-- `sys_sbrk`: what it returns (`none` for -1) and the process after it. -/
def sysSbrk (L : Layout) (p : ProcMem) (n : Int) (eager : Bool) : M (Option Nat × ProcMem) :=
  if eager ∨ n < 0 then do
    match ← growproc L p n with
    | none => return (none, p)
    | some p' => return (some p.sz, p')
  else if addInt p.sz n < p.sz then return (none, p)
  else if TRAPFRAME < addInt p.sz n then return (none, p)
  else return (some p.sz, { p with sz := addInt p.sz n })

/-! ## Address spaces -/

/-- The map of a process of size `sz` with the trapframe page `tf`. -/
structure Space (L : Layout) (m : Nat → BitVec 64) (sz tf : Nat) : Prop where
  user : ∀ v, v < UVPN → has (m v) PTE_V = true → v < pages sz
  zero : ∀ v, v < UVPN → has (m v) PTE_V = false → m v = 0
  trapframe : m UVPN = PA2PTE tf ||| (PTE_R ||| PTE_W) ||| PTE_V
  trampoline : m (UVPN + 1) = PA2PTE L.trampoline ||| (PTE_R ||| PTE_X) ||| PTE_V
  high : ∀ v, UVPN + 2 ≤ v → v < VPNS → m v = 0
  size : sz ≤ TRAPFRAME

/-- The process `p` owns its tables and its user pages, next to the pages `R` of others. -/
structure User (L : Layout) (C R : Multiset Nat) (p : ProcMem) (m : Nat → BitVec 64)
    (s : Mem) : Prop where
  table : Table C (leaves m 0 UVPN + R) p.pagetable m s
  space : Space L m p.sz p.trapframe

/-- The map `proc_pagetable` makes. -/
def bare (L : Layout) (tf : Nat) : Nat → BitVec 64 :=
  update
    (update (fun _ => 0) (UVPN + 1) (PA2PTE L.trampoline ||| (PTE_R ||| PTE_X) ||| PTE_V))
    UVPN (PA2PTE tf ||| (PTE_R ||| PTE_W) ||| PTE_V)

section
variable {L : Layout} {C R : Multiset Nat} {s t : Mem} {E : Panic → Prop}
  {p : ProcMem} {root v v₁ sz sz' tf : Nat} {m m' : Nat → BitVec 64}

theorem bare_user (h : v < UVPN) : bare L tf v = 0 := by
  unfold bare
  rw [update_of_ne (by omega), update_of_ne (by omega)]

theorem Space.bare (L : Layout) (tf : Nat) : Space L (bare L tf) 0 tf := by
  refine ⟨fun v hv h => ?_, fun v hv _ => bare_user hv, ?_, ?_, fun v hv _ => ?_, by decide⟩
  · rw [bare_user hv] at h
    simp [has] at h
  · unfold Xv6.Vm.bare
    rw [update_self]
  · unfold Xv6.Vm.bare
    rw [update_of_ne (by omega), update_self]
  · unfold Xv6.Vm.bare
    rw [update_of_ne (by omega), update_of_ne (by omega)]

/-- Beyond the size there is no user memory. -/
theorem Space.invalid (h : Space L m sz tf) (hv : v < UVPN) (hsz : pages sz ≤ v) :
    has (m v) PTE_V = false := by
  by_contra hvalid
  have := h.user v hv (by simpa using hvalid)
  omega

/-- All user pages lie below the size. -/
theorem Space.leaves_eq (h : Space L m sz tf) : leaves m 0 UVPN = leaves m 0 (pages sz) := by
  rw [← leaves_append (Nat.zero_le (pages sz)) (pages_le_UVPN h.size),
    leaves_zero (a := pages sz) fun v hv hvU => h.invalid hvU hv, add_zero]

/-- Two spaces with the same entries below a bound. -/
theorem Space.change (h : Space L m sz tf) (hsz : sz' ≤ TRAPFRAME)
    (htop : ∀ v, UVPN ≤ v → m' v = m v)
    (huser : ∀ v < UVPN, has (m' v) PTE_V = true → v < pages sz')
    (hzero : ∀ v < UVPN, has (m' v) PTE_V = false → m' v = 0) : Space L m' sz' tf := by
  refine ⟨huser, hzero, ?_, ?_, fun v hv hvV => ?_, hsz⟩
  · rw [htop UVPN le_rfl, h.trapframe]
  · rw [htop (UVPN + 1) (by omega), h.trampoline]
  · rw [htop v (by omega), h.high v hv hvV]

/-! ## What the process sees -/

theorem User.view_apply (h : User L C R p m s) (v : Nat) :
    view s p v = pageView s.ram p.sz v (m v) := by
  by_cases hv : UVPN ≤ v
  · rw [view, pageView, pageView, if_pos hv, if_pos hv]
  · rw [view, h.table.leaf v (by rw [VPNS_eq]; rw [UVPN_eq] at hv; omega)]

theorem User.mapped_eq (h : User L C R p m s) (hv : v < UVPN) :
    mapped s p v = has (m v) PTE_V := by
  rw [mapped, h.table.leaf v (by rw [VPNS_eq]; rw [UVPN_eq] at hv; omega)]

variable {ram : Nat → Page} {pte : BitVec 64}

/-- A page that is there shows its contents, -/
theorem pageView_valid (hv : v < UVPN) (hvalid : has pte PTE_V = true) :
    pageView ram sz v pte =
      if has pte PTE_U then some ⟨has pte PTE_W, ram (PTE2PA pte)⟩ else none := by
  rw [pageView, if_neg (Nat.not_le.mpr hv), if_pos hvalid]

/-- and one that is not there is blank or beyond the size. -/
theorem pageView_invalid (hv : v < UVPN) (hinv : has pte PTE_V = false) :
    pageView ram sz v pte = if v < pages sz then some ⟨true, filled 0⟩ else none := by
  rw [pageView, if_neg (Nat.not_le.mpr hv), if_neg (by simp [hinv])]

/-- A blank page of user memory, mapped with the flags that `uvmalloc` and `vmfault` use. -/
theorem pageView_blank (hv : v < UVPN)
    (hflags : PTE_FLAGS pte = PTE_R ||| PTE_U ||| PTE_W ||| PTE_V)
    (hblank : ram (PTE2PA pte) = filled 0) :
    pageView ram sz v pte = some ⟨true, filled 0⟩ := by
  have hhas {flag : BitVec 64} (hflag : PTE_FLAGS flag = flag)
      (hp : has (PTE_R ||| PTE_U ||| PTE_W ||| PTE_V) flag = true) : has pte flag = true := by
    rw [has_eq_flags pte hflag, hflags]
    exact hp
  rw [pageView_valid hv (hhas (by decide) (by decide)), if_pos (hhas (by decide) (by decide)),
    hhas (by decide) (by decide), hblank]

/-- An entry that stays, for a page that is kept. -/
theorem pageView_keep (hkeep : Keeps C (leaves m 0 v₁ + R) s t) (hv₁ : v < v₁)
    (hsz : v < pages sz ↔ v < pages sz') :
    pageView t.ram sz' v (m v) = pageView s.ram sz v (m v) := by
  by_cases hv : v < UVPN
  · cases hvalid : has (m v) PTE_V with
    | true =>
      have hmem := mem_leaves (Nat.zero_le v) hv₁ hvalid
      rw [pageView_valid hv hvalid, pageView_valid hv hvalid,
        hkeep _ (.inl (mem_add.mpr (.inl hmem)))]
    | false =>
      rw [pageView_invalid hv hvalid, pageView_invalid hv hvalid]
      simp only [hsz]
  · rw [pageView, pageView, if_pos (le_of_not_gt hv), if_pos (le_of_not_gt hv)]

/-- Beyond the size nothing is seen. -/
theorem User.view_beyond (h : User L C R p m s) (hv : pages p.sz ≤ v) : view s p v = none := by
  rw [h.view_apply]
  by_cases hvU : v < UVPN
  · rw [pageView_invalid hvU (h.space.invalid hvU hv), if_neg (Nat.not_lt.mpr hv)]
  · rw [pageView, if_pos (le_of_not_gt hvU)]

/-- A change of size: the pages below both sizes show what they did, and new ones are blank. -/
theorem User.view_resize {q : ProcMem} (h : User L C R p m s) (h' : User L C R q m' t)
    (hold : ∀ v < pages p.sz, v < pages q.sz →
      pageView t.ram q.sz v (m' v) = pageView s.ram p.sz v (m v))
    (hnew : ∀ v, pages p.sz ≤ v → v < pages q.sz →
      pageView t.ram q.sz v (m' v) = some ⟨true, filled 0⟩) :
    view t q = (view s p).resize p.sz q.sz := by
  funext v
  rw [UMem.resize]
  split_ifs with hq hp
  · rw [h'.view_apply, h.view_apply]
    exact hold v hp hq
  · rw [h'.view_apply]
    exact hnew v (le_of_not_gt hp) hq
  · exact h'.view_beyond (le_of_not_gt hq)

theorem User.view_same (h : User L C R p m s) : (view s p).resize p.sz p.sz = view s p :=
  (h.view_resize h (fun _ _ _ => rfl) fun _ hv hv' => absurd hv' (Nat.not_lt.mpr hv)).symm

/-! ## Creating and freeing -/

section
variable (hC : Pool L C)
include hC

theorem uvmcreate_spec (h : Heap C R s) :
    wp E uvmcreate (fun r t => (r = 0 ∧ t = s) ∨
      (r ≠ 0 ∧ Table C R r (fun _ => 0) t ∧ Keeps C R s t)) s := by
  rw [uvmcreate]
  refine wp_call (kalloc_spec hC h) fun r t ht => ?_
  rw [wp_ite]
  rcases ht with ⟨h0, hts, -⟩ | ⟨h0, hheap, hram⟩
  · refine ⟨fun _ => ?_, fun hne => absurd h0 hne⟩
    exact wp_ret (.inl ⟨rfl, hts⟩)
  refine ⟨fun he => absurd he h0, fun _ => ?_⟩
  rw [wp_bind, wp_memset, wp_pure]
  have hzero : ∀ i, (t.write r (filled 0)).ram r i = 0 := by
    simp [Mem.write]
  rcases tree_zero hzero 2 with ⟨htab, hleaf, hint⟩
  refine .inr ⟨h0, ⟨⟨fun v _ => hleaf v, hint⟩, ?_⟩, ?_⟩
  · rw [htab, singleton_add]
    exact hheap.write hC (mem_cons_self r R) _
  · refine Keeps.of_ne (p := r) (fun q hq => ?_) (hheap.mem (mem_cons_self r R))
      (nodup_cons.mp (hheap.nodup hC)).1
    rw [Mem.write_of_ne t _ hq, hram q hq]

/-- `uvmfree` with size 0, on a table with no valid entry. -/
theorem uvmfree_empty (h : Table C R root m s) (hnone : ∀ v < VPNS, has (m v) PTE_V = false) :
    wp E (uvmfree L root 0) (fun _ t => Heap C R t ∧ Keeps C R s t) s := by
  refine uvmfree_spec (m := m) hC (Nat.zero_le _) ?_ fun v hv _ => hnone v hv
  rw [pages_zero, leaves_empty (Nat.le_refl 0), zero_add]
  exact h

/-- Removing the entry of one page without freeing anything. -/
theorem uvmunmap_keep (h : Table C R root m s) (hv : v < UVPN + 2) :
    wp E (uvmunmap L root (v * PGSIZE) 1 false) (fun _ t =>
      Table C R root (unmap m v (v + 1)) t ∧ Keeps C R s t) s := by
  refine uvmunmap_spec (n := 1) hC false (by omega) ?_
  rw [freed, if_neg (by decide), zero_add]
  exact h

/-- `proc_pagetable` makes an address space without user memory, or nothing. -/
theorem procPagetable_spec (h : Heap C R s) (tf : Nat) :
    wp E (procPagetable L tf) (fun r t => Keeps C R s t ∧
      ((r = 0 ∧ Heap C R t) ∨ (r ≠ 0 ∧ Table C R r (bare L tf) t))) s := by
  have hz : ∀ flags, has (0 : BitVec 64) flags = false := has_zero
  rw [procPagetable]
  refine wp_call (uvmcreate_spec hC h) fun root t ht => ?_
  rw [wp_ite]
  rcases ht with ⟨h0, rfl⟩ | ⟨h0, htab, hkeep⟩
  · refine ⟨fun _ => ?_, fun hne => absurd h0 hne⟩
    exact wp_ret ⟨Keeps.refl C R t, .inl ⟨rfl, h⟩⟩
  refine ⟨fun he => absurd he h0, fun _ => ?_⟩
  have hmap := mappages_spec (E := E) hC htab (page_lt_MAXVA (by omega : UVPN + 1 < UVPN + 2))
    (page_mod _) (by exact hz _) L.trampoline (PTE_R ||| PTE_X)
  rw [page_div] at hmap
  rw [wp_bind, TRAMPOLINE_eq]
  refine wp_mono hmap fun r u hu => ?_
  rcases hu with ⟨hku, ⟨rfl, htab'⟩ | ⟨rfl, htab', -⟩⟩
  · rw [if_neg (by decide)]
    have hmap := mappages_spec (E := E) hC htab' (page_lt_MAXVA (by omega : UVPN < UVPN + 2))
      (page_mod _) (by rw [page_div, update_of_ne (by omega)]; exact hz _) tf
      (PTE_R ||| PTE_W)
    rw [page_div] at hmap
    rw [wp_bind, TRAPFRAME_eq]
    refine wp_mono hmap fun r w hw => ?_
    rcases hw with ⟨hkw, ⟨rfl, htab''⟩ | ⟨rfl, htab'', -⟩⟩
    · rw [if_neg (by decide), wp_pure]
      exact ⟨(hkeep.trans hku).trans hkw, .inr ⟨h0, htab''⟩⟩
    -- the trapframe did not fit: take the trampoline out again and free the tables
    rw [if_pos (by decide)]
    refine wp_call (uvmunmap_keep hC htab'' (by omega)) fun _ x hx => ?_
    refine wp_call (uvmfree_empty hC hx.1 fun v hv => ?_) fun _ y hy => ?_
    · by_cases he : v = UVPN + 1
      · exact unmap_invalid (by omega) (by omega)
      · rw [unmap_outside (by omega), update_of_ne he]
        exact hz _
    · exact wp_ret ⟨(((hkeep.trans hku).trans hkw).trans hx.2).trans hy.2, .inl ⟨rfl, hy.1⟩⟩
  · rw [if_pos (by decide)]
    refine wp_call (uvmfree_empty hC htab' fun v hv => hz _) fun _ y hy => ?_
    exact wp_ret ⟨(hkeep.trans hku).trans hy.2, .inl ⟨rfl, hy.1⟩⟩

/-- `proc_freepagetable` frees the tables and the user pages. -/
theorem procFreepagetable_spec (h : Table C (leaves m 0 UVPN + R) root m s)
    (hspace : Space L m sz tf) :
    wp E (procFreepagetable L root sz) (fun _ t => Heap C R t ∧ Keeps C R s t) s := by
  rw [procFreepagetable, wp_bind, TRAMPOLINE_eq, TRAPFRAME_eq]
  refine wp_mono (uvmunmap_keep hC h (by omega)) fun _ t ht => ?_
  refine wp_call (uvmunmap_keep hC ht.1 (by omega)) fun _ u hu => ?_
  have hkeep : Keeps C (leaves m 0 UVPN + R) s u := ht.2.trans hu.2
  have huser : ∀ v < UVPN,
      unmap (unmap m (UVPN + 1) (UVPN + 1 + 1)) UVPN (UVPN + 1) v = m v := by
    intro v hv
    rw [unmap_outside (.inl hv), unmap_outside (.inl (by omega))]
  have hpages := pages_le_UVPN hspace.size
  refine wp_mono (uvmfree_spec
    (m := unmap (unmap m (UVPN + 1) (UVPN + 1 + 1)) UVPN (UVPN + 1)) (R := R) hC
    hspace.size ?_ fun v hv hsz => ?_) fun _ w hw => ⟨hw.1, (hkeep.mono (le_add_left _ _)).trans hw.2⟩
  · rw [leaves_congr fun v _ hv => huser v (by omega), ← hspace.leaves_eq]
    exact hu.1
  by_cases hvU : v < UVPN
  · rw [huser v hvU]
    exact hspace.invalid hvU hsz
  · by_cases h1 : v = UVPN
    · exact unmap_invalid (by omega) (by omega)
    · rw [unmap_outside (.inr (by omega))]
      by_cases h2 : v = UVPN + 1
      · exact unmap_invalid (by omega) (by omega)
      · rw [unmap_outside (.inr (by omega)), hspace.high v (by omega) hv]
        exact has_zero PTE_V

end

/-! ## Growing and shrinking -/

/-- The pages added by growing, with those there were, are the pages of the new space. -/
theorem Space.grown (h : Space L m sz tf) {perm : BitVec 64} (hle : sz ≤ sz')
    (hsz : sz' ≤ TRAPFRAME) (hg : Grown m m' (pages sz) (pages sz') perm) :
    Space L m' sz' tf ∧
      leaves m' (pages sz) (pages sz') + leaves m 0 UVPN = leaves m' 0 UVPN := by
  have hp := pages_mono hle
  have hpU := pages_le_UVPN hsz
  have hspace : Space L m' sz' tf := by
    refine h.change hsz (fun v hv => hg.other v (by omega)) (fun v hv hvalid => ?_)
      fun v hv hinv => ?_
    · by_contra hno
      rw [hg.other v (by omega)] at hvalid
      have := h.user v hv hvalid
      omega
    · by_cases hin : pages sz ≤ v ∧ v < pages sz'
      · rw [(hg.mapped v hin.1 hin.2).1] at hinv
        cases hinv
      · have hsame := hg.other v (by omega)
        rw [hsame] at hinv ⊢
        exact h.zero v hv hinv
  refine ⟨hspace, ?_⟩
  rw [hspace.leaves_eq, h.leaves_eq, ← leaves_append (Nat.zero_le _) hp,
    leaves_congr fun v _ hv => (hg.other v (by omega)).symm, add_comm]

/-- What is left after the pages between two sizes were unmapped. -/
theorem Space.shrunk (h : Space L m sz tf) (hle : sz' ≤ sz) :
    Space L (unmap m (pages sz') (pages sz)) sz' tf ∧
      leaves (unmap m (pages sz') (pages sz)) 0 UVPN = leaves m 0 (pages sz') := by
  have hsz := h.size
  have hpU := pages_le_UVPN hsz
  have hspace : Space L (unmap m (pages sz') (pages sz)) sz' tf := by
    refine h.change (by omega) (fun v hv => unmap_outside (.inr (by omega)))
      (fun v hv hvalid => ?_) fun v hv hinv => ?_
    · by_contra hno
      by_cases hin : v < pages sz
      · rw [unmap_invalid (by omega) hin] at hvalid
        cases hvalid
      · rw [unmap_outside (.inr (by omega)), h.invalid hv (by omega)] at hvalid
        cases hvalid
    · by_cases hvalid : has (m v) PTE_V
      · by_cases hin : pages sz' ≤ v ∧ v < pages sz
        · simp [unmap, hin, hvalid]
        · rw [unmap_outside (by omega), hvalid] at hinv
          cases hinv
      · simpa [unmap, hvalid] using h.zero v hv (by simpa using hvalid)
  refine ⟨hspace, ?_⟩
  rw [hspace.leaves_eq]
  exact leaves_congr fun v _ hv => unmap_outside (.inl hv)

/-- The size that `sbrk` asks for, if the process may have it. -/
def sbrkSize (sz : Nat) (n : Int) : Option Nat :=
  if n < 0 then some (if sz ≤ addInt sz n then sz else addInt sz n)
  else if TRAPFRAME < addInt sz n then none
  else some (addInt sz n)

/-- `growproc` and what it leaves of the address space. -/
theorem growproc_spec (hC : Pool L C) {n : Int} (hn : -2 ^ 31 ≤ n ∧ n < 2 ^ 31)
    (h : User L C R p m s) :
    wp E (growproc L p n) (fun r t => Keeps C R s t ∧
      ((r = none ∧ 0 < n ∧ User L C R p m t ∧ view t p = view s p) ∨
        ∃ q m', r = some q ∧ q.pagetable = p.pagetable ∧ q.trapframe = p.trapframe ∧
          User L C R q m' t ∧ sbrkSize p.sz n = some q.sz ∧
          view t q = (view s p).resize p.sz q.sz)) s := by
  have hsz := h.space.size
  have hT : TRAPFRAME = 274877898752 := rfl
  have hpU := pages_le_UVPN hsz
  rw [growproc]
  refine wp_if (fun hpos => ?_) fun hnpos => ?_
  · refine wp_if (fun _ => ?_) fun hfit => ?_
    · exact wp_ret ⟨Keeps.refl C R s, .inl ⟨rfl, hpos, h, rfl⟩⟩
    have hadd : (addInt p.sz n : Int) = p.sz + n := by
      unfold addInt
      omega
    have hmax : max p.sz (addInt p.sz n) = addInt p.sz n := by omega
    refine wp_call (uvmalloc_spec hC (by decide) hsz (fun x hx _ => ?_)
      (fun x hx hxU => h.space.zero x hxU (h.space.invalid hxU hx)) h.table) fun r t ht => ?_
    · rw [TRAPFRAME_eq] at hfit
      exact Nat.lt_of_mul_lt_mul_right (lt_of_lt_of_le hx (le_of_not_gt hfit))
    rw [hmax] at ht
    have hkeep : Keeps C R s t := ht.1.mono (le_add_left _ _)
    rw [wp_ite]
    rcases ht.2 with ⟨hr, m', hg, htab, hblank⟩ | ⟨hr, htab⟩
    · refine ⟨fun h0 => by omega, fun _ => ?_⟩
      rw [wp_pure]
      rcases h.space.grown (by omega) (le_of_not_gt hfit) hg with ⟨hspace, hleaves⟩
      rw [← add_assoc, hleaves] at htab
      have hq : User L C R { p with sz := r } m' t := ⟨htab, hr ▸ hspace⟩
      refine ⟨hkeep, .inr ⟨_, m', rfl, rfl, rfl, hq, ?_, ?_⟩⟩
      · rw [sbrkSize, if_neg (by omega), if_neg hfit, hr]
      · subst hr
        refine h.view_resize hq (fun v hvp hvq => ?_) fun v hvp hvq => ?_
        · rw [hg.other v (.inl hvp)]
          exact pageView_keep ht.1 (lt_of_lt_of_le hvp hpU) (iff_of_true hvp hvq)
        · have hvU := lt_of_lt_of_le hvq (pages_le_UVPN (le_of_not_gt hfit))
          exact pageView_blank hvU (hg.mapped v hvp hvq).2 (hblank v hvp hvq)
    · refine ⟨fun _ => ?_, fun hne => absurd hr hne⟩
      rw [wp_pure]
      have hp : User L C R p m t := ⟨htab, h.space⟩
      refine ⟨hkeep, .inl ⟨rfl, hpos, hp, ?_⟩⟩
      rw [← h.view_same]
      exact h.view_resize hp
        (fun v hvp _ => pageView_keep ht.1 (lt_of_lt_of_le hvp hpU) Iff.rfl)
        fun v hvp hvq => absurd hvq (Nat.not_lt.mpr hvp)
  · refine wp_if (fun hneg => ?_) fun hzero => ?_
    · have hsize : sbrkSize p.sz n =
          some (if p.sz ≤ addInt p.sz n then p.sz else addInt p.sz n) := if_pos hneg
      generalize hnew : addInt p.sz n = newsz at hsize ⊢
      by_cases hle : p.sz ≤ newsz
      · -- more than there is: the size stays
        refine wp_call (uvmdealloc_spec (m := m) (R := leaves m 0 UVPN + R) hC hsz ?_)
          fun r t ht => ?_
        · rw [leaves_empty (pages_mono hle), zero_add]
          exact h.table
        rw [if_pos hle, unmap_empty (pages_mono hle)] at ht
        rw [if_pos hle] at hsize
        rcases ht with ⟨rfl, htab, hkeep⟩
        rw [wp_pure]
        have hp : User L C R p m t := ⟨htab, h.space⟩
        refine ⟨hkeep.mono (le_add_left _ _), .inr ⟨_, m, rfl, rfl, rfl, hp, hsize, ?_⟩⟩
        exact h.view_resize hp
          (fun v hvp _ => pageView_keep hkeep (lt_of_lt_of_le hvp hpU) Iff.rfl)
          fun v hvp hvq => absurd hvq (Nat.not_lt.mpr hvp)
      · have hp := pages_mono (Nat.le_of_not_le hle)
        refine wp_call (uvmdealloc_spec (m := m) (R := leaves m 0 (pages newsz) + R) hC hsz ?_)
          fun r t ht => ?_
        · have htab := h.table
          rw [h.space.leaves_eq, ← leaves_append (Nat.zero_le _) hp] at htab
          convert htab using 1
          abel
        rw [if_neg hle] at ht
        rw [if_neg hle] at hsize
        rcases ht with ⟨rfl, htab, hkeep⟩
        rw [wp_pure]
        rcases h.space.shrunk (Nat.le_of_not_le hle) with ⟨hspace, hleaves⟩
        rw [← hleaves] at htab
        have hq : User L C R { p with sz := r } (unmap m (pages r) (pages p.sz)) t :=
          ⟨htab, hspace⟩
        refine ⟨hkeep.mono (le_add_left _ _), .inr ⟨_, _, rfl, rfl, rfl, hq, hsize, ?_⟩⟩
        refine h.view_resize hq (fun v hvp hvq => ?_)
          fun v hvp hvq => absurd (lt_of_lt_of_le hvq hp) (Nat.not_lt.mpr hvp)
        dsimp only at hvq ⊢
        rw [unmap_outside (.inl hvq)]
        exact pageView_keep hkeep hvq (iff_of_true hvp hvq)
    · rw [wp_pure]
      have hn0 : n = 0 := by omega
      refine ⟨Keeps.refl C R s, .inr ⟨p, m, rfl, rfl, rfl, h, ?_, h.view_same.symm⟩⟩
      have hadd : addInt p.sz n = p.sz := by
        unfold addInt
        omega
      rw [sbrkSize, if_neg (by omega), hadd, if_neg (Nat.not_lt.mpr hsz)]

/-- `sys_sbrk` changes the size as `sbrkSize` says, eagerly or not; only an eager one can fail
for want of memory. -/
theorem sysSbrk_spec (hC : Pool L C) {n : Int} (hn : -2 ^ 31 ≤ n ∧ n < 2 ^ 31) (eager : Bool)
    (h : User L C R p m s) :
    wp E (sysSbrk L p n eager) (fun r t => Keeps C R s t ∧
      r.2.pagetable = p.pagetable ∧ r.2.trapframe = p.trapframe ∧
      (∃ m', User L C R r.2 m' t) ∧
      ((r.1 = none ∧ r.2 = p ∧ view t p = view s p ∧ 0 ≤ n ∧
          (eager = false → TRAPFRAME < addInt p.sz n)) ∨
        (r.1 = some p.sz ∧ sbrkSize p.sz n = some r.2.sz ∧
          view t r.2 = (view s p).resize p.sz r.2.sz))) s := by
  have hsz := h.space.size
  have hT : TRAPFRAME = 274877898752 := rfl
  rw [sysSbrk]
  refine wp_if (fun heager => ?_) fun hlazy => ?_
  · refine wp_call (growproc_spec hC hn h) fun r t ht => ?_
    rcases ht with ⟨hkeep, ⟨rfl, hpos, hu, hview⟩ | ⟨q, m', rfl, hpt, htf, hu, hsize, hview⟩⟩
    · simp only [wp_pure]
      refine ⟨hkeep, trivial, trivial, ⟨m, hu⟩, .inl ⟨trivial, trivial, hview, by omega, ?_⟩⟩
      intro he
      rcases heager with he' | hneg
      · rw [he] at he'
        cases he'
      · omega
    · simp only [wp_pure]
      exact ⟨hkeep, hpt, htf, ⟨m', hu⟩, .inr ⟨trivial, hsize, hview⟩⟩
  · have hn0 : 0 ≤ n := by
      by_contra hneg
      exact hlazy (.inr (by omega))
    have hadd : (addInt p.sz n : Int) = p.sz + n := by
      unfold addInt
      omega
    rw [wp_ite, wp_ite, wp_pure, wp_pure]
    refine ⟨fun hwrap => by omega, fun hwrap => ⟨fun hbig => ?_, fun hfit => ?_⟩⟩
    · exact ⟨Keeps.refl C R s, rfl, rfl, ⟨m, h⟩, .inl ⟨rfl, rfl, rfl, hn0, fun _ => hbig⟩⟩
    -- only the size grows: the new pages are not there yet
    have hspace : Space L m (addInt p.sz n) p.trapframe := by
      refine h.space.change (le_of_not_gt hfit) (fun _ _ => rfl) (fun v hv hvalid => ?_)
        fun v hv => h.space.zero v hv
      have := h.space.user v hv hvalid
      have := pages_mono (le_of_not_gt hwrap)
      omega
    have hq : User L C R { p with sz := addInt p.sz n } m s := ⟨h.table, hspace⟩
    refine ⟨Keeps.refl C R s, rfl, rfl, ⟨m, hq⟩, .inr ⟨rfl, ?_, ?_⟩⟩
    · rw [sbrkSize, if_neg (by omega), if_neg hfit]
    · refine h.view_resize hq (fun v hvp hvq => ?_) fun v hvp hvq => ?_
      · exact pageView_keep (Keeps.refl C (leaves m 0 (v + 1) + R) s) (Nat.lt_succ_self v)
          (iff_of_true hvp hvq)
      · have hvU := lt_of_lt_of_le hvq (pages_le_UVPN (le_of_not_gt hfit))
        rw [pageView_invalid hvU (h.space.invalid hvU hvp), if_pos hvq]

end

end Xv6.Vm
