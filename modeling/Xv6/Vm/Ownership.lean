import Xv6.Vm.Descriptors

/-!
# Xv6.Vm.Ownership — every page is in exactly one place

The operations that make and end processes keep `Good`, on every exit; with the
operations on the memory of one process and on descriptors that is a step of the
system. The main theorem reads the result off `Good`: the free pages and the owned
pages are together, each once, the pages there were at boot.
-/

namespace Xv6.Vm

open Lib Function Multiset List

variable {n : Nat}

section
variable {L : Layout} {C R : Multiset Nat} {s t : Mem} {E : Panic → Prop}
  {held : Multiset (Fin NFILE)} {σ τ ρ : St n} {p np : Fin n}

/-! ## A slot that is being filled or emptied -/

variable {q : ProcMem}

/-- All pages of a process go back to the free list, however few it has. -/
theorem freeprocMem_spec (hC : Pool L C) (h : Heap C (procPages s.ram q + R) s)
    (hspace : q.pagetable ≠ 0 → ∃ m, Reads s q.pagetable m ∧ Space L m q.sz q.trapframe) :
    wp E (freeprocMem L q) (fun _ t => Heap C R t ∧ Keeps C R s t) s := by
  -- the page table, in any memory that still has it
  have htail : ∀ u, Keeps C R s u →
      Heap C ((if q.pagetable = 0 then 0
        else tables u.ram 2 q.pagetable + leaves (leafAt u.ram 2 q.pagetable) 0 UVPN) + R) u →
      (q.pagetable ≠ 0 → ∃ m, Reads u q.pagetable m ∧ Space L m q.sz q.trapframe) →
      wp E (if q.pagetable ≠ 0 then procFreepagetable L q.pagetable q.sz else pure ())
        (fun _ t => Heap C R t ∧ Keeps C R s t) u := by
    intro u hk hheap hspace
    refine wp_if (fun hpt => ?_) fun hpt => wp_ret ⟨?_, hk⟩
    · rcases hspace hpt with ⟨m, hreads, hsp⟩
      rw [if_neg hpt, hreads.leaves_eq, add_assoc] at hheap
      exact wp_mono (procFreepagetable_spec hC ⟨hreads, hheap⟩ hsp) fun _ v hv =>
        ⟨hv.1, hk.trans hv.2⟩
    · rwa [if_pos (not_not.mp hpt), zero_add] at hheap
  unfold freeprocMem
  rw [wp_ite]
  unfold procPages at h
  refine ⟨fun htf => ?_, fun htf => ?_⟩
  · rw [if_neg htf, add_right_comm, add_comm, singleton_add] at h
    refine wp_call (kfree_spec hC h) fun _ u hu => ?_
    have hnot := (nodup_cons.mp (h.nodup hC)).1
    have htfC := h.mem (mem_cons_self q.trapframe _)
    rw [mem_add, not_or] at hnot
    have hk : Keeps C R s u := Keeps.of_ne hu.2 htfC hnot.2
    by_cases hpt : q.pagetable = 0
    · refine htail u hk ?_ fun hne => absurd hpt hne
      simpa only [hpt, if_true] using hu.1
    simp only [hpt, if_false, mem_add, not_or] at hnot
    have htree : ∀ x ∈ tables s.ram 2 q.pagetable, u.ram x = s.ram x := by
      intro x hx
      refine hu.2 x ?_
      rintro rfl
      exact hnot.1.1 hx
    rcases tree_congr htree with ⟨htab, hleaf, -, -⟩
    refine htail u hk ?_ fun _ => ?_
    · rw [htab, hleaf]
      exact hu.1
    · rcases hspace hpt with ⟨m, hreads, hsp⟩
      exact ⟨m, (hreads.congr htree).1, hsp⟩
  · rw [if_pos (not_not.mp htf), add_zero] at h
    exact htail s (Keeps.refl C R s) h hspace

/-- The state `ρ` is `σ` with another slot `np`, which owns its pages but need not be in
working order. -/
structure Filling (L : Layout) (C : Multiset Nat) (np : Fin n) (σ ρ : St n) : Prop where
  file : ρ.file = σ.file
  other : ∀ q, q ≠ np → ρ.proc q = σ.proc q
  ofile : (ρ.proc np).ofile = (σ.proc np).ofile
  closed : ∀ fd, (ρ.proc np).ofile fd = none
  keeps : Keeps C (σ.rest np) σ.mem ρ.mem
  heap : Heap C (procPages ρ.mem.ram (ρ.proc np).mem + σ.rest np) ρ.mem
  space : (ρ.proc np).mem.pagetable ≠ 0 →
    ∃ m, Reads ρ.mem (ρ.proc np).mem.pagetable m ∧
      Space L m (ρ.proc np).mem.sz (ρ.proc np).mem.trapframe

/-- `freeproc` undoes a slot, however far it was filled. -/
theorem freeproc_good (hC : Pool L C) (h : Good L C held σ) (hf : Filling L C np σ ρ) :
    wp E (freeproc L np) (fun _ τ => Good L C held τ) ρ := by
  rw [freeproc, wp_bind, wp_get, wp_bind, wp_onMem]
  refine wp_mono (freeprocMem_spec hC hf.heap hf.space) fun _ t ht => ?_
  rw [wp_setProc]
  refine h.replace (p := np) hf.file (fun q hq => ?_) ?_ (hf.keeps.trans ht.2) ?_ ?_
  · simpa only [update_of_ne hq] using hf.other q hq
  · simp only [update_self]
    exact hf.ofile
  · simp only [update_self]
    exact ⟨fun _ => rfl, fun hne => absurd rfl hne, fun _ => hf.closed⟩
  · simp only [update_self]
    simpa [procPages, Proc.cleared] using ht.1

theorem Good.filling (h : Good L C held σ) (hu : (σ.proc np).state = .unused) {pr : Proc n}
    (hofile : pr.ofile = (σ.proc np).ofile) (hk : Keeps C (σ.rest np) σ.mem t)
    (hheap : Heap C (procPages t.ram pr.mem + σ.rest np) t) (hspace : pr.mem.pagetable ≠ 0 →
      ∃ m, Reads t pr.mem.pagetable m ∧ Space L m pr.mem.sz pr.mem.trapframe) (k : Nat) :
    Filling L C np σ { σ.withProc np pr with mem := t, nextpid := k } := by
  refine ⟨rfl, fun q hq => update_of_ne hq _ _, ?_, ?_, hk, ?_, ?_⟩ <;>
    simp only [update_self]
  · exact hofile
  · rw [hofile]
    exact (h.procs np).closed (by rw [hu]; nofun)
  · exact hheap
  · exact hspace

/-- A new process: its slot was unused, and its memory is the one of `proc_pagetable`. -/
structure Born (L : Layout) (C : Multiset Nat) (np : Fin n) (σ τ : St n) : Prop where
  unused : (σ.proc np).state = .unused
  filling : Filling L C np σ τ
  live : (τ.proc np).state = .live
  sz : (τ.proc np).mem.sz = 0
  table : Table C ({(τ.proc np).mem.trapframe} + σ.rest np) (τ.proc np).mem.pagetable
    (bare L (τ.proc np).mem.trapframe) τ.mem

/-- Either a new process, or nothing is left of the attempt. -/
theorem allocproc_good (hC : Pool L C) (h : Good L C held σ) :
    wp E (allocproc L) (fun r τ => match r with
      | none => Good L C held τ
      | some np => Born L C np σ τ) σ := by
  rw [allocproc, wp_bind, wp_get]
  cases hfind : (List.finRange n).find? fun q => (σ.proc q).state = .unused with
  | none => exact wp_ret h
  | some np =>
    have hu : (σ.proc np).state = .unused := by simpa using find?_some hfind
    have hmem := (h.procs np).unused hu
    have hheap := h.heap_split np
    simp only [hmem] at hheap ⊢
    rw [procPages, if_pos rfl, if_pos rfl, zero_add, zero_add] at hheap
    rw [wp_bind, wp_modify, wp_bind, wp_setProc, wp_bind, wp_onMem]
    refine wp_mono (kalloc_spec hC hheap) fun tf t ht => ?_
    rw [wp_bind, wp_setMem, wp_ite]
    simp only [St.withProc, update_self, update_idem]
    rcases ht with ⟨rfl, rfl, -⟩ | ⟨h0, hheap₁, hram⟩
    · -- no trapframe
      refine ⟨fun _ => ?_, fun hne => absurd rfl hne⟩
      refine wp_call (freeproc_good hC h (h.filling hu (by rfl) (Keeps.refl C _ _) ?_ ?_ _))
        fun _ τ hτ => wp_ret hτ
      · simpa [procPages] using hheap
      · exact fun hne => absurd rfl hne
    · have hnot := (nodup_cons.mp (hheap₁.nodup hC)).1
      have hk : Keeps C (σ.rest np) σ.mem t :=
        Keeps.of_ne hram (hheap₁.mem (mem_cons_self tf _)) hnot
      refine ⟨fun he => absurd he h0, fun _ => ?_⟩
      rw [wp_bind, wp_onMem]
      refine wp_mono (procPagetable_spec hC hheap₁ tf) fun pt u hu' => ?_
      rcases hu' with ⟨hk', hcases⟩
      replace hk := hk.trans (hk'.mono (le_cons_self _ _))
      rw [wp_bind, wp_setMem, wp_ite]
      simp only [St.withProc, update_self, update_idem]
      rcases hcases with ⟨rfl, hheap₂⟩ | ⟨hpt, htable⟩
      · -- no page table
        refine ⟨fun _ => ?_, fun hne => absurd rfl hne⟩
        refine wp_call (freeproc_good hC h (h.filling hu (by rfl) hk ?_ ?_ _)) fun _ τ hτ =>
          wp_ret hτ
        · simpa [procPages, h0] using hheap₂
        · exact fun hne => absurd rfl hne
      · refine ⟨fun he => absurd he hpt, fun _ => wp_ret ?_⟩
        rw [← singleton_add] at htable
        refine ⟨hu, h.filling hu (by rfl) hk ?_ ?_ _, ?_, ?_, ?_⟩
        · rw [procPages, if_neg hpt, if_neg h0, htable.toReads.leaves_eq,
            leaves_zero fun v _ hv => by rw [bare_user hv]; exact has_zero _, add_zero, add_assoc]
          exact htable.heap
        · exact fun _ => ⟨_, htable.toReads, Space.bare L tf⟩
        all_goals simp only [update_self]
        exact htable

variable {m : Nat → BitVec 64}

/-- A slot that has been filled. -/
theorem Good.filled {k : Fin n} (hC : Pool L C) (h : Good L C held σ) (hfile : τ.file = σ.file)
    (hother : ∀ q ≠ k, τ.proc q = σ.proc q) (hofile : (τ.proc k).ofile = (σ.proc k).ofile)
    (hk : Keeps C (σ.rest k) σ.mem τ.mem) (hlive : (τ.proc k).state = .live)
    (hu : User L C ({(τ.proc k).mem.trapframe} + σ.rest k) (τ.proc k).mem m τ.mem) :
    Good L C held τ := by
  rcases hu.alive hC with ⟨halive, hheap⟩
  refine h.replace hfile hother hofile hk ⟨fun hun => ?_, fun _ => halive, fun hne => ?_⟩ hheap
  · rw [hlive] at hun
    cases hun
  · exact absurd hlive hne

theorem Born.user (h : Born L C np σ τ) :
    User L C ({(τ.proc np).mem.trapframe} + σ.rest np) (τ.proc np).mem
      (bare L (τ.proc np).mem.trapframe) τ.mem := by
  refine ⟨?_, ?_⟩
  · rw [leaves_zero fun v _ hv => by rw [bare_user hv]; exact has_zero _, zero_add]
    exact h.table
  · rw [h.sz]
    exact Space.bare L _

/-- A new process is one like the others. -/
theorem Born.good (hC : Pool L C) (h : Good L C held σ) (hb : Born L C np σ τ) :
    Good L C held τ :=
  h.filled hC hb.filling.file hb.filling.other hb.filling.ofile hb.filling.keeps hb.live hb.user

theorem userinit_good (hC : Pool L C) (h : Good L C held σ) (hE : E .userinit) :
    wp E (userinit L) (fun _ τ => Good L C held τ) σ := by
  rw [userinit]
  refine wp_call (allocproc_good hC h) fun r τ hτ => ?_
  rcases r with - | np
  · exact (wp_throw _).mpr hE
  · show wp E (modify _) _ τ
    rw [wp_modify]
    have hg := Born.good hC h hτ
    exact ⟨hg.heap, hg.procs, hg.files⟩

/-! ## fork -/

/-- The copy of an address space is one. -/
theorem Copied.space {mo m' : Nat → BitVec 64} {sz tfo tf : Nat} (hold : Space L mo sz tfo)
    (h : Copied mo (bare L tf) m' (pages sz)) : Space L m' sz tf := by
  have hU := pages_le_UVPN hold.size
  refine (Space.bare L tf).change hold.size (fun v hv => h.other v (by omega)) ?_ ?_
  · intro v hv hvalid
    by_contra hge
    rw [h.other v (by omega), bare_user hv] at hvalid
    exact Bool.false_ne_true ((has_zero _).symm.trans hvalid)
  · intro v hv hinvalid
    by_cases hlt : v < pages sz
    · exact h.zero v hlt hinvalid
    · rw [h.other v (by omega), bare_user hv]

/-- The trapframe of the child is a page that nothing else refers to. -/
theorem copyTrapframe_spec (hC : Pool L C) (h : User L C ({q.trapframe} + R) q m s) (src : Nat) :
    wp E (copyTrapframe q.trapframe src) (fun _ t =>
      User L C ({q.trapframe} + R) q m t ∧ Keeps C R s t) s := by
  have hwrite : ∀ u page, User L C ({q.trapframe} + R) q m u →
      User L C ({q.trapframe} + R) q m (u.write q.trapframe page) ∧
        Keeps C R u (u.write q.trapframe page) := by
    intro u page hu
    have htab := hu.table
    rw [add_left_comm] at htab
    rcases htab.write_hand hC page with ⟨htab', hk⟩
    rw [add_left_comm] at htab'
    exact ⟨⟨htab', hu.space⟩, hk.mono (le_add_left _ _)⟩
  rw [copyTrapframe, wp_bind, wp_modify, wp_store]
  rcases hwrite s _ h with ⟨h₁, hk₁⟩
  rcases hwrite _ _ h₁ with ⟨h₂, hk₂⟩
  exact ⟨h₂, hk₁.trans hk₂⟩

theorem dupFiles_good (h : Good L C held σ) (hlive : (σ.proc np).state = .live)
    (hnone : ∀ fd, (σ.proc np).ofile fd = none) :
    wp E (dupFiles p np) (fun _ τ => Good L C held τ) σ := by
  -- the descriptors still to come are empty in the child
  let Inv : List (Fin NOFILE) → St n → Prop := fun fds τ => Good L C held τ ∧
    (τ.proc np).state = .live ∧ fds.Nodup ∧ ∀ fd ∈ fds, (τ.proc np).ofile fd = none
  refine wp_mono (wp_forM Inv ?_ _ σ ⟨h, hlive, nodup_finRange _, fun fd _ => hnone fd⟩)
    fun _ τ hτ => hτ.1
  intro fd fds τ hτ
  rcases hτ with ⟨hg, hl, hnd, hfree⟩
  rw [wp_bind, wp_get]
  rcases nodup_cons.mp hnd with ⟨hfd, hnd'⟩
  cases hof : (τ.proc p).ofile fd with
  | none => exact wp_ret ⟨hg, hl, hnd', fun x hx => hfree x (mem_cons_of_mem _ hx)⟩
  | some f =>
    refine wp_call (filedup_good hg (hg.ref_ne_zero hof)) fun _ τ' hτ' => ?_
    rcases hτ' with ⟨hg', hproc, -⟩
    rw [← hproc] at hl hfree
    rw [wp_setOfile]
    refine ⟨hg'.setOfile hl (hfree fd mem_cons_self), ?_, hnd', fun x hx => ?_⟩
    · simpa using hl
    · have hx' : x ≠ fd := fun he => hfd (he ▸ hx)
      simpa [hx'] using hfree x (mem_cons_of_mem _ hx)

section
variable (hC : Pool L C) (h : Good L C held σ) (hp : (σ.proc p).state = .live)
include hC h hp

/-- The child owns copies; if one page is missing, nothing is left of it. -/
theorem kfork_good : wp E (kfork L p) (fun _ τ => Good L C held τ) σ := by
  rw [kfork]
  refine wp_call (allocproc_good hC h) fun r τ hτ => ?_
  rcases r with - | np
  · exact wp_ret hτ
  have hb : Born L C np σ τ := hτ
  have hf := hb.filling
  have hne : p ≠ np := by
    rintro rfl
    cases hb.unused.symm.trans hp
  have hparent : τ.proc p = σ.proc p := hf.other p hne
  -- the tables of the parent are in the part that is left alone
  have halive := (h.procs p).alive (by rw [hp]; nofun)
  rcases halive.space with ⟨mo, hreads, hspace⟩
  have hmine : tables σ.mem.ram 2 (σ.proc p).mem.pagetable + leaves mo 0 (pages (σ.proc p).mem.sz) ≤
      σ.rest np := by
    refine le_trans ?_ ((procPages_le_others hne).trans (le_add_left _ _))
    rw [procPages, if_neg halive.pagetable, ← hspace.leaves_eq, hreads.leaves_eq]
    exact le_add_right _ _
  have htables := le_trans (le_add_right _ _) hmine
  rcases hreads.congr fun q hq => hf.keeps q (.inl (mem_of_le htables hq)) with
    ⟨hreads', htab'⟩
  show wp E (get >>= _) _ τ
  rw [wp_bind, wp_get, wp_bind, wp_onMem, hparent]
  refine wp_mono (uvmcopy_spec hC hspace.size (fun x hx => bare_user hx) hreads'
    (htab'.symm ▸ htables.trans (le_add_left _ _))
    ((le_trans (le_add_left _ _) hmine).trans (le_add_left _ _)) hb.table)
    fun r t ht => ?_
  rcases ht with ⟨hkt, hcases⟩
  have hk : Keeps C (σ.rest np) σ.mem t := hf.keeps.trans (hkt.mono (le_add_left _ _))
  rw [wp_ite]
  rcases hcases with ⟨rfl, m', hcopied, htable, -⟩ | ⟨rfl, htable⟩
  · refine ⟨fun hlt => absurd hlt (by decide), fun _ => ?_⟩
    have hspace' := hcopied.space hspace
    rw [← hspace'.leaves_eq] at htable
    have hu : User L C ({(τ.proc np).mem.trapframe} + σ.rest np)
        { (τ.proc np).mem with sz := (σ.proc p).mem.sz } m' t := ⟨htable, hspace'⟩
    rw [wp_bind, wp_setMem, wp_bind, wp_onMem]
    have hcopy := copyTrapframe_spec (E := E) (R := σ.rest np)
      (q := { (τ.proc np).mem with sz := (σ.proc p).mem.sz }) hC hu (σ.proc p).mem.trapframe
    refine wp_mono hcopy fun _ u hu' => ?_
    rcases hu' with ⟨hu', hku⟩
    generalize hρ : ({ τ.withProc np { τ.proc np with
      mem := { (τ.proc np).mem with sz := (σ.proc p).mem.sz } } with mem := u } : St n) = ρ
    have hproc : ρ.proc = update τ.proc np { τ.proc np with
      mem := { (τ.proc np).mem with sz := (σ.proc p).mem.sz } } := by rw [← hρ]
    have hmem : ρ.mem = u := by rw [← hρ]
    have hself : ρ.proc np = { τ.proc np with
      mem := { (τ.proc np).mem with sz := (σ.proc p).mem.sz } } := by
      rw [hproc, update_self]
    have hgood : Good L C held ρ := by
      refine h.filled hC (k := np) (m := m') ?_ (fun q hq => ?_) ?_ ?_ ?_ ?_
      · rw [← hρ]
        exact hf.file
      · rw [hproc, update_of_ne hq]
        exact hf.other q hq
      · rw [hself]
        exact hf.ofile
      · rw [hmem]
        exact hk.trans hku
      · rw [hself]
        exact hb.live
      · rw [hself, hmem]
        exact hu'
    refine wp_call (dupFiles_good hgood (by rw [hself]; exact hb.live)
      (by rw [hself]; exact hf.closed)) fun _ τ' hτ' => ?_
    rw [wp_setProc]
    refine hτ'.map_procs fun q => ?_
    by_cases hq : q = np
    · subst hq
      simp
    · simp [hq]
  · -- the copy failed half way: the child is freed
    refine ⟨fun _ => ?_, fun hge => absurd (by decide) hge⟩
    refine freeproc_good hC h ⟨hf.file, hf.other, hf.ofile, hf.closed, hk, ?_, ?_⟩
    · have hu : User L C ({(τ.proc np).mem.trapframe} + σ.rest np) (τ.proc np).mem
          (bare L (τ.proc np).mem.trapframe) t :=
        ⟨by rw [leaves_zero fun v _ hv => by rw [bare_user hv]; exact has_zero _, zero_add]
            exact htable, hb.user.space⟩
      exact (hu.alive hC).2
    · exact fun _ => ⟨_, htable.toReads, hb.user.space⟩

/-! ## exit and wait -/

/-- The last close of a pipe frees its page. -/
theorem closeFiles_good :
    wp E (closeFiles L p) (fun _ τ => Good L C held τ ∧ (τ.proc p).state = .live ∧
      ∀ fd, (τ.proc p).ofile fd = none) σ := by
  -- the descriptors already passed are empty
  let Inv : List (Fin NOFILE) → St n → Prop := fun fds τ => Good L C held τ ∧
    (τ.proc p).state = .live ∧ ∀ fd ∉ fds, (τ.proc p).ofile fd = none
  refine wp_mono (wp_forM Inv ?_ _ σ ⟨h, hp, fun fd hfd => absurd (mem_finRange fd) hfd⟩)
    fun _ τ hτ => ⟨hτ.1, hτ.2.1, fun fd => hτ.2.2 fd not_mem_nil⟩
  intro fd rem τ hτ
  rcases hτ with ⟨hg, hlive, hempty⟩
  have hnext : ∀ x ≠ fd, x ∉ rem → (τ.proc p).ofile x = none := fun x hx hm =>
    hempty x fun hc => (mem_cons.mp hc).elim hx hm
  rw [wp_bind, wp_get]
  cases hof : (τ.proc p).ofile fd with
  | none =>
    refine wp_ret ⟨hg, hlive, fun x hx => ?_⟩
    by_cases he : x = fd
    · rw [he, hof]
    · exact hnext x he hx
  | some f =>
    -- the file is closed while the descriptor still names it
    have hcount : (fun g => held.count g + fds τ.proc g) = fun g => Multiset.count g {f} +
        (held.count g + fds (update τ.proc p ((τ.proc p).withOfile fd none)) g) := by
      funext g
      rw [fds_clear hof g]
      omega
    have hfiles := hg.files
    rw [hcount] at hfiles
    refine wp_call (fileclose_spec hC hfiles hg.heap) fun _ τ' hτ' => ?_
    rcases hτ' with ⟨hproc, -, hfiles', hheap, hk⟩
    rcases procs_keeps (L := L) hk with ⟨hpages, hprocs⟩
    rw [wp_setOfile]
    generalize hpr : (τ.proc p).withOfile fd none = pr at hfiles'
    have hok : ProcOk L τ'.mem pr := by
      rw [← hpr]
      exact (hprocs p (hg.procs p)).clearOfile fd
    have hmem : pr.mem = (τ.proc p).mem := by rw [← hpr]
    have hpages' : procsPages τ'.mem.ram (update τ.proc p pr) =
        procsPages τ.mem.ram τ.proc := by
      rw [← hpages]
      refine Finset.sum_congr rfl fun q _ => ?_
      rw [update_field Proc.mem hmem]
    rw [hproc, hpr]
    refine ⟨⟨?_, fun q => ?_, ?_⟩, ?_, fun x hx => ?_⟩
    · show Heap C ((pipePages τ'.file).val + procsPages τ'.mem.ram (update τ'.proc p pr)) _
      rw [hproc, hpages']
      exact hheap
    · show ProcOk L τ'.mem (update τ'.proc p pr q)
      rw [hproc]
      by_cases hq : q = p
      · rw [hq, update_self]
        exact hok
      · rw [update_of_ne hq]
        exact hprocs q (hg.procs q)
    · show FilesOk (fun g => held.count g + fds (update τ'.proc p pr) g) _ _
      rw [hproc]
      exact hfiles'
    · show (update τ'.proc p pr p).state = .live
      rw [update_self, ← hpr]
      exact hlive
    · show (update τ'.proc p pr p).ofile x = none
      rw [update_self, ← hpr]
      exact update_eq_of fun he => hnext x he hx

/-- A zombie keeps its memory. -/
theorem kexit_good (hE : E .initExiting) (status : BitVec 32) :
    wp E (kexit L p status) (fun _ τ => Good L C held τ) σ := by
  rw [kexit, wp_bind, wp_get]
  refine wp_if (fun _ => (wp_throw _).mpr hE) fun _ => ?_
  refine wp_call (closeFiles_good hC h hp) fun _ τ hτ => ?_
  rcases hτ with ⟨hg, hlive, hnone⟩
  rw [wp_bind, wp_modify, wp_setProc]
  generalize hreparent : (fun q => if (τ.proc q).parent = some p
    then { τ.proc q with parent := τ.initproc } else τ.proc q) = proc'
  have hsame : ∀ q, (proc' q).mem = (τ.proc q).mem ∧ (proc' q).state = (τ.proc q).state ∧
      (proc' q).ofile = (τ.proc q).ofile := by
    intro q
    rw [← hreparent]
    by_cases hq : (τ.proc q).parent = some p <;> simp [hq]
  have hg' := hg.map_procs hsame
  have halive := (hg'.procs p).alive (by
    show (proc' p).state ≠ .unused
    rw [(hsame p).2.1, hlive]
    nofun)
  refine hg'.change_proc rfl ⟨nofun, fun _ => halive, fun _ fd => ?_⟩ fun g => ?_
  · show (proc' p).ofile fd = none
    rw [(hsame p).2.2]
    exact hnone fd
  · -- the descriptors are the same
    congr 1
    refine (fds_update (k := 0) ?_).trans (Nat.zero_add _)
    exact (Nat.zero_add _).symm

/-- The parent frees the memory of the zombie, unless the status cannot be copied. -/
theorem kwait_good (addr : Nat) :
    wp E (kwait L p addr) (fun _ τ => Good L C held τ) σ := by
  rw [kwait, wp_bind, wp_get]
  cases hfind : (List.finRange n).find? fun q =>
      (σ.proc q).parent = some p ∧ (σ.proc q).state = .zombie with
  | none => exact wp_ret h
  | some q =>
    have hq : (σ.proc q).state = .zombie := by
      have hfound := find?_some hfind
      simp only [decide_eq_true_eq] at hfound
      exact hfound.2
    refine wp_call (h.copied hC (p := p) (by rw [hp]; nofun) fun map hu => ?_) fun r τ hτ => ?_
    · rw [wp_ite]
      exact ⟨fun _ => wp_ret ⟨Keeps.refl C _ _, map, hu⟩,
        fun _ => copyout_spec hC (hC.lt hu.mem_tf) hu _ _⟩
    rcases hτ with ⟨hg, hproc, -⟩
    rw [← hproc] at hq
    refine wp_if (fun _ => wp_ret hg) fun _ => ?_
    refine freeproc_good hC hg ⟨rfl, fun _ _ => rfl, rfl, ?_, Keeps.refl C _ _,
      hg.heap_split q, fun _ => ?_⟩
    · exact (hg.procs q).closed (by rw [hq]; nofun)
    · exact ((hg.procs q).alive (by rw [hq]; nofun)).space

/-! ## One step -/

/-- An operation that replaces the memory of its process. -/
theorem Good.replaced (htf : q.trapframe = (σ.proc p).mem.trapframe)
    (hu : User L C ({(σ.proc p).mem.trapframe} + σ.rest p) q m t)
    (hk : Keeps C (σ.rest p) σ.mem t) :
    wp E (setMem p q) (fun _ τ => Good L C held τ) { σ with mem := t } := by
  rw [wp_setMem]
  exact h.put hC (by rw [hp]; nofun) (htf.symm ▸ hu) hk

/-- `kexec` has either not changed the process or replaced its memory. -/
theorem commit_good {r : Option (ProcMem × Nat)} (hk : Keeps C (σ.rest p) σ.mem t)
    (hr : (r = none ∧ ∃ m', User L C ({(σ.proc p).mem.trapframe} + σ.rest p) (σ.proc p).mem m' t) ∨
      ∃ q argc m', r = some (q, argc) ∧ q.trapframe = (σ.proc p).mem.trapframe ∧
        User L C ({(σ.proc p).mem.trapframe} + σ.rest p) q m' t) :
    wp E (commit p r) (fun _ τ => Good L C held τ) { σ with mem := t } := by
  rcases hr with ⟨rfl, m', hu⟩ | ⟨q, argc, m', rfl, htf, hu⟩
  · exact wp_ret (h.put_same hC (by rw [hp]; nofun) hu hk)
  · exact h.replaced hC hp htf hu hk

end

/-- The panics that are left: the first process exits, or there is no memory to make it. -/
def Halts (e : Panic) : Prop := e = .initExiting ∨ e = .userinit

/-- Every operation keeps the pages in order. -/
theorem run_good (hC : Pool L C) (h : Good L C 0 σ) {l : Lbl n}
    (hcaller : ∀ p, l.caller = some p → (σ.proc p).state = .live) :
    wp Halts (run L l) (fun _ τ => Good L C 0 τ) σ := by
  have hused : ∀ p, l.caller = some p → (σ.proc p).state ≠ .unused := by
    intro p hp
    rw [hcaller p hp]
    nofun
  cases l with
  | userinit => exact userinit_good hC h (.inr rfl)
  | fork p => exact kfork_good hC h (hcaller p rfl)
  | exec p file uargv =>
    rcases h.focus (hused p rfl) with ⟨m, hu⟩
    rw [run, wp_bind, wp_get, wp_bind, wp_onMem]
    exact wp_mono (sysExec_spec hC hu file uargv) fun r t ht =>
      commit_good hC h (hcaller p rfl) ht.1 ht.2
  | kexec p file argv =>
    rcases h.focus (hused p rfl) with ⟨m, hu⟩
    rw [run, wp_bind, wp_get, wp_bind, wp_onMem]
    exact wp_mono (kexec_spec hC hu file argv) fun r t ht =>
      commit_good hC h (hcaller p rfl) ht.1 (ht.2.imp_left fun hr => ⟨hr.1, m, hr.2⟩)
  | sbrk p amount eager =>
    rcases h.focus (hused p rfl) with ⟨m, hu⟩
    have hint : -2 ^ 31 ≤ amount.toInt ∧ amount.toInt < 2 ^ 31 :=
      ⟨BitVec.le_toInt amount, BitVec.toInt_lt⟩
    rw [run, wp_bind, wp_get, wp_bind, wp_onMem]
    refine wp_mono (sysSbrk_spec hC hint eager hu) fun r t ht => ?_
    rcases ht with ⟨hk, -, htf, ⟨m', hu'⟩, -⟩
    exact h.replaced hC (hcaller p rfl) htf hu' (hk.mono (le_add_left _ _))
  | fault p va =>
    rw [run, wp_bind, wp_get]
    refine wp_call (h.copied hC (hused p rfl) fun map hu => ?_) fun _ τ hτ => wp_ret hτ.1
    refine wp_mono (vmfault_spec hC hu va) fun r t ht => ?_
    rcases ht with ⟨hkeep, m', hu', -⟩
    exact ⟨hkeep, m', hu'⟩
  | copyout p va src =>
    rw [run, wp_bind, wp_get]
    exact wp_call (h.copied hC (hused p rfl) fun map hu =>
      copyout_spec hC (hC.lt hu.mem_tf) hu va src) fun _ τ hτ => wp_ret hτ.1
  | copyin p va len =>
    rw [run, wp_bind, wp_get]
    exact wp_call (h.copied hC (hused p rfl) fun map hu =>
      copyin_spec hC (hC.lt hu.mem_tf) hu va len) fun _ τ hτ => wp_ret hτ.1
  | exit p status => exact kexit_good hC h (hcaller p rfl) (.inl rfl) status
  | wait p addr => exact kwait_good hC h (hcaller p rfl) addr
  | pipe p fdarray => exact sysPipe_good hC h (hcaller p rfl) fdarray
  | close p fd => exact sysClose_good hC h
  | dup p fd => exact sysDup_good h (hcaller p rfl)
  | openFile p => exact sysOpen_good hC h (hcaller p rfl)

end

/-- What holds at every step of a run: the pages are in order, and only the two panics of
`Halts` stop the system. -/
structure Inv (L : Layout) (C : Multiset Nat) (s : Machine n) : Prop where
  good : Good L C 0 s.st
  halts : ∀ e, s.panicked = some e → Halts e

section
variable {L : Layout} {C : Multiset Nat} {s t : Machine n}

theorem Boot.inv (h : Boot L s) : Inv L (s.st.mem.free : Multiset Nat) s := by
  have hpages : ∀ p, procPages s.st.mem.ram (s.st.proc p).mem = 0 := by
    intro p
    rw [(h.proc p).2.1]
    rfl
  have hpipes : pipePages s.st.file = ∅ := by
    refine Finset.eq_empty_of_forall_notMem fun pi hpi => ?_
    rcases mem_pipePages.mp hpi with ⟨f, w, hf⟩
    rw [h.file f] at hf
    cases hf
  have hfds : ∀ f, fds s.st.proc f = 0 := by
    intro f
    unfold fds fdsOf
    refine Finset.sum_eq_zero fun p _ => Finset.sum_eq_zero fun fd _ => ?_
    rw [(h.proc p).2.2 fd, if_neg nofun]
  refine ⟨⟨⟨⟨s.st.mem.free, h.chain, ?_⟩, h.double⟩, fun p => ?_, ⟨fun f => ?_, fun f _ => ?_,
    fun f _ pi w hf => ?_, fun f pi w hf => ?_⟩⟩, fun e he => ?_⟩
  · rw [hpipes, procsPages, Finset.sum_eq_zero fun p _ => hpages p]
    simp
  · rcases h.proc p with ⟨hu, hmem, hnone⟩
    exact ⟨fun _ => hmem, fun hne => absurd hu hne, fun _ => hnone⟩
  · rw [h.file f, hfds f]
    simp
  · rw [h.file f]
  · rw [h.file f] at hf
    cases hf
  · rw [h.file f] at hf
    cases hf
  · rw [h.panicked] at he
    cases he

/-- An operation that panics leaves the state as it was. -/
theorem step_inv (hC : Pool L C) (h : Inv L C s) {l : Lbl n} (hs : step L s l = some t) :
    Inv L C t := by
  unfold step at hs
  split at hs
  case isTrue hl =>
    have hcaller : ∀ p, l.caller = some p → (s.st.proc p).state = .live := by
      intro p hp
      simpa [enabled, hp] using (Bool.and_eq_true_iff.mp hl).2
    have hrun := run_good hC h.good hcaller
    split at hs
    case h_1 u heq =>
      cases hs
      exact ⟨(wp_of_eq heq).mp hrun, nofun⟩
    case h_2 e heq =>
      -- the memory stays as it was before the operation that panicked
      cases hs
      refine ⟨h.good, fun e' he => ?_⟩
      cases he
      exact (wp_of_error heq).mp hrun
  case isFalse => cases hs

variable {s₀ : Machine n} (h₀ : Boot L s₀) (h : ((sys L n).restart s₀).Reachable s)
include h₀ h

theorem inv_of_reachable : Inv L (s₀.st.mem.free : Multiset Nat) s := by
  refine h.invariant (Inv L (s₀.st.mem.free : Multiset Nat)) ?_ ?_
  · rintro _ rfl
    exact h₀.inv
  · exact fun _ _ _ hi hs => step_inv h₀.pool hi hs

/-! ## Page ownership -/

/-- In every run from boot, at every step between operations, each page of the allocator is
exactly once on the free list or owned (by a page table as a table page or user leaf, as a
trapframe, or as a pipe); the free RAM the kernel counts and the owned pages add up to the
same number of bytes throughout; no page has been freed twice; and no panic of the allocator
or of the page-table code, such as `freewalk: leaf`, has been reached. -/
theorem page_ownership :
    (∀ p, s₀.st.mem.free.count p = s.st.mem.free.count p + s.st.owned.count p ∧
      s₀.st.mem.free.count p ≤ 1) ∧
    Chain s.st.mem.ram s.st.mem.freelist s.st.mem.free ∧
    (∃ b, countFreeRam s.st.mem = some b ∧
      b + 4096 * s.st.owned.card = 4096 * s₀.st.mem.free.length) ∧
    s.st.mem.double = false ∧
    (s.panicked = none ∨ s.panicked = some .initExiting ∨ s.panicked = some .userinit) := by
  have hinv := inv_of_reachable h₀ h
  have hheap := hinv.good.heap
  rcases hheap.free_eq h₀.pool with ⟨hsum, hchain⟩
  have hcount := hheap.countFreeRam_eq h₀.pool
  refine ⟨fun p => ⟨?_, ?_⟩, hchain, ⟨_, hcount, ?_⟩, hheap.double, ?_⟩
  · have hp := congrArg (Multiset.count p) hsum
    rw [count_add, coe_count, coe_count] at hp
    rw [← hp, Nat.add_comm]
    rfl
  · have hnd := h₀.pool.nodup
    rw [coe_nodup] at hnd
    exact nodup_iff_count_le_one.mp hnd p
  · have hcard := congrArg Multiset.card hsum
    rw [card_add, coe_card, coe_card] at hcard
    rw [← hcard, PGSIZE_eq, St.owned]
    omega
  · rcases hpan : s.panicked with - | e
    · exact .inl rfl
    · rcases hinv.halts e hpan with rfl | rfl
      · exact .inr (.inl rfl)
      · exact .inr (.inr rfl)

/-- In every run from boot, what a process reaches through a user address is a page of its own,
and its pages are neither free nor those of another process. -/
theorem memory_isolation (p : Fin n) :
    ((s.st.proc p).state ≠ .unused → ∀ va pa t, pa ≠ 0 →
      walkaddr (s.st.proc p).mem.pagetable va s.st.mem = .ok (pa, t) →
      pa ∈ procPages s.st.mem.ram (s.st.proc p).mem) ∧
    ∀ x ∈ procPages s.st.mem.ram (s.st.proc p).mem, x ∉ s.st.mem.free ∧
      ∀ q ≠ p, x ∉ procPages s.st.mem.ram (s.st.proc q).mem := by
  have hC := h₀.pool
  have hgood := (inv_of_reachable h₀ h).good
  refine ⟨fun hp va pa t hpa ha => ?_, fun x hx => ?_⟩
  · rcases hgood.focus hp with ⟨m, hu⟩
    have heq : wp (fun _ => False) _ (fun r _ => r = userAddr m va) _ :=
      walkaddr_spec hu.table.toReads va rfl
    unfold wp at heq
    rw [ha] at heq
    rcases hu.space.userAddr_ne (hC.lt hu.mem_tf) (heq ▸ hpa) with ⟨hv, hvalid, -, hpage⟩
    rw [procPages, if_neg ((hgood.procs p).alive hp).pagetable, hu.table.toReads.leaves_eq, heq, hpage]
    simp [mem_leaves (Nat.zero_le _) hv hvalid]
  · have hnd := hC.nodup
    rw [← ((hgood.heap_split p).free_eq hC).1, nodup_add, nodup_add] at hnd
    refine ⟨disjoint_left.mp hnd.2.2 (mem_add.mpr (.inl hx)), fun q hq hmem => ?_⟩
    exact disjoint_left.mp hnd.1.2.2 hx (mem_add.mpr
      (.inr (mem_of_le (procPages_le_others hq) hmem)))

end

def smallLayout : Layout := ⟨524290, 524289, by decide, by decide, by decide⟩

/-- A machine with room for two processes and `k + 1` pages of RAM. -/
def smallBoot (k : Nat) : Machine 2 where
  st := {
    mem := booted smallLayout k
    proc := fun _ => ⟨.unused, ⟨0, 0, 0⟩, 0, none, 0, fun _ => none⟩
    nextpid := 1
    initproc := none
    file := fun _ => ⟨0, .none⟩ }
  panicked := none

theorem smallBoot_boot {k : Nat} (h : 524290 + k < PHYSTOP / PGSIZE) :
    Boot smallLayout (smallBoot k) :=
  ⟨fun _ => ⟨rfl, rfl, fun _ => rfl⟩, fun _ => rfl, rfl, rfl, booted_pool h, booted_chain h, rfl⟩

/-- The first process, which has no memory yet, asks for a pipe: the descriptors cannot be
copied out, and the page of the pipe goes back to the two that are free. -/
def pipeRun : List (Lbl 2) := [.userinit, .pipe 0 0]

theorem page_ownership_pipeRun :
    ∃ s, ((sys smallLayout 2).restart (smallBoot 5)).Reachable s ∧
      countFreeRam s.st.mem = some 8192 ∧ s.st.owned.card = 4 := by
  obtain ⟨s, hreach, hfree⟩ : ∃ s, ((sys smallLayout 2).restart (smallBoot 5)).Reachable s ∧
      countFreeRam s.st.mem = some 8192 := System.reaches rfl pipeRun (by decide +kernel)
  rcases (page_ownership (smallBoot_boot (by decide)) hreach).2.2.1 with ⟨b, hb, hconst⟩
  refine ⟨s, hreach, hfree, ?_⟩
  rw [hfree, Option.some.injEq] at hb
  rw [show (smallBoot 5).st.mem.free = _ from booted_free (by decide), ← hb, length_reverse,
    length_range'] at hconst
  omega

/-- The first process grows by a page and forks. -/
def forkRun : List (Lbl 2) := [.userinit, .sbrk 0 4096 true, .fork 0]

/-- Parent and child reach a page of their own through address 0. -/
theorem memory_isolation_forkRun :
    ∃ s, ((sys smallLayout 2).restart (smallBoot 14)).Reachable s ∧
      (∃ t, walkaddr (s.st.proc 0).mem.pagetable 0 s.st.mem = .ok (524300, t)) ∧
      (∃ t, walkaddr (s.st.proc 1).mem.pagetable 0 s.st.mem = .ok (524293, t)) ∧
      524300 ∈ procPages s.st.mem.ram (s.st.proc 0).mem ∧
      524293 ∈ procPages s.st.mem.ram (s.st.proc 1).mem ∧
      524300 ∉ procPages s.st.mem.ram (s.st.proc 1).mem ∧ 524293 ∉ s.st.mem.free := by
  obtain ⟨s, hreach, ⟨hused₀, hused₁⟩, hwalk₀, hwalk₁⟩ :
      ∃ s, ((sys smallLayout 2).restart (smallBoot 14)).Reachable s ∧
        ((s.st.proc 0).state ≠ .unused ∧ (s.st.proc 1).state ≠ .unused) ∧
        (walkaddr (s.st.proc 0).mem.pagetable 0 s.st.mem).toOption.map Prod.fst = some 524300 ∧
        (walkaddr (s.st.proc 1).mem.pagetable 0 s.st.mem).toOption.map Prod.fst = some 524293 :=
    System.reaches rfl forkRun (by decide +kernel)
  have hiso := memory_isolation (smallBoot_boot (by decide)) hreach
  rcases run_of_result hwalk₀ with ⟨t₀, hwalk₀⟩
  rcases run_of_result hwalk₁ with ⟨t₁, hwalk₁⟩
  have hown₀ := (hiso 0).1 hused₀ 0 _ t₀ (by decide) hwalk₀
  have hown₁ := (hiso 1).1 hused₁ 0 _ t₁ (by decide) hwalk₁
  exact ⟨s, hreach, ⟨t₀, hwalk₀⟩, ⟨t₁, hwalk₁⟩, hown₀, hown₁, ((hiso 0).2 _ hown₀).2 1 (by decide),
    ((hiso 1).2 _ hown₁).1⟩

end Xv6.Vm
