import Xv6.Lib.Update
import Xv6.Vm.Kernel
import Xv6.Vm.Image

/-!
# Xv6.Vm.Files — who owns the pages of the system

The pages of a process are its tables, its user pages and its trapframe; a pipe owns
the page it lives in for as long as some open file is one of its ends. `Good` says
that the pages of the pool are exactly these and the free ones, together with what
keeps it so: address spaces are well formed, the reference count of a file is the
number of references to it, and the open flags of a pipe tell which ends are open.
This module is about the file operations; a reference not yet, or no longer, in a
descriptor table is in `held`.
-/

namespace Xv6.Vm

open Lib Function Multiset

variable {n : Nat}

/-! ## Ownership -/

/-- The pages of one process. -/
def procPages (ram : Nat → Page) (p : ProcMem) : Multiset Nat :=
  (if p.pagetable = 0 then 0
    else tables ram 2 p.pagetable + leaves (leafAt ram 2 p.pagetable) 0 UVPN) +
  (if p.trapframe = 0 then 0 else {p.trapframe})

/-- The pages of all processes. -/
def procsPages (ram : Nat → Page) (proc : Fin n → Proc n) : Multiset Nat :=
  ∑ p, procPages ram (proc p).mem

/-- The page a file keeps alive. -/
def FileType.page : FileType → Finset Nat
  | .pipe pi _ => {pi}
  | _ => ∅

/-- The pages of the pipes. -/
@[irreducible] def pipePages (file : Fin NFILE → File) : Finset Nat :=
  Finset.univ.biUnion fun f => (file f).type.page

/-- The pages in use. -/
def St.owned (s : St n) : Multiset Nat :=
  (pipePages s.file).val + procsPages s.mem.ram s.proc

/-! ## Invariants -/

/-- An address space in working order. -/
structure Alive (L : Layout) (t : Mem) (p : ProcMem) : Prop where
  pagetable : p.pagetable ≠ 0
  trapframe : p.trapframe ≠ 0
  space : ∃ m, Reads t p.pagetable m ∧ Space L m p.sz p.trapframe

structure ProcOk (L : Layout) (t : Mem) (pr : Proc n) : Prop where
  unused : pr.state = .unused → pr.mem = ⟨0, 0, 0⟩
  alive : pr.state ≠ .unused → Alive L t pr.mem
  closed : pr.state ≠ .live → ∀ fd, pr.ofile fd = none

/-- Some open file is this end of the pipe. -/
def EndOpen (file : Fin NFILE → File) (pi : Nat) (w : Bool) : Prop :=
  ∃ f, (file f).type = .pipe pi w

/-- The open flags in the page of a pipe are right. -/
def FlagsOk (t : Mem) (file : Fin NFILE → File) (pi : Nat) : Prop :=
  ∃ r w, t.ram pi OPEN = openWord r w ∧
    (r = true ↔ EndOpen file pi false) ∧ (w = true ↔ EndOpen file pi true)

/-- The file table, when `count` references exist to each file. -/
structure FilesOk (count : Fin NFILE → Nat) (t : Mem) (file : Fin NFILE → File) : Prop where
  refs : ∀ f, (file f).ref = count f
  idle : ∀ f, (file f).ref = 0 → (file f).type = .none
  ends : ∀ f g pi w, (file f).type = .pipe pi w → (file g).type = .pipe pi w → f = g
  flags : ∀ f pi w, (file f).type = .pipe pi w → FlagsOk t file pi

/-- The references to a file in a descriptor table. -/
@[irreducible] def fdsOf (ofile : Fin NOFILE → Option (Fin NFILE)) (f : Fin NFILE) : Nat :=
  ∑ fd, if ofile fd = some f then 1 else 0

/-- The references to a file in all descriptor tables. -/
@[irreducible] def fds (proc : Fin n → Proc n) (f : Fin NFILE) : Nat := ∑ p, fdsOf (proc p).ofile f

/-- The pages of the pool are owned or free, and everything that owns is in order. -/
structure Good (L : Layout) (C : Multiset Nat) (held : Multiset (Fin NFILE)) (s : St n) :
    Prop where
  heap : Heap C ((pipePages s.file).val + procsPages s.mem.ram s.proc) s.mem
  procs : ∀ p, ProcOk L s.mem (s.proc p)
  files : FilesOk (fun f => held.count f + fds s.proc f) s.mem s.file

/-! ## Frames -/

section
variable {L : Layout} {C R : Multiset Nat} {s t : Mem} {E : Panic → Prop}

theorem wp_onMem {α : Type} {m : M α} {σ : St n} {Q : α → St n → Prop} :
    wp E (onMem m) Q σ ↔ wp E m (fun a t => Q a { σ with mem := t }) σ.mem := by
  unfold wp onMem
  cases m σ.mem <;> rfl

variable {file : Fin NFILE → File}

theorem mem_pipePages {pi : Nat} :
    pi ∈ pipePages file ↔ ∃ f w, (file f).type = .pipe pi w := by
  unfold pipePages
  simp only [Finset.mem_biUnion, Finset.mem_univ, true_and]
  refine exists_congr fun f => ?_
  cases (file f).type with
  | none => simp [FileType.page]
  | inode => simp [FileType.page]
  | pipe q w => simp [FileType.page, eq_comm]

/-- The pages of a process depend on its tables only. -/
theorem procPages_congr {p : ProcMem} (h : ∀ q ∈ procPages s.ram p, t.ram q = s.ram q) :
    procPages t.ram p = procPages s.ram p := by
  unfold procPages at h ⊢
  by_cases hpt : p.pagetable = 0
  · simp only [hpt, if_true]
  · simp only [hpt, if_false] at h ⊢
    have htree : ∀ q ∈ tables s.ram 2 p.pagetable, t.ram q = s.ram q :=
      fun q hq => h q (by simp [hq])
    rcases tree_congr htree with ⟨htab, hleaf, -, -⟩
    rw [htab, hleaf]

theorem Alive.congr {p : ProcMem} (h : Alive L s p)
    (hram : ∀ q ∈ procPages s.ram p, t.ram q = s.ram q) : Alive L t p := by
  rcases h.space with ⟨m, hreads, hspace⟩
  refine ⟨h.pagetable, h.trapframe, m, (hreads.congr fun q hq => hram q ?_).1, hspace⟩
  simp [procPages, h.pagetable, hq]

theorem procPages_le (ram : Nat → Page) (proc : Fin n → Proc n) (p : Fin n) :
    procPages ram (proc p).mem ≤ procsPages ram proc :=
  Finset.single_le_sum (fun _ _ => zero_le _) (Finset.mem_univ p)

theorem ProcOk.congr {pr : Proc n} (h : ProcOk L s pr)
    (hram : ∀ q ∈ procPages s.ram pr.mem, t.ram q = s.ram q) : ProcOk L t pr :=
  ⟨h.unused, fun hu => (h.alive hu).congr hram, h.closed⟩

/-- Memory that keeps the pages of all processes leaves them all in order. -/
theorem procs_keeps {proc : Fin n → Proc n} (hk : Keeps C (procsPages s.ram proc) s t) :
    procsPages t.ram proc = procsPages s.ram proc ∧
      ∀ p, ProcOk L s (proc p) → ProcOk L t (proc p) := by
  have hram : ∀ p, ∀ q ∈ procPages s.ram (proc p).mem, t.ram q = s.ram q := fun p q hq =>
    hk q (.inl (mem_of_le (procPages_le s.ram proc p) hq))
  exact ⟨Finset.sum_congr rfl fun p _ => procPages_congr (hram p), fun p h => h.congr (hram p)⟩

variable {count : Fin NFILE → Nat}

theorem FilesOk.keeps (h : FilesOk count s file) (hk : Keeps C (pipePages file).val s t) :
    FilesOk count t file := by
  refine ⟨h.refs, h.idle, h.ends, fun f pi w hf => ?_⟩
  unfold FlagsOk
  rw [hk pi (.inl (mem_pipePages.mpr ⟨f, w, hf⟩))]
  exact h.flags f pi w hf

variable {f : Fin NFILE}

/-- A file whose reference count alone changes. -/
theorem FilesOk.recount (h : FilesOk count s file) {k : Nat} {c : Fin NFILE → Nat} (hk : k = c f)
    (hne : ∀ g ≠ f, count g = c g) (hidle : k = 0 → (file f).type = .none) :
    FilesOk c s (update file f { file f with ref := k }) ∧
      pipePages (update file f { file f with ref := k }) = pipePages file := by
  generalize hfile : update file f { file f with ref := k } = file'
  have htype : ∀ g, (file' g).type = (file g).type := by
    rw [← hfile]
    exact update_field File.type (by rfl)
  have hend : ∀ q v, EndOpen file' q v ↔ EndOpen file q v := by
    intro q v
    simp only [EndOpen, htype]
  refine ⟨⟨fun g => ?_, fun g hg => ?_, fun g g' q v hg hg' => ?_, fun g q v hg => ?_⟩, ?_⟩
  · rw [← hfile]
    by_cases hg : g = f
    · subst hg
      simpa using hk
    · rw [update_of_ne hg, h.refs g, hne g hg]
  · rw [htype]
    rw [← hfile] at hg
    by_cases hgf : g = f
    · subst hgf
      exact hidle (by simpa using hg)
    · rw [update_of_ne hgf] at hg
      exact h.idle g hg
  · rw [htype] at hg hg'
    exact h.ends g g' q v hg hg'
  · rw [htype] at hg
    unfold FlagsOk
    simp only [hend]
    exact h.flags g q v hg
  · ext q
    simp only [mem_pipePages, htype]

/-! ## Counting references -/

/-- A sum whose terms change at one index. -/
theorem sum_change {ι A : Type} [Fintype ι] [DecidableEq ι] [AddCommMonoid A] {F F' : ι → A} {i : ι}
    {a : A} (hi : F' i = a + F i) (hne : ∀ j ≠ i, F' j = F j) :
    ∑ j, F' j = a + ∑ j, F j := by
  rw [← Finset.add_sum_erase Finset.univ F' (Finset.mem_univ i),
    ← Finset.add_sum_erase Finset.univ F (Finset.mem_univ i), hi, add_assoc,
    Finset.sum_congr rfl fun j hj => hne j (Finset.ne_of_mem_erase hj)]

theorem fdsOf_set {ofile : Fin NOFILE → Option (Fin NFILE)} {fd : Fin NOFILE} (h : ofile fd = none)
    (g : Fin NFILE) :
    fdsOf (update ofile fd (some f)) g = Multiset.count g {f} + fdsOf ofile g := by
  unfold fdsOf
  refine sum_change (i := fd) ?_ fun x hx => by rw [update_of_ne hx]
  rw [update_self, h, count_singleton]
  simp [eq_comm]

theorem fds_update {f : Fin n → Proc n} {p : Fin n} {x : Proc n} {k : Nat} {g : Fin NFILE}
    (h : fdsOf x.ofile g = k + fdsOf (f p).ofile g) :
    fds (update f p x) g = k + fds f g := by
  unfold fds
  refine sum_change (i := p) ?_ fun q hq => by rw [update_of_ne hq]
  rw [update_self, h]

/-- A file in a descriptor table is referenced. -/
theorem fds_pos {proc : Fin n → Proc n} {p : Fin n} {fd : Fin NOFILE}
    (h : (proc p).ofile fd = some f) : 0 < fds proc f := by
  have h₁ : fdsOf (proc p).ofile f ≤ fds proc f := by
    unfold fds
    exact Finset.single_le_sum (f := fun q => fdsOf (proc q).ofile f) (fun _ _ => Nat.zero_le _)
      (Finset.mem_univ p)
  have h₂ : (if (proc p).ofile fd = some f then 1 else 0) ≤ fdsOf (proc p).ofile f := by
    unfold fdsOf
    exact Finset.single_le_sum (f := fun x => if (proc p).ofile x = some f then 1 else 0)
      (fun _ _ => Nat.zero_le _) (Finset.mem_univ fd)
  rw [if_pos h] at h₂
  omega

/-! ## Closing -/

/-- Clearing the flag of one end leaves the flag of the other. -/
theorem openWord_close (r w writable : Bool) :
    (if writable then openWord r w &&& 0xFFFFFFFF else openWord r w &&& 0xFFFFFFFF00000000) =
      openWord (r && writable) (w && !writable) := by
  revert r w writable
  decide

theorem openWord_eq_zero {r w : Bool} : openWord r w = 0 ↔ r = false ∧ w = false := by
  revert r w
  decide

/-- `pipeclose` frees the page when the other end is closed too. -/
theorem pipeclose_spec (hC : Pool L C) {pi : Nat} {r w : Bool} (writable : Bool)
    (h : Heap C ({pi} + R) s) (hword : s.ram pi OPEN = openWord r w) :
    wp E (pipeclose L pi writable) (fun _ t => Keeps C R s t ∧
      (((r && writable) = false ∧ (w && !writable) = false ∧ Heap C R t) ∨
        (((r && writable) = true ∨ (w && !writable) = true) ∧ Heap C ({pi} + R) t ∧
          t.ram pi OPEN = openWord (r && writable) (w && !writable)))) s := by
  rw [singleton_add] at h ⊢
  have hpi := mem_cons_self pi R
  have hpR := (nodup_cons.mp (h.nodup hC)).1
  have hpC := h.mem hpi
  simp only [pipeclose, wp_bind, wp_load, wp_store, hword, openWord_close]
  have hheap := h.write hC hpi (update (s.ram pi) OPEN
    (openWord (r && writable) (w && !writable)))
  have hkeep : Keeps C R s (s.write pi (update (s.ram pi) OPEN
      (openWord (r && writable) (w && !writable)))) :=
    Keeps.of_ne (fun q hq => s.write_of_ne _ hq) hpC hpR
  refine wp_if (fun h0 => ?_) fun hne => ?_
  · refine wp_mono (kfree_spec hC hheap) fun _ t ht => ⟨hkeep.trans ?_, .inl ?_⟩
    · exact Keeps.of_ne ht.2 hpC hpR
    · rcases openWord_eq_zero.mp h0 with ⟨hr, hw⟩
      exact ⟨hr, hw, ht.1⟩
  · rw [wp_pure]
    refine ⟨hkeep, .inr ⟨?_, hheap, by simp [Mem.write]⟩⟩
    by_contra hno
    simp only [not_or, Bool.not_eq_true] at hno
    exact hne (openWord_eq_zero.mpr hno)

/-- The file table without the file `f`. -/
def closed (file : Fin NFILE → File) (f : Fin NFILE) : Fin NFILE → File :=
  update file f ⟨0, .none⟩

section
variable {count : Fin NFILE → Nat} {file : Fin NFILE → File} {f : Fin NFILE} {pi : Nat} {w : Bool}

theorem closed_pipe {g : Fin NFILE} {q : Nat} {v : Bool} :
    (closed file f g).type = .pipe q v ↔ g ≠ f ∧ (file g).type = .pipe q v := by
  unfold closed
  by_cases h : g = f
  · subst h
    simp
  · simp [h]

/-- The other ends are open as before; this one is closed, since it had one file only. -/
theorem FilesOk.endOpen_closed (h : FilesOk count s file) (hf : (file f).type = .pipe pi w)
    (q : Nat) (v : Bool) :
    EndOpen (closed file f) q v ↔ EndOpen file q v ∧ ¬ (q = pi ∧ v = w) := by
  constructor
  · rintro ⟨g, hg⟩
    rcases closed_pipe.mp hg with ⟨hne, hg⟩
    refine ⟨⟨g, hg⟩, ?_⟩
    rintro ⟨rfl, rfl⟩
    exact hne (h.ends g f q v hg hf)
  · rintro ⟨⟨g, hg⟩, hno⟩
    refine ⟨g, closed_pipe.mpr ⟨?_, hg⟩⟩
    rintro rfl
    rw [hf] at hg
    cases hg
    exact hno ⟨rfl, rfl⟩

/-- Closing a file that is no pipe keeps the pipes. -/
theorem pipePages_closed_other (hf : ∀ pi w, (file f).type ≠ .pipe pi w) :
    pipePages (closed file f) = pipePages file := by
  ext q
  simp only [mem_pipePages, closed_pipe]
  constructor
  · rintro ⟨g, v, -, hg⟩
    exact ⟨g, v, hg⟩
  · rintro ⟨g, v, hg⟩
    refine ⟨g, v, ?_, hg⟩
    rintro rfl
    exact hf q v hg

theorem FilesOk.pipePages_closed (h : FilesOk count s file) (hf : (file f).type = .pipe pi w) :
    (EndOpen file pi (!w) → pipePages (closed file f) = pipePages file) ∧
    (¬ EndOpen file pi (!w) → pipePages (closed file f) = (pipePages file).erase pi) := by
  have hiff : ∀ q, q ∈ pipePages (closed file f) ↔
      ∃ v, EndOpen file q v ∧ ¬ (q = pi ∧ v = w) := by
    intro q
    rw [mem_pipePages, exists_comm]
    exact exists_congr fun v => h.endOpen_closed hf q v
  have hold : ∀ q, q ∈ pipePages file ↔ ∃ v, EndOpen file q v := by
    intro q
    rw [mem_pipePages, exists_comm]
    rfl
  refine ⟨fun hother => ?_, fun hother => ?_⟩
  · ext q
    rw [hiff, hold]
    constructor
    · rintro ⟨v, hv, -⟩
      exact ⟨v, hv⟩
    · rintro ⟨v, hv⟩
      by_cases hq : q = pi
      · subst hq
        exact ⟨!w, hother, by simp⟩
      · exact ⟨v, hv, fun hc => hq hc.1⟩
  · ext q
    rw [hiff, Finset.mem_erase, hold]
    constructor
    · rintro ⟨v, hv, hno⟩
      refine ⟨?_, v, hv⟩
      rintro rfl
      have hvw : v = !w := by
        cases v <;> cases w <;> simp at hno ⊢
      exact hother (hvw ▸ hv)
    · rintro ⟨hq, v, hv⟩
      exact ⟨v, hv, fun hc => hq hc.1⟩

/-- The table after the last reference to `f` is gone. -/
theorem FilesOk.closed (h : FilesOk (fun g => Multiset.count g {f} + count g) s file)
    (hzero : count f = 0)
    (hflags : ∀ g q v, g ≠ f → (file g).type = .pipe q v → FlagsOk t (closed file f) q) :
    FilesOk count t (Xv6.Vm.closed file f) := by
  refine ⟨fun g => ?_, fun g hg => ?_, fun g g' q v hg hg' => ?_, fun g q v hg => ?_⟩
  · unfold Xv6.Vm.closed
    by_cases hgf : g = f
    · subst hgf
      simp [hzero]
    · rw [update_of_ne hgf, h.refs g]
      simp [hgf]
  · unfold Xv6.Vm.closed at hg ⊢
    by_cases hgf : g = f
    · subst hgf
      simp
    · rw [update_of_ne hgf] at hg ⊢
      exact h.idle g hg
  · exact h.ends g g' q v (closed_pipe.mp hg).2 (closed_pipe.mp hg').2
  · exact hflags g q v (closed_pipe.mp hg).1 (closed_pipe.mp hg).2

end

/-- `fileclose` gives up one reference, and the pipe with its last file. -/
theorem fileclose_spec (hC : Pool L C) {σ : St n}
    (h : FilesOk (fun g => Multiset.count g {f} + count g) σ.mem σ.file)
    (hheap : Heap C ((pipePages σ.file).val + R) σ.mem) :
    wp E (fileclose L f) (fun _ τ => τ.proc = σ.proc ∧ τ.initproc = σ.initproc ∧
      FilesOk count τ.mem τ.file ∧ Heap C ((pipePages τ.file).val + R) τ.mem ∧
      Keeps C R σ.mem τ.mem) σ := by
  have href : (σ.file f).ref = 1 + count f := by
    rw [h.refs f]
    simp
  rw [fileclose, wp_bind, wp_get, if_neg (by omega)]
  refine wp_if (fun hmore => ?_) fun hlast => ?_
  · -- other references are left: only the count changes
    rw [setFile, wp_modify]
    rcases h.recount (f := f) (k := (σ.file f).ref - 1) (c := count) (by omega)
      (fun g hg => by simp [hg]) (fun h0 => by omega) with ⟨hfiles, hpages⟩
    refine ⟨rfl, rfl, hfiles, ?_, Keeps.refl C R _⟩
    rw [hpages]
    exact hheap
  · have hzero : count f = 0 := by omega
    rw [wp_bind, setFile, wp_modify]
    show wp E _ _ { σ with file := closed σ.file f }
    cases htype : (σ.file f).type with
    | pipe pi w =>
      -- an end of a pipe: the page goes with its second end
      rw [wp_onMem]
      rcases h.flags f pi w htype with ⟨r, w', hword, hr, hw⟩
      have hmem : pi ∈ pipePages σ.file := mem_pipePages.mpr ⟨f, w, htype⟩
      have hsplit : (pipePages σ.file).val = {pi} + ((pipePages σ.file).erase pi).val := by
        rw [Finset.erase_val, singleton_add, cons_erase hmem]
      rw [hsplit, add_assoc] at hheap
      refine wp_mono (pipeclose_spec hC w hheap hword) fun _ t ht => ?_
      rcases ht with ⟨hkeep, hcase⟩
      have hR : Keeps C R σ.mem t := hkeep.mono (le_add_left _ _)
      -- the flags of the other pipes are untouched
      have hother : ∀ g q v, (σ.file g).type = .pipe q v → q ≠ pi →
          FlagsOk t (closed σ.file f) q := by
        intro g q v hg hq
        rcases h.flags g q v hg with ⟨r₁, w₁, hword₁, hr₁, hw₁⟩
        refine ⟨r₁, w₁, ?_, ?_, ?_⟩
        · rw [hkeep q (.inl (mem_add.mpr (.inl ?_))), hword₁]
          exact Finset.mem_erase.mpr ⟨hq, mem_pipePages.mpr ⟨g, v, hg⟩⟩
        · rw [hr₁, h.endOpen_closed htype]
          simp [hq]
        · rw [hw₁, h.endOpen_closed htype]
          simp [hq]
      have hends : ((r && w) = true ∨ (w' && !w) = true) ↔ EndOpen σ.file pi (!w) := by
        cases w
        · simp [hw]
        · simp [hr]
      rcases h.pipePages_closed htype with ⟨hsame, hgone⟩
      rcases hcase with ⟨hr', hw'', hfree⟩ | ⟨hopen, hpage, hword'⟩
      · have hno : ¬ EndOpen σ.file pi (!w) := by
          rw [← hends, hr', hw'']
          simp
        refine ⟨rfl, rfl, h.closed hzero fun g q v hgf hg => hother g q v hg ?_, ?_, hR⟩
        · rintro rfl
          have hv : v = !w := by
            by_contra hne
            have hvw : v = w := by cases v <;> cases w <;> simp at hne ⊢
            subst hvw
            exact hgf (h.ends g f q v hg htype)
          exact hno ⟨g, hv ▸ hg⟩
        · rw [hgone hno]
          exact hfree
      · have hyes := hends.mp hopen
        refine ⟨rfl, rfl, h.closed hzero fun g q v hgf hg => ?_, ?_, hR⟩
        · by_cases hq : q = pi
          · subst hq
            refine ⟨_, _, hword', ?_, ?_⟩
            · rw [h.endOpen_closed htype, ← hr]
              cases w <;> simp
            · rw [h.endOpen_closed htype, ← hw]
              cases w <;> simp
          · exact hother g q v hg hq
        · rw [hsame hyes, hsplit, add_assoc]
          exact hpage
    | none | inode =>
      rw [wp_pure]
      have hno : ∀ q v, (σ.file f).type ≠ .pipe q v := fun q v hq => by
        rw [htype] at hq
        cases hq
      refine ⟨rfl, rfl, h.closed hzero fun g q v hgf hg => ?_, ?_, Keeps.refl C R _⟩
      · have hend : ∀ v', EndOpen (closed σ.file f) q v' ↔ EndOpen σ.file q v' := by
          intro v'
          unfold EndOpen
          simp only [closed_pipe]
          refine exists_congr fun g' => ⟨fun hc => hc.2, fun hc => ⟨?_, hc⟩⟩
          rintro rfl
          exact hno q v' hc
        unfold FlagsOk
        simp only [hend]
        exact h.flags g q v hg
      · show Heap C ((pipePages (closed σ.file f)).val + R) σ.mem
        rw [pipePages_closed_other hno]
        exact hheap

end

end Xv6.Vm
