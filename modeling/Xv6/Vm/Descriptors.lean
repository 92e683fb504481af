import Xv6.Vm.Files

/-!
# Xv6.Vm.Descriptors — one process at a time

How `Good` is used by an operation of one process: the pages of all other processes
and of the pipes are the part that is left alone, and what the operation makes of its
own memory is put back next to it. The operations on descriptors and pipes keep
`Good` on every exit.
-/

namespace Xv6.Vm

open Lib Function Multiset

variable {n : Nat}

section
variable {L : Layout} {C R : Multiset Nat} {s t : Mem} {E : Panic → Prop}
  {held : Multiset (Fin NFILE)} {σ τ : St n} {p : Fin n} {f : Fin NFILE} {fd : Fin NOFILE}

/-- The state with slot `p` set to `pr`. -/
abbrev St.withProc (σ : St n) (p : Fin n) (pr : Proc n) : St n :=
  { σ with proc := update σ.proc p pr }

/-- The slot with descriptor `fd` set to `o`. -/
abbrev Proc.withOfile (pr : Proc n) (fd : Fin NOFILE) (o : Option (Fin NFILE)) : Proc n :=
  { pr with ofile := update pr.ofile fd o }

variable {Q : Unit → St n → Prop}

@[simp] theorem wp_setProc {g : Proc n → Proc n} :
    wp E (setProc p g) Q σ ↔ Q () (σ.withProc p (g (σ.proc p))) := by
  rw [setProc, wp_modify]

@[simp] theorem wp_setFile {g : File → File} :
    wp E (setFile f g) Q σ ↔
      Q () { σ with file := update σ.file f (g (σ.file f)) } := by
  rw [setFile, wp_modify]

@[simp] theorem wp_setOfile {g : Option (Fin NFILE)} :
    wp E (setOfile p fd g) Q σ ↔ Q () (σ.withProc p ((σ.proc p).withOfile fd g)) := by
  rw [setOfile, wp_setProc]

@[simp] theorem wp_setMem {m : ProcMem} :
    wp E (setMem p m) Q σ ↔ Q () (σ.withProc p { σ.proc p with mem := m }) := by
  rw [setMem, wp_setProc]

/-! ## One process and the rest -/

/-- The pages of all but one process. -/
def othersPages (ram : Nat → Page) (proc : Fin n → Proc n) (p : Fin n) : Multiset Nat :=
  ∑ q ∈ Finset.univ.erase p, procPages ram (proc q).mem

/-- The pages that an operation on the memory of `p` leaves alone. -/
def St.rest (σ : St n) (p : Fin n) : Multiset Nat :=
  (pipePages σ.file).val + othersPages σ.mem.ram σ.proc p

theorem procsPages_eq (ram : Nat → Page) (proc : Fin n → Proc n) (p : Fin n) :
    procsPages ram proc = procPages ram (proc p).mem + othersPages ram proc p :=
  (Finset.add_sum_erase Finset.univ _ (Finset.mem_univ p)).symm

theorem procPages_le_others {q : Fin n} (h : q ≠ p) :
    procPages σ.mem.ram (σ.proc q).mem ≤ othersPages σ.mem.ram σ.proc p :=
  Finset.single_le_sum (f := fun q => procPages σ.mem.ram (σ.proc q).mem)
    (fun _ _ => zero_le _) (Finset.mem_erase.mpr ⟨h, Finset.mem_univ q⟩)

theorem Good.heap_split (h : Good L C held σ) (p : Fin n) :
    Heap C (procPages σ.mem.ram (σ.proc p).mem + σ.rest p) σ.mem := by
  have hheap := h.heap
  rw [procsPages_eq σ.mem.ram σ.proc p] at hheap
  convert hheap using 1
  rw [St.rest]
  abel

/-- A new state in which only slot `p`, and memory that is not the rest's, has changed. -/
theorem Good.replace (h : Good L C held σ) (hfile : τ.file = σ.file)
    (hother : ∀ q ≠ p, τ.proc q = σ.proc q) (hofile : (τ.proc p).ofile = (σ.proc p).ofile)
    (hk : Keeps C (σ.rest p) σ.mem τ.mem) (hok : ProcOk L τ.mem (τ.proc p))
    (hheap : Heap C (procPages τ.mem.ram (τ.proc p).mem + σ.rest p) τ.mem) :
    Good L C held τ := by
  have hram : ∀ q ≠ p, ∀ x ∈ procPages σ.mem.ram (σ.proc q).mem,
      τ.mem.ram x = σ.mem.ram x := by
    intro q hq x hx
    refine hk x (.inl (mem_add.mpr (.inr ?_)))
    exact mem_of_le (procPages_le_others hq) hx
  have hsame : othersPages τ.mem.ram τ.proc p = othersPages σ.mem.ram σ.proc p := by
    refine Finset.sum_congr rfl fun q hq => ?_
    have hne := Finset.ne_of_mem_erase hq
    rw [hother q hne]
    exact procPages_congr (hram q hne)
  refine ⟨?_, fun q => ?_, ?_⟩
  · rw [procsPages_eq τ.mem.ram τ.proc p, hsame, hfile]
    convert hheap using 1
    rw [St.rest]
    abel
  · by_cases hq : q = p
    · exact hq ▸ hok
    · rw [hother q hq]
      exact (h.procs q).congr (hram q hq)
  have hfds : ∀ g, fds τ.proc g = fds σ.proc g := by
    intro g
    unfold fds
    refine Finset.sum_congr rfl fun q _ => ?_
    by_cases hq : q = p
    · rw [hq, hofile]
    · rw [hother q hq]
  simp only [hfds, hfile]
  exact h.files.keeps (hk.mono (le_add_right _ _))

variable {m : Nat → BitVec 64}

/-- A map decides which user pages a page table has. -/
theorem Reads.leaves_eq {root : Nat} (h : Reads t root m) :
    leaves (leafAt t.ram 2 root) 0 UVPN = leaves m 0 UVPN := by
  refine leaves_congr fun v _ hv => h.leaf v ?_
  rw [UVPN_eq] at hv
  rw [VPNS_eq]
  omega

/-- The process `p` with its address space, next to the rest. -/
theorem Good.focus (h : Good L C held σ) (hp : (σ.proc p).state ≠ .unused) :
    ∃ m, User L C ({(σ.proc p).mem.trapframe} + σ.rest p) (σ.proc p).mem m σ.mem := by
  have halive := (h.procs p).alive hp
  rcases halive.space with ⟨m, hreads, hspace⟩
  refine ⟨m, ⟨hreads, ?_⟩, hspace⟩
  have hheap := h.heap_split p
  rw [procPages, if_neg halive.pagetable, if_neg halive.trapframe] at hheap
  rw [hreads.leaves_eq] at hheap
  convert hheap using 1
  abel

/-- An address space owned next to the rest makes the process alive. -/
theorem User.alive (hC : Pool L C) {q : ProcMem} (h : User L C ({q.trapframe} + R) q m t) :
    Alive L t q ∧ Heap C (procPages t.ram q + R) t := by
  have hpt : q.pagetable ≠ 0 := hC.pos (h.table.heap.mem
    (mem_add.mpr (.inl (mem_tables_self t.ram 2 q.pagetable))))
  have htf : q.trapframe ≠ 0 := hC.pos h.mem_tf
  refine ⟨⟨hpt, htf, m, h.table.toReads, h.space⟩, ?_⟩
  rw [procPages, if_neg hpt, if_neg htf, h.table.toReads.leaves_eq]
  convert h.table.heap using 1
  abel

/-- Back from an operation on the memory of a live process. -/
theorem Good.put (hC : Pool L C) (h : Good L C held σ) (hp : (σ.proc p).state ≠ .unused)
    {q : ProcMem} (hu : User L C ({q.trapframe} + σ.rest p) q m t)
    (hk : Keeps C (σ.rest p) σ.mem t) :
    Good L C held { σ.withProc p { σ.proc p with mem := q } with mem := t } := by
  rcases hu.alive hC with ⟨halive, hheap⟩
  refine h.replace (p := p) rfl (fun x hx => update_of_ne hx _ _) ?_ hk ?_ ?_
  · simp
  · simp only [update_self]
    exact ⟨fun hu' => absurd hu' hp, fun _ => halive, (h.procs p).closed⟩
  · simp only [update_self]
    exact hheap

/-- The same when the process keeps its page table, trapframe and size. -/
theorem Good.put_same (hC : Pool L C) (h : Good L C held σ) (hp : (σ.proc p).state ≠ .unused)
    (hu : User L C ({(σ.proc p).mem.trapframe} + σ.rest p) (σ.proc p).mem m t)
    (hk : Keeps C (σ.rest p) σ.mem t) : Good L C held { σ with mem := t } := by
  have hput := h.put hC hp hu hk
  have hself : σ.withProc p { σ.proc p with mem := (σ.proc p).mem } = σ := by
    show { σ with proc := update σ.proc p (σ.proc p) } = σ
    rw [update_eq_self]
  rwa [hself] at hput

/-- A slot changes in fields that own nothing. -/
theorem Good.change_proc {held' : Multiset (Fin NFILE)} (h : Good L C held σ) {pr : Proc n}
    (hmem : pr.mem = (σ.proc p).mem) (hok : ProcOk L σ.mem pr)
    (hfds : ∀ g, held'.count g + fds (update σ.proc p pr) g =
      held.count g + fds σ.proc g) :
    Good L C held' (σ.withProc p pr) := by
  have hpages : procsPages σ.mem.ram (update σ.proc p pr) =
      procsPages σ.mem.ram σ.proc := by
    refine Finset.sum_congr rfl fun q _ => ?_
    rw [update_field Proc.mem hmem]
  refine ⟨?_, fun q => ?_, ?_⟩
  · rw [hpages]
    exact h.heap
  · by_cases hq : q = p
    · subst hq
      simpa only [update_self] using hok
    · simpa only [update_of_ne hq] using h.procs q
  · simp only [hfds]
    exact h.files

/-! ## Descriptors and files -/

/-- A held reference goes into a descriptor table. -/
theorem Good.setOfile (h : Good L C (f ::ₘ held) σ) (hp : (σ.proc p).state = .live)
    (hfd : (σ.proc p).ofile fd = none) :
    Good L C held (σ.withProc p ((σ.proc p).withOfile fd (some f))) := by
  have hok := h.procs p
  have hset : ∀ g, fdsOf ((σ.proc p).withOfile fd (some f)).ofile g =
      Multiset.count g {f} + fdsOf (σ.proc p).ofile g := fun g => fdsOf_set hfd g
  refine h.change_proc rfl ⟨hok.unused, hok.alive, fun hne => absurd hp hne⟩ fun g => ?_
  rw [fds_update (hset g), ← singleton_add, count_add]
  omega

/-- Clearing a descriptor takes one reference away. -/
theorem fds_clear (hfd : (σ.proc p).ofile fd = some f) (g : Fin NFILE) :
    fds σ.proc g = Multiset.count g {f} +
      fds (update σ.proc p ((σ.proc p).withOfile fd none)) g := by
  generalize hpr : (σ.proc p).withOfile fd none = pr
  have hofile : pr.ofile = update (σ.proc p).ofile fd none := by rw [← hpr]
  have hback := fds_update (p := p) (x := σ.proc p) (g := g) (k := Multiset.count g {f})
    (f := update σ.proc p pr) (by
      -- the table before is the table after with the reference put back
      have hset := fdsOf_set (f := f) (update_self fd none (σ.proc p).ofile) g
      rw [update_idem, ← hfd, update_eq_self, ← hofile] at hset
      rwa [update_self])
  rwa [update_idem, update_eq_self] at hback

theorem ProcOk.clearOfile {pr : Proc n} (h : ProcOk L s pr) (fd : Fin NOFILE) :
    ProcOk L s (pr.withOfile fd none) := by
  exact ⟨h.unused, h.alive, fun hne fd' => update_eq_of fun _ => h.closed hne fd'⟩

/-- A reference is taken out of a descriptor table. -/
theorem Good.clearOfile {d : Fin NOFILE} (h : Good L C held σ) (hfd : (σ.proc p).ofile d = some f) :
    Good L C (f ::ₘ held) (σ.withProc p ((σ.proc p).withOfile d none)) := by
  refine h.change_proc rfl ((h.procs p).clearOfile d) fun g => ?_
  rw [fds_clear hfd g, ← singleton_add, count_add]
  omega

/-- All slots keep their memory, state and descriptors. -/
theorem Good.map_procs (h : Good L C held σ) {proc : Fin n → Proc n}
    (hsame : ∀ q, (proc q).mem = (σ.proc q).mem ∧ (proc q).state = (σ.proc q).state ∧
      (proc q).ofile = (σ.proc q).ofile) :
    Good L C held { σ with proc := proc } := by
  have hfds : ∀ g, fds proc g = fds σ.proc g := by
    intro g
    unfold fds
    exact Finset.sum_congr rfl fun q _ => by rw [(hsame q).2.2]
  refine ⟨?_, fun q => ?_, ?_⟩
  · have hpages : procsPages σ.mem.ram proc = procsPages σ.mem.ram σ.proc :=
      Finset.sum_congr rfl fun q _ => by rw [(hsame q).1]
    show Heap C ((pipePages σ.file).val + procsPages σ.mem.ram proc) σ.mem
    rw [hpages]
    exact h.heap
  · rcases hsame q with ⟨hmem, hstate, hofile⟩
    have hok := h.procs q
    refine ⟨fun hu => ?_, fun hu => ?_, fun hl => ?_⟩
    · exact hmem.trans (hok.unused (hstate.symm.trans hu))
    · rw [hstate] at hu
      show Alive L σ.mem (proc q).mem
      rw [hmem]
      exact hok.alive hu
    · rw [hstate] at hl
      rw [hofile]
      exact hok.closed hl
  · show FilesOk (fun f => held.count f + fds proc f) σ.mem σ.file
    simp only [hfds]
    exact h.files

/-- What an operation on files leaves as it was. -/
def SameProcs (σ τ : St n) : Prop := τ.proc = σ.proc ∧ τ.initproc = σ.initproc

theorem fileclose_good (hC : Pool L C) (h : Good L C (f ::ₘ held) σ) :
    wp E (fileclose L f) (fun _ τ => Good L C held τ ∧ SameProcs σ τ) σ := by
  have hcount : (fun g => (f ::ₘ held).count g + fds σ.proc g) =
      fun g => Multiset.count g {f} + (held.count g + fds σ.proc g) := by
    funext g
    rw [← singleton_add, count_add]
    omega
  have hfiles := h.files
  rw [hcount] at hfiles
  refine wp_mono (fileclose_spec hC hfiles h.heap) fun _ τ hτ => ?_
  rcases hτ with ⟨hproc, hinit, hfiles', hheap, hk⟩
  rcases procs_keeps (L := L) hk with ⟨hpages, hprocs⟩
  refine ⟨⟨?_, fun q => ?_, ?_⟩, hproc, hinit⟩
  · rw [hproc, hpages]
    exact hheap
  · rw [hproc]
    exact hprocs q (h.procs q)
  · rw [hproc]
    exact hfiles'

/-- The count of one file goes up by a reference that is now held. -/
theorem Good.hold (h : Good L C held σ) (f : Fin NFILE) :
    Good L C (f ::ₘ held) { σ with file := update σ.file f
                                     { σ.file f with ref := (σ.file f).ref + 1 } } := by
  have hrefs := h.files.refs f
  rcases h.files.recount (f := f) (k := (σ.file f).ref + 1)
    (c := fun g => (f ::ₘ held).count g + fds σ.proc g)
    (by rw [count_cons_self]; omega)
    (fun g hg => by rw [count_cons_of_ne hg]) (by omega) with ⟨hfiles, hpages⟩
  refine ⟨?_, h.procs, hfiles⟩
  rw [hpages]
  exact h.heap

theorem filealloc_good (h : Good L C held σ) :
    wp E (filealloc (n := n)) (fun r τ => match r with
      | none => τ = σ
      | some f => Good L C (f ::ₘ held) τ ∧ SameProcs σ τ ∧ (σ.file f).ref = 0 ∧
          (τ.file f).type = .none ∧ (τ.file f).ref = 1 ∧
          ∀ g ≠ f, τ.file g = σ.file g) σ := by
  rw [filealloc, wp_bind, wp_get]
  cases hfind : (List.finRange NFILE).find? fun f => (σ.file f).ref = 0 with
  | none => exact wp_ret rfl
  | some f =>
    have href : (σ.file f).ref = 0 := by simpa using List.find?_some hfind
    have hhold := h.hold f
    rw [href, Nat.zero_add] at hhold
    rw [wp_bind, wp_setFile, wp_pure]
    refine ⟨hhold, ⟨rfl, rfl⟩, href, ?_, ?_, fun g hg => update_of_ne hg _ _⟩
    · simpa using h.files.idle f href
    · simp

theorem filedup_good (h : Good L C held σ) (href : (σ.file f).ref ≠ 0) :
    wp E (filedup (n := n) f) (fun _ τ => Good L C (f ::ₘ held) τ ∧ SameProcs σ τ) σ := by
  rw [filedup, wp_bind, wp_get, if_neg (by omega), wp_setFile]
  exact ⟨h.hold f, rfl, rfl⟩

theorem fdalloc_good (h : Good L C (f ::ₘ held) σ) (hp : (σ.proc p).state = .live) :
    wp E (fdalloc p f) (fun r τ => match r with
      | none => τ = σ
      | some fd => Good L C held τ ∧ (σ.proc p).ofile fd = none ∧
          τ = σ.withProc p ((σ.proc p).withOfile fd (some f))) σ := by
  rw [fdalloc, wp_bind, wp_get]
  cases hfind : (List.finRange NOFILE).find? fun fd => (σ.proc p).ofile fd = none with
  | none => exact wp_ret rfl
  | some fd =>
    have hfd : (σ.proc p).ofile fd = none := by simpa using List.find?_some hfind
    rw [wp_bind, wp_setOfile, wp_pure]
    exact ⟨h.setOfile hp hfd, hfd, rfl⟩

/-- Two idle files become the ends of a pipe in a new page. -/
theorem Good.newPipe (hC : Pool L C) (h : Good L C held σ) {f₀ f₁ : Fin NFILE} {r : Nat}
    (hne : f₁ ≠ f₀) (hf₀ : (σ.file f₀).type = .none ∧ (σ.file f₀).ref ≠ 0)
    (hf₁ : (σ.file f₁).type = .none ∧ (σ.file f₁).ref ≠ 0) (hheap : Heap C (r ::ₘ σ.owned) t)
    (hk : Keeps C σ.owned σ.mem t) (hword : t.ram r OPEN = openWord true true)
    {file : Fin NFILE → File} (hfile : file = update (update σ.file f₀
      { σ.file f₀ with type := .pipe r false }) f₁ { σ.file f₁ with type := .pipe r true }) :
    Good L C held { σ with mem := t, file := file } := by
  have hfresh : r ∉ pipePages σ.file := by
    have hnd := nodup_cons.mp (hheap.nodup hC)
    intro hm
    exact hnd.1 (mem_add.mpr (.inl hm))
  have hends : ∀ g q v, (file g).type = .pipe q v ↔ (g = f₀ ∧ q = r ∧ v = false) ∨
      (g = f₁ ∧ q = r ∧ v = true) ∨ (σ.file g).type = .pipe q v := by
    intro g q v
    rw [hfile]
    by_cases h₁ : g = f₁
    · subst h₁
      simp [hne, hf₁.1, eq_comm]
    · rw [update_of_ne h₁]
      by_cases h₀ : g = f₀
      · subst h₀
        simp [h₁, hf₀.1, eq_comm]
      · simp [h₁, h₀]
  have hrefs : ∀ g, (file g).ref = (σ.file g).ref := by
    intro g
    rw [hfile, update_field File.ref, update_field File.ref]
    · rfl
    · rw [update_of_ne hne]
  have hpages : pipePages file = insert r (pipePages σ.file) := by
    ext q
    simp only [mem_pipePages, Finset.mem_insert, hends]
    constructor
    · rintro ⟨g, v, ⟨-, hq, -⟩ | ⟨-, hq, -⟩ | hg⟩
      · exact .inl hq
      · exact .inl hq
      · exact .inr ⟨g, v, hg⟩
    · rintro (rfl | ⟨g, v, hg⟩)
      · exact ⟨f₀, false, .inl ⟨rfl, rfl, rfl⟩⟩
      · exact ⟨g, v, .inr (.inr hg)⟩
  have hold : ∀ g v, (σ.file g).type ≠ .pipe r v := fun g v hg =>
    hfresh (mem_pipePages.mpr ⟨g, v, hg⟩)
  rcases procs_keeps (L := L) (hk.mono (le_add_left _ _)) with ⟨hsame, hprocs⟩
  have hfiles := h.files.keeps (hk.mono (le_add_right _ _))
  refine ⟨?_, fun q => hprocs q (h.procs q), ?_, ?_, ?_, ?_⟩
  · show Heap C ((pipePages file).val + procsPages t.ram σ.proc) t
    rw [hpages, Finset.insert_val_of_notMem hfresh, hsame, cons_add]
    exact hheap
  · intro g
    show (file g).ref = _
    rw [hrefs]
    exact h.files.refs g
  · intro g hg
    have hg₀ : g ≠ f₀ := fun he => hf₀.2 (by rw [← he, ← hrefs]; exact hg)
    have hg₁ : g ≠ f₁ := fun he => hf₁.2 (by rw [← he, ← hrefs]; exact hg)
    show (file g).type = .none
    rw [hfile, update_of_ne hg₁, update_of_ne hg₀]
    exact h.files.idle g (by rw [← hrefs]; exact hg)
  · intro g g' q v hg hg'
    rcases (hends g q v).mp hg with ⟨rfl, rfl, rfl⟩ | ⟨rfl, rfl, rfl⟩ | hg <;>
      rcases (hends g' _ _).mp hg' with ⟨rfl, he, hv⟩ | ⟨rfl, he, hv⟩ | hg'
    · rfl
    · cases hv
    · exact absurd hg' (hold _ _)
    · cases hv
    · rfl
    · exact absurd hg' (hold _ _)
    · exact absurd (he ▸ hg) (hold _ _)
    · exact absurd (he ▸ hg) (hold _ _)
    · exact h.files.ends g g' q v hg hg'
  · intro g q v hg
    have hend : ∀ q v, EndOpen file q v ↔ q = r ∨ EndOpen σ.file q v := by
      intro q v
      simp only [EndOpen, hends]
      constructor
      · rintro ⟨g, ⟨-, hq, -⟩ | ⟨-, hq, -⟩ | hg⟩
        · exact .inl hq
        · exact .inl hq
        · exact .inr ⟨g, hg⟩
      · rintro (rfl | ⟨g, hg⟩)
        · cases v with
          | false => exact ⟨f₀, .inl ⟨rfl, rfl, rfl⟩⟩
          | true => exact ⟨f₁, .inr (.inl ⟨rfl, rfl, rfl⟩)⟩
        · exact ⟨g, .inr (.inr hg)⟩
    by_cases hq : q = r
    · subst hq
      exact ⟨true, true, hword, by simp [hend], by simp [hend]⟩
    · have hflags : FlagsOk t σ.file q := by
        rcases (hends g q v).mp hg with ⟨-, he, -⟩ | ⟨-, he, -⟩ | hg
        · exact absurd he hq
        · exact absurd he hq
        · exact hfiles.flags g q v hg
      unfold FlagsOk at hflags ⊢
      simpa [hend, hq] using hflags

theorem Good.owned_eq (h : Good L C held σ) : Heap C σ.owned σ.mem := h.heap

section
variable (hC : Pool L C)
include hC

theorem pipealloc_good (h : Good L C held σ) :
    wp E (pipealloc L) (fun r τ => SameProcs σ τ ∧ match r with
      | none => Good L C held τ
      | some (f₀, f₁) => Good L C (f₀ ::ₘ f₁ ::ₘ held) τ) σ := by
  rw [pipealloc]
  refine wp_call (filealloc_good h) fun r₀ τ₀ hτ₀ => ?_
  rcases r₀ with - | f₀
  · subst hτ₀
    exact wp_ret ⟨⟨rfl, rfl⟩, h⟩
  rcases hτ₀ with ⟨hg₀, hs₀, -, htype₀, href₀, -⟩
  refine wp_call (filealloc_good hg₀) fun r₁ τ₁ hτ₁ => ?_
  rcases r₁ with - | f₁
  · -- one file only: give it back
    subst hτ₁
    refine wp_call (fileclose_good hC hg₀) fun _ τ hτ => wp_ret ⟨?_, hτ.1⟩
    exact ⟨hτ.2.1.trans hs₀.1, hτ.2.2.trans hs₀.2⟩
  rcases hτ₁ with ⟨hg₁, hs₁, href₁, htype₁, href₁', hother⟩
  have hne : f₁ ≠ f₀ := by
    rintro rfl
    omega
  have hsame : SameProcs σ τ₁ := ⟨hs₁.1.trans hs₀.1, hs₁.2.trans hs₀.2⟩
  show wp E (onMem kalloc >>= _) _ τ₁
  rw [wp_bind, wp_onMem]
  refine wp_mono (kalloc_spec hC hg₁.owned_eq) fun pi u hu => ?_
  rw [wp_ite]
  rcases hu with ⟨h0, rfl, -⟩ | ⟨h0, hheap, hram⟩
  · -- no page: give both files back
    refine ⟨fun _ => ?_, fun hpi => absurd h0 hpi⟩
    rw [cons_swap] at hg₁
    refine wp_call (fileclose_good hC hg₁) fun _ τ hτ => ?_
    refine wp_call (fileclose_good hC hτ.1) fun _ τ' hτ' => wp_ret ⟨?_, hτ'.1⟩
    exact ⟨(hτ'.2.1.trans hτ.2.1).trans hsame.1, (hτ'.2.2.trans hτ.2.2).trans hsame.2⟩
  · refine ⟨fun hpi => absurd hpi h0, fun _ => ?_⟩
    rw [wp_bind, wp_onMem, wp_store, wp_bind, wp_setFile, wp_bind, wp_setFile, wp_pure]
    refine ⟨hsame, ?_⟩
    have hpi : pi ∉ τ₁.owned := (nodup_cons.mp (hheap.nodup hC)).1
    have hfile₀ : τ₁.file f₀ = τ₀.file f₀ := hother f₀ hne.symm
    show Good L C (f₀ ::ₘ f₁ ::ₘ held) _
    rw [cons_swap]
    refine hg₁.newPipe hC (r := pi) hne ⟨by rw [hfile₀, htype₀], by rw [hfile₀, href₀]; omega⟩
      ⟨htype₁, by omega⟩ (hheap.write hC (mem_cons_self pi _) _) ?_ ?_ ?_
    · refine Keeps.of_ne (p := pi) (fun q hq => ?_) (hheap.mem (mem_cons_self pi _)) hpi
      exact (Mem.write_of_ne u _ hq).trans (hram q hq)
    · rw [Mem.write_self, update_self]
    · simp only [update_of_ne hne]

/-- Copying out keeps `Good`. -/
theorem Good.copied (h : Good L C held σ) (hp : (σ.proc p).state ≠ .unused) {α : Type} {m : M α}
    (hm : ∀ map, User L C ({(σ.proc p).mem.trapframe} + σ.rest p) (σ.proc p).mem map σ.mem →
      wp E m (fun _ t => Keeps C ({(σ.proc p).mem.trapframe} + σ.rest p) σ.mem t ∧
        ∃ m', User L C ({(σ.proc p).mem.trapframe} + σ.rest p) (σ.proc p).mem m' t) σ.mem) :
    wp E (onMem m) (fun _ τ => Good L C held τ ∧ SameProcs σ τ) σ := by
  rcases h.focus hp with ⟨map, hu⟩
  rw [wp_onMem]
  refine wp_mono (hm map hu) fun _ t ht => ?_
  rcases ht with ⟨hk, m', hu'⟩
  exact ⟨h.put_same hC hp hu' (hk.mono (le_add_left _ _)), rfl, rfl⟩

/-- The end of `sys_pipe` on its error paths. -/
theorem closeBoth_good {f₀ f₁ : Fin NFILE} (h : Good L C (f₀ ::ₘ f₁ ::ₘ held) σ) :
    wp E (do fileclose L f₀; fileclose L f₁) (fun _ τ => Good L C held τ) σ := by
  refine wp_call (fileclose_good hC h) fun _ τ hτ => ?_
  exact wp_mono (fileclose_good hC hτ.1) fun _ _ hτ' => hτ'.1

theorem sysPipe_good (h : Good L C held σ) (hp : (σ.proc p).state = .live) (fdarray : Nat) :
    wp E (sysPipe L p fdarray) (fun _ τ => Good L C held τ) σ := by
  rw [sysPipe]
  refine wp_call (pipealloc_good hC h) fun r τ hτ => ?_
  rcases hτ with ⟨⟨hproc, -⟩, hg⟩
  rcases r with - | ⟨rf, wf⟩
  · exact wp_ret hg
  have hp₀ : (τ.proc p).state = .live := by rw [hproc, hp]
  refine wp_call (fdalloc_good hg hp₀) fun r₀ τ₀ hτ₀ => ?_
  rcases r₀ with - | fd₀
  · subst hτ₀
    exact closeBoth_good hC hg
  rcases hτ₀ with ⟨hg₀, -, hτ₀⟩
  have hp₁ : (τ₀.proc p).state = .live := by rw [hτ₀]; simpa using hp₀
  have hfd₀ : (τ₀.proc p).ofile fd₀ = some rf := by rw [hτ₀]; simp
  refine wp_call (fdalloc_good hg₀ hp₁) fun r₁ τ₁ hτ₁ => ?_
  rcases r₁ with - | fd₁
  · subst hτ₁
    show wp E (setOfile p fd₀ none >>= _) _ τ₁
    rw [wp_bind, wp_setOfile]
    exact closeBoth_good hC (hg₀.clearOfile hfd₀)
  rcases hτ₁ with ⟨hg₁, hfree, hτ₁⟩
  have hne : fd₀ ≠ fd₁ := by
    rintro rfl
    rw [hfd₀] at hfree
    cases hfree
  have hp₂ : (τ₁.proc p).state = .live := by rw [hτ₁]; simpa using hp₁
  have hfd₀' : (τ₁.proc p).ofile fd₀ = some rf := by rw [hτ₁]; simpa [hne] using hfd₀
  have hfd₁ : (τ₁.proc p).ofile fd₁ = some wf := by rw [hτ₁]; simp
  have hlive : (τ₁.proc p).state ≠ .unused := by rw [hp₂]; nofun
  show wp E (get >>= _) _ τ₁
  rw [wp_bind, wp_get]
  refine wp_call (hg₁.copied hC hlive fun map hu => ?_) fun r τ₂ hτ₂ => ?_
  · have htf := hC.lt hu.mem_tf
    refine wp_call (copyout_spec hC htf hu _ _) fun r t ht => ?_
    rcases ht with ⟨hk, m', hu'⟩
    refine wp_if (fun _ => wp_ret ⟨hk, m', hu'⟩) fun _ => ?_
    refine wp_mono (copyout_spec hC htf hu' _ _) fun r t' ht' => ⟨hk.trans ht'.1, ht'.2⟩
  · rcases hτ₂ with ⟨hg₂, hproc₂, -⟩
    refine wp_if (fun _ => ?_) fun _ => wp_ret hg₂
    rw [← hproc₂] at hfd₀' hfd₁
    rw [wp_bind, wp_setOfile, wp_bind, wp_setOfile]
    have hg₃ := hg₂.clearOfile hfd₀'
    have hg₄ := hg₃.clearOfile (p := p) (d := fd₁) (f := wf) (by simpa [hne.symm] using hfd₁)
    rw [cons_swap] at hg₄
    exact closeBoth_good hC hg₄

theorem sysClose_good (h : Good L C held σ) :
    wp E (sysClose L p fd) (fun _ τ => Good L C held τ) σ := by
  rw [sysClose, wp_bind, wp_get]
  cases hfd : (σ.proc p).ofile fd with
  | none => exact wp_ret h
  | some f =>
    rw [wp_bind, wp_setOfile]
    exact wp_mono (fileclose_good hC (h.clearOfile hfd)) fun _ _ hτ => hτ.1

end

/-- A file in a descriptor table has references. -/
theorem Good.ref_ne_zero (h : Good L C held σ) (hfd : (σ.proc p).ofile fd = some f) :
    (σ.file f).ref ≠ 0 := by
  have hpos := fds_pos hfd
  rw [h.files.refs f]
  omega

theorem sysDup_good (h : Good L C held σ) (hp : (σ.proc p).state = .live) :
    wp E (sysDup p fd) (fun _ τ => Good L C held τ) σ := by
  rw [sysDup, wp_bind, wp_get]
  cases hfd : (σ.proc p).ofile fd with
  | none => exact wp_ret h
  | some f =>
    have href := h.ref_ne_zero hfd
    show wp E (fdalloc p f >>= _) _ σ
    rw [fdalloc, wp_bind, wp_bind, wp_get]
    cases hfind : (List.finRange NOFILE).find? fun x => (σ.proc p).ofile x = none with
    | none => exact wp_ret (wp_ret h)
    | some fd' =>
      have hfree : (σ.proc p).ofile fd' = none := by simpa using List.find?_some hfind
      rw [wp_bind, wp_setOfile, wp_pure]
      show wp E (filedup f) _ _
      rw [filedup, wp_bind, wp_get, if_neg (by show ¬ (σ.file f).ref < 1; omega), wp_setFile]
      -- the descriptor is set before the count goes up
      exact (h.hold f).setOfile hp hfree

/-- A file that is no pipe changes its type. -/
theorem Good.setInode (h : Good L C held σ) (htype : (σ.file f).type = .none)
    (href : (σ.file f).ref ≠ 0) :
    Good L C held { σ with file := update σ.file f { σ.file f with type := .inode } } := by
  generalize hfile : update σ.file f { σ.file f with type := .inode } = file
  have hrefs : ∀ g, (file g).ref = (σ.file g).ref := by
    rw [← hfile]
    exact update_field File.ref (by rfl)
  have hends : ∀ g q v, (file g).type = .pipe q v ↔ (σ.file g).type = .pipe q v := by
    intro g q v
    rw [← hfile]
    by_cases hg : g = f
    · simp [hg, htype]
    · rw [update_of_ne hg]
  have hpages : pipePages file = pipePages σ.file := by
    ext q
    simp only [mem_pipePages, hends]
  refine ⟨?_, h.procs, fun g => (hrefs g).trans (h.files.refs g), fun g hg => ?_, ?_, ?_⟩
  · show Heap C ((pipePages file).val + procsPages σ.mem.ram σ.proc) σ.mem
    rw [hpages]
    exact h.heap
  · have hgf : g ≠ f := by
      rintro rfl
      exact href ((hrefs g).symm.trans hg)
    show (file g).type = .none
    rw [← hfile, update_of_ne hgf]
    exact h.files.idle g ((hrefs g).symm.trans hg)
  · intro g g' q v hg hg'
    exact h.files.ends g g' q v ((hends g q v).mp hg) ((hends g' q v).mp hg')
  · intro g q v hg
    have hflags := h.files.flags g q v ((hends g q v).mp hg)
    unfold FlagsOk EndOpen at hflags ⊢
    simpa only [hends] using hflags

theorem sysOpen_good (hC : Pool L C) (h : Good L C held σ) (hp : (σ.proc p).state = .live) :
    wp E (sysOpen L p) (fun _ τ => Good L C held τ) σ := by
  rw [sysOpen]
  refine wp_call (filealloc_good h) fun r τ hτ => ?_
  rcases r with - | f
  · subst hτ
    exact wp_ret h
  rcases hτ with ⟨hg, ⟨hproc, -⟩, -, htype, href, -⟩
  refine wp_call (fdalloc_good hg (by rw [hproc, hp])) fun r τ₁ hτ₁ => ?_
  rcases r with - | fd
  · subst hτ₁
    exact wp_mono (fileclose_good hC hg) fun _ _ hτ => hτ.1
  rcases hτ₁ with ⟨hg₁, -, rfl⟩
  show wp E (setFile f _) _ _
  rw [wp_setFile]
  exact hg₁.setInode htype (by show (τ.file f).ref ≠ 0; omega)

end

end Xv6.Vm
