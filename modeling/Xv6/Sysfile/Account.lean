import Xv6.Fs.Refs
import Xv6.Lib.Uses
import Xv6.Sysfile.Calls

/-!
# Xv6.Sysfile.Account — every reference is accounted for

The tables of `Xv6.Sysfile.Basic` and what the system calls in progress have in hand. A call
owns tokens: references to inodes and open files that it has taken and not yet put anywhere,
ends of pipes that it is about to close, and the slots of a process, its own or those of a
child it is making. `Inv s T` says that with the tokens `T` of all calls in progress every
count is exact.

The rules below say what one action does to the tokens. They are used as specifications of
the actions; no program is mentioned.
-/

namespace Xv6.Sysfile

open Lib Function Multiset

variable {n : Nat}

/-! ## Tables -/

/-- The inode that a file of this type refers to. -/
def FileType.ip : FileType → Option Nat
  | .inode ip | .device ip _ => some ip
  | .none | .pipe .. => Option.none

/-- The end of a pipe that a file of this type refers to. -/
def FileType.pend : FileType → Option (Nat × Bool)
  | .pipe pi writable => some (pi, writable)
  | .none | .inode _ | .device .. => Option.none

def St.fileOf (s : St n) (x : Fin n × Fin NOFILE) : Option (Fin NFILE) := (s.proc x.1).ofile x.2

def St.cwdOf (s : St n) (p : Fin n) : Option Nat := (s.proc p).cwd

def St.ipOf (s : St n) (f : Fin NFILE) : Option Nat := (s.file f).type.ip

def St.endOf (s : St n) (f : Fin NFILE) : Option (Nat × Bool) := (s.file f).type.pend

/-- 1 for an open end of a pipe. -/
def openEnd : Option Pipe → Bool → Nat
  | none, _ => 0
  | some x, writable => (if writable then x.writeopen else x.readopen).toNat

theorem openEnd_le (x : Option Pipe) (writable : Bool) : openEnd x writable ≤ 1 := by
  cases x with
  | none => exact Nat.zero_le 1
  | some x => exact Bool.toNat_le _

def St.isOpen (s : St n) (pi : Nat) (writable : Bool) : Nat := openEnd (s.pipe pi) writable

/-! ## Tokens -/

/-- What a system call in progress can have in hand. A file is `fresh` between `filealloc` and
the assignment to its type; slots are those of a `child` or of the process itself. -/
inductive Tok (n : Nat)
  | inode (ip : Nat)
  | file (f : Fin NFILE)
  | fresh (f : Fin NFILE)
  | pend (pi : Nat) (writable : Bool)
  | slots (q : Fin n) (child : Bool) (ofile : Fin NOFILE → Option (Fin NFILE)) (cwd : Option Nat)
  deriving DecidableEq

/-- The slots of `q`. -/
def Tok.isSlots (q : Fin n) : Tok n → Bool
  | .slots q' _ _ _ => q' = q
  | _ => false

/-- What an optional reference is worth. -/
def held {α : Type} (g : α → Tok n) (x : Option α) : Multiset (Tok n) := x.elim 0 fun a => {g a}

/-- What a descriptor is worth. -/
abbrev fileTok (f : Option (Fin NFILE)) : Multiset (Tok n) := held .file f

/-- What a current directory is worth. -/
abbrev inodeTok (ip : Option Nat) : Multiset (Tok n) := held .inode ip

/-- What a reference of a file to an inode or to a pipe is worth. -/
def FileType.toks (ty : FileType) : Multiset (Tok n) :=
  inodeTok ty.ip + held (fun x => .pend x.1 x.2) ty.pend

/-! ## The invariant -/

structure Inodes (s : St n) (T : Multiset (Tok n)) : Prop where
  count : ∀ i, (s.fs.inode i).ref = uses s.ipOf i + uses s.cwdOf i + T.count (.inode i)

structure Files (s : St n) (T : Multiset (Tok n)) : Prop where
  count : ∀ f, (s.file f).ref = uses s.fileOf f + T.count (.file f) + T.count (.fresh f)
  free : ∀ f, (s.file f).ref = 0 → (s.file f).type = .none
  fresh : ∀ f, 0 < T.count (.fresh f) → (s.file f).ref = 1 ∧ (s.file f).type = .none

structure Ends (s : St n) (T : Multiset (Tok n)) : Prop where
  count : ∀ a w, s.isOpen a w = uses s.endOf (a, w) + T.count (.pend a w)
  shut : ∀ a, s.pipe a ≠ some ⟨false, false⟩

/-- What who has the slots of a process knows about it. -/
structure Proc.Has (pr : Proc n) (child : Bool) (o : Fin NOFILE → Option (Fin NFILE))
    (c : Option Nat) : Prop where
  ofile : pr.ofile = o
  cwd : pr.cwd = c
  state : pr.state = if child then .used else .live
  insys : pr.insys = !child

structure Procs (s : St n) (T : Multiset (Tok n)) : Prop where
  slots : ∀ q b o c, .slots q b o c ∈ T → (s.proc q).Has b o c
  own : ∀ q, T.countP (fun x => x.isSlots q) =
    if (s.proc q).state = .used ∨ (s.proc q).insys = true then 1 else 0
  dead : ∀ q, (s.proc q).state = .unused ∨ (s.proc q).state = .zombie →
    (s.proc q).insys = false ∧ (s.proc q).ofile = (fun _ => none) ∧ (s.proc q).cwd = none
  live : ∀ q, (s.proc q).state = .live → (s.proc q).insys = false → (s.proc q).cwd ≠ none

structure Inv (s : St n) (T : Multiset (Tok n)) : Prop where
  inodes : Inodes s T
  files : Files s T
  ends : Ends s T
  procs : Procs s T

theorem Inv.of_eq {s : St n} {T T' : Multiset (Tok n)} (h : Inv s T) (hT : T' = T) : Inv s T' :=
  hT ▸ h

section
variable {s t : St n} {T T' A B r : Multiset (Tok n)} {p q : Fin n}
  {o o' : Fin NOFILE → Option (Fin NFILE)} {c c' : Option Nat} {b : Bool}

/-! ## Counting tokens -/

variable {α : Type} {g : α → Tok n}

theorem count_held [DecidableEq α] (hg : Function.Injective g) (x : Option α) (a : α) :
    (held g x).count (g a) = if x = some a then 1 else 0 := by
  cases x with
  | none => rfl
  | some b => simp [held, count_singleton, hg.eq_iff, eq_comm]

@[simp] theorem count_held_of_ne {y : Tok n} (hg : ∀ a, g a ≠ y) (x : Option α) :
    (held g x).count y = 0 := by
  cases x with
  | none => rfl
  | some b => simp [held, (hg b).symm]

@[simp] theorem count_held_inode (x : Option Nat) (i : Nat) :
    (held .inode x : Multiset (Tok n)).count (.inode i) = if x = some i then 1 else 0 :=
  count_held (fun _ _ h => by cases h; rfl) x i

@[simp] theorem count_held_file (x : Option (Fin NFILE)) (f : Fin NFILE) :
    (held .file x : Multiset (Tok n)).count (.file f) = if x = some f then 1 else 0 :=
  count_held (fun _ _ h => by cases h; rfl) x f

@[simp] theorem count_held_pend (x : Option (Nat × Bool)) (a : Nat) (w : Bool) :
    (held (fun x => .pend x.1 x.2) x : Multiset (Tok n)).count (.pend a w) =
      if x = some (a, w) then 1 else 0 :=
  count_held (g := fun x => .pend x.1 x.2) (fun _ _ h => Prod.ext (Tok.pend.inj h).1 (Tok.pend.inj h).2)
    x (a, w)

@[simp] theorem FileType.ip_none : FileType.none.ip = Option.none := rfl

@[simp] theorem FileType.pend_none : FileType.none.pend = Option.none := rfl

@[simp] theorem FileType.toks_none : (FileType.none.toks : Multiset (Tok n)) = 0 := rfl

theorem FileType.toks_pipe (pi : Nat) (w : Bool) :
    ((FileType.pipe pi w).toks : Multiset (Tok n)) = {.pend pi w} := rfl

section
variable (ty : FileType)

@[simp] theorem count_inode_toks (i : Nat) :
    (ty.toks : Multiset (Tok n)).count (.inode i) = if ty.ip = some i then 1 else 0 := by
  simp [FileType.toks]

@[simp] theorem count_pend_toks (a : Nat) (w : Bool) :
    (ty.toks : Multiset (Tok n)).count (.pend a w) = if ty.pend = some (a, w) then 1 else 0 := by
  simp [FileType.toks]

@[simp] theorem count_file_toks (f : Fin NFILE) :
    (ty.toks : Multiset (Tok n)).count (.file f) = 0 := by
  simp [FileType.toks]

@[simp] theorem count_fresh_toks (f : Fin NFILE) :
    (ty.toks : Multiset (Tok n)).count (.fresh f) = 0 := by
  simp [FileType.toks]

end

/-- Tokens among which there are no slots. -/
def Plain (A : Multiset (Tok n)) : Prop := ∀ q, A.countP (fun x => x.isSlots q) = 0

theorem Plain.zero : Plain (0 : Multiset (Tok n)) := fun _ => rfl

theorem Plain.add (hA : Plain A) (hB : Plain B) : Plain (A + B) := by
  intro q
  rw [countP_add, hA q, hB q]

variable {x : Tok n}

theorem Plain.singleton (hx : ∀ q, x.isSlots q = false) : Plain {x} := by
  intro q
  rw [countP_eq_zero]
  intro y hy
  rw [mem_singleton.mp hy, hx q]
  nofun

theorem Plain.held (hg : ∀ a q, (g a).isSlots q = false) (x : Option α) :
    Plain (held g x) := by
  cases x with
  | none => exact Plain.zero
  | some a => exact Plain.singleton (hg a)

theorem Plain.toks (ty : FileType) : Plain (ty.toks : Multiset (Tok n)) :=
  (Plain.held (fun _ _ => rfl) _).add (Plain.held (fun _ _ => rfl) _)

/-! ## What does not change -/

/-- The process is the same but for its parent. -/
structure Proc.Same (a b : Proc n) : Prop where
  state : b.state = a.state
  insys : b.insys = a.insys
  ofile : b.ofile = a.ofile
  cwd : b.cwd = a.cwd

theorem Inodes.congr (h : Inodes s T) (hfs : t.fs = s.fs) (hip : t.ipOf = s.ipOf)
    (hcwd : t.cwdOf = s.cwdOf) (hT : ∀ i, T'.count (.inode i) = T.count (.inode i)) :
    Inodes t T' := by
  refine ⟨fun i => ?_⟩
  rw [hfs, hip, hcwd, hT]
  exact h.count i

theorem Files.congr (h : Files s T) (hfile : t.file = s.file) (hof : t.fileOf = s.fileOf)
    (hT : ∀ f, T'.count (.file f) = T.count (.file f))
    (hfresh : ∀ f, T'.count (.fresh f) = T.count (.fresh f)) : Files t T' := by
  refine ⟨fun f => ?_, fun f => ?_, fun f => ?_⟩
  · rw [hfile, hof, hT, hfresh]
    exact h.count f
  · rw [hfile]
    exact h.free f
  · rw [hfile, hfresh]
    exact h.fresh f

theorem Ends.congr (h : Ends s T) (hpipe : t.pipe = s.pipe) (hend : t.endOf = s.endOf)
    (hT : ∀ a w, T'.count (.pend a w) = T.count (.pend a w)) : Ends t T' := by
  refine ⟨fun a w => ?_, fun a => ?_⟩
  · unfold St.isOpen
    rw [hpipe, hend, hT]
    exact h.count a w
  · rw [hpipe]
    exact h.shut a

/-! ## Slots -/

/-- The part of `Procs` that is about the process `q`. -/
structure Proc.Fits (pr : Proc n) (q : Fin n) (T : Multiset (Tok n)) : Prop where
  slots : ∀ b o c, .slots q b o c ∈ T → pr.Has b o c
  own : T.countP (fun x => x.isSlots q) = if pr.state = .used ∨ pr.insys = true then 1 else 0
  dead : pr.state = .unused ∨ pr.state = .zombie →
    pr.insys = false ∧ pr.ofile = (fun _ => none) ∧ pr.cwd = none
  live : pr.state = .live → pr.insys = false → pr.cwd ≠ none

theorem Procs.fits (h : Procs s T) (q : Fin n) : (s.proc q).Fits q T :=
  ⟨h.slots q, h.own q, h.dead q, h.live q⟩

theorem Procs.of_fits (h : ∀ q, (s.proc q).Fits q T) : Procs s T :=
  ⟨fun q => (h q).slots, fun q => (h q).own, fun q => (h q).dead, fun q => (h q).live⟩

theorem Proc.Same.refl (pr : Proc n) : pr.Same pr := ⟨rfl, rfl, rfl, rfl⟩

/-- It depends on the slots of that process only. -/
theorem Proc.Fits.congr {x y : Proc n} (h : x.Fits q T) (hsame : x.Same y)
    (hT : T'.filter (fun x => x.isSlots q) = T.filter fun x => x.isSlots q) : y.Fits q T' := by
  refine ⟨fun b o c hmem => ?_, ?_, ?_, ?_⟩
  · have hmem' : Tok.slots q b o c ∈ T'.filter fun x => x.isSlots q :=
      mem_filter.mpr ⟨hmem, by simp [Tok.isSlots]⟩
    rw [hT] at hmem'
    have hhas := h.slots b o c (mem_of_mem_filter hmem')
    exact ⟨hsame.ofile.trans hhas.ofile, hsame.cwd.trans hhas.cwd,
      hsame.state.trans hhas.state, hsame.insys.trans hhas.insys⟩
  · rw [countP_eq_card_filter, hT, ← countP_eq_card_filter, hsame.state,
      hsame.insys]
    exact h.own
  · rw [hsame.state, hsame.insys, hsame.ofile, hsame.cwd]
    exact h.dead
  · rw [hsame.state, hsame.insys, hsame.cwd]
    exact h.live

theorem Plain.filter (hA : Plain A) (q : Fin n) : A.filter (fun x => x.isSlots q) = 0 :=
  filter_eq_nil.mpr (countP_eq_zero.mp (hA q))

theorem filter_slots (hq : q ≠ p) :
    ({.slots p b o c} + r).filter (fun x => x.isSlots q) = r.filter fun x => x.isSlots q := by
  rw [filter_add, filter_singleton, if_neg (by simpa [Tok.isSlots] using hq.symm)]
  exact zero_add _

theorem countP_slots : ({.slots p b o c} + r).countP (fun x => x.isSlots p) =
    r.countP (fun x => x.isSlots p) + 1 := by
  rw [singleton_add, countP_cons_of_pos _ (by simp [Tok.isSlots])]

/-- The tokens are about other processes. -/
theorem not_mem_of_countP (h : r.countP (fun x => x.isSlots p) = 0) : .slots p b o c ∉ r :=
  fun hmem => countP_eq_zero.mp h _ hmem (by simp [Tok.isSlots])

/-- Who has the slots of a process knows them. -/
theorem Procs.has (h : Procs s ({.slots p b o c} + r)) : (s.proc p).Has b o c :=
  h.slots p b o c (mem_add.mpr (.inl (mem_singleton_self _)))

/-- And nobody else has them. -/
theorem Procs.alone (h : Procs s ({.slots p b o c} + r)) :
    r.countP (fun x => x.isSlots p) = 0 := by
  have hown := h.own p
  rw [countP_slots] at hown
  split at hown <;> omega

/-- A process whose slots are in hand is in a call or being made. -/
theorem Proc.Has.fits {pr : Proc n} (h : pr.Has b o c)
    (hr : r.countP (fun x => x.isSlots p) = 0) : pr.Fits p ({.slots p b o c} + r) := by
  refine ⟨fun b₁ o₁ c₁ hmem => ?_, ?_, ?_, ?_⟩
  · rcases mem_add.mp hmem with hmem | hmem
    · cases mem_singleton.mp hmem
      exact h
    · exact absurd hmem (not_mem_of_countP hr)
  · rw [countP_slots, hr, h.state, h.insys]
    cases b <;> simp
  · rw [h.state]
    cases b <;> simp
  · rw [h.state, h.insys]
    cases b <;> simp

/-- The rule for a step that is about the process `p`. -/
theorem Procs.step (h : Procs s T) (hother : ∀ q ≠ p, (s.proc q).Same (t.proc q))
    (hT : ∀ q ≠ p, T'.filter (fun x => x.isSlots q) = T.filter fun x => x.isSlots q)
    (hself : (t.proc p).Fits p T') : Procs t T' := by
  refine .of_fits fun q => ?_
  by_cases hq : q = p
  · rw [hq]
    exact hself
  · exact (h.fits q).congr (hother q hq) (hT q hq)

/-- Tokens without slots say nothing about the processes. -/
theorem Procs.plain (h : Procs s (A + r)) (hA : Plain A) (hB : Plain B) (hproc : t.proc = s.proc) :
    Procs t (B + r) := by
  refine .of_fits fun q => ?_
  rw [hproc]
  refine (h.fits q).congr (.refl _) ?_
  rw [filter_add, filter_add, hA.filter, hB.filter]

theorem Procs.same (h : Procs s T) (hsame : ∀ q, (s.proc q).Same (t.proc q)) : Procs t T :=
  .of_fits fun q => (h.fits q).congr (hsame q) rfl

/-- The slots of a process are set by who has them. -/
theorem Procs.set (h : Procs s ({.slots p b o c} + A + r)) (hA : Plain A) (hB : Plain B)
    (hself : t.proc p = { s.proc p with ofile := o', cwd := c' })
    (hother : ∀ q ≠ p, t.proc q = s.proc q) : Procs t ({.slots p b o' c'} + B + r) := by
  rw [add_assoc] at h ⊢
  have halone := h.alone
  rw [countP_add, hA, Nat.zero_add] at halone
  refine h.step (fun q hq => by rw [hother q hq]; exact .refl _) (fun q hq => ?_) ?_
  · rw [filter_slots hq, filter_slots hq, filter_add, filter_add, hA.filter,
      hB.filter]
  · rw [hself]
    refine Proc.Has.fits ⟨rfl, rfl, h.has.state, h.has.insys⟩ ?_
    rw [countP_add, hB, halone]

/-- The slots of a process are handed out. -/
theorem Procs.gain (h : Procs s r) (hidle : ¬ ((s.proc p).state = .used ∨ (s.proc p).insys = true))
    (hself : (t.proc p).Has b (s.proc p).ofile (s.proc p).cwd)
    (hother : ∀ q ≠ p, (s.proc q).Same (t.proc q)) :
    Procs t ({.slots p b (s.proc p).ofile (s.proc p).cwd} + r) :=
  h.step hother (fun _ hq => filter_slots hq) (hself.fits ((h.own p).trans (if_neg hidle)))

/-- The slots of a process are given back: it lives on, or it has nothing in them. -/
theorem Procs.lose (h : Procs s ({.slots p b o c} + r)) (hin : (t.proc p).insys = false)
    (hend : (t.proc p).state = .live ∧ c ≠ none ∨
      ((t.proc p).state = .unused ∨ (t.proc p).state = .zombie) ∧ o = (fun _ => none) ∧ c = none)
    (hofile : (t.proc p).ofile = (s.proc p).ofile) (hcwd : (t.proc p).cwd = (s.proc p).cwd)
    (hother : ∀ q ≠ p, (s.proc q).Same (t.proc q)) : Procs t r := by
  refine h.step hother (fun q hq => (filter_slots hq).symm) ⟨?_, ?_, ?_, ?_⟩
  · exact fun b₁ o₁ c₁ hmem => absurd hmem (not_mem_of_countP h.alone)
  · rw [h.alone, hin]
    rcases hend with ⟨hs, -⟩ | ⟨hs | hs, -⟩ <;> rw [hs] <;> simp
  · rw [hofile, hcwd, h.has.ofile, h.has.cwd]
    rcases hend with ⟨hs, -⟩ | ⟨-, ho, hc⟩
    · rw [hs]
      nofun
    · exact fun _ => ⟨hin, ho, hc⟩
  · rw [hcwd, h.has.cwd]
    rcases hend with ⟨-, hc⟩ | ⟨hs | hs, -⟩
    · exact fun _ _ => hc
    · rw [hs]
      nofun
    · rw [hs]
      nofun

/-- A zombie is buried. -/
theorem Procs.bury (h : Procs s r) (hp : (s.proc p).state = .zombie)
    (hself : t.proc p = { s.proc p with state := .unused, parent := none })
    (hother : ∀ q ≠ p, t.proc q = s.proc q) : Procs t r := by
  have hdead := h.dead p (.inr hp)
  have hnone : r.countP (fun x => x.isSlots p) = 0 := by
    rw [h.own p, hp, hdead.1]
    rfl
  refine h.step (fun q hq => by rw [hother q hq]; exact .refl _) (fun _ _ => rfl) ?_
  rw [hself]
  refine ⟨fun b o c hmem => absurd hmem (not_mem_of_countP hnone), ?_, fun _ => hdead, nofun⟩
  rw [hnone, if_neg]
  show ¬ (PState.unused = .used ∨ (s.proc p).insys = true)
  rw [hdead.1]
  nofun

/-! ## Slots and what they hold -/

theorem fileOf_set {g : Fin n → Proc n} {fd : Fin NOFILE} {x : Option (Fin NFILE)}
    (hself : (g p).ofile = update (s.proc p).ofile fd x)
    (hother : ∀ q ≠ p, (g q).ofile = (s.proc q).ofile) :
    { s with proc := g }.fileOf = update s.fileOf (p, fd) x := by
  funext ⟨q, fd'⟩
  show (g q).ofile fd' = _
  by_cases hq : q = p
  · rw [hq, hself]
    by_cases hfd : fd' = fd
    · rw [hfd, update_self, update_self]
    · rw [update_of_ne hfd, update_of_ne (by simp [hfd])]
      rfl
  · rw [hother q hq, update_of_ne (by simp [hq])]
    rfl

/-- A descriptor is set, and what it was set to before comes into hand. -/
theorem Inv.set_ofile (fd : Fin NOFILE) {x : Option (Fin NFILE)}
    (h : Inv s ({.slots p b o c} + fileTok x + r)) :
    Inv { s with
      proc := update s.proc p { s.proc p with ofile := update (s.proc p).ofile fd x } }
      ({.slots p b (update o fd x) c} + fileTok (o fd) + r) := by
  have hhas := h.procs.slots p b o c (by simp)
  refine ⟨h.inodes.congr rfl rfl ?_ fun i => by simp, ⟨fun f => ?_, h.files.free, fun f hf => ?_⟩,
    h.ends.congr rfl rfl fun a w => by simp, ?_⟩
  · exact funext (update_field Proc.cwd rfl)
  · have hcount := h.files.count f
    have huses := uses_update s.fileOf (p, fd) x f
    rw [show s.fileOf (p, fd) = o fd from congrFun hhas.ofile fd] at huses
    rw [fileOf_set (by rw [update_self]) fun q hq => by rw [update_of_ne hq]]
    simp only [count_add, count_held_file, count_singleton, reduceCtorEq,
      if_false] at hcount ⊢
    simp only [ne_eq, reduceCtorEq, not_false_eq_true, implies_true, count_held_of_ne] at hcount ⊢
    omega
  · refine h.files.fresh f ?_
    simpa using hf
  · refine h.procs.set (Plain.held (fun _ _ => rfl) _) (Plain.held (fun _ _ => rfl) _) ?_
      fun q hq => update_of_ne hq ..
    rw [← hhas.ofile, ← hhas.cwd]
    exact update_self ..

/-- The current directory is set, and what it was before comes into hand. -/
theorem Inv.set_cwd {x : Option Nat} (h : Inv s ({.slots p b o c} + inodeTok x + r)) :
    Inv { s with proc := update s.proc p { s.proc p with cwd := x } }
      ({.slots p b o x} + inodeTok c + r) := by
  have hhas := h.procs.slots p b o c (by simp)
  refine ⟨⟨fun i => ?_⟩, h.files.congr rfl ?_ (fun f => by simp) fun f => by simp,
    h.ends.congr rfl rfl fun a w => by simp, ?_⟩
  · have hcount := h.inodes.count i
    have htab : { s with proc := update s.proc p { s.proc p with cwd := x } }.cwdOf =
        update s.cwdOf p x := funext fun q => apply_update (fun _ => Proc.cwd) s.proc p _ q
    have huses := uses_update s.cwdOf p x i
    rw [show s.cwdOf p = c from hhas.cwd] at huses
    rw [htab]
    simp only [count_add, count_held_inode, count_singleton, reduceCtorEq,
      if_false] at hcount ⊢
    show (s.fs.inode i).ref = uses s.ipOf i + _ + _
    omega
  · exact funext fun y => congrFun (update_field Proc.ofile (by rfl) y.1) y.2
  · refine h.procs.set (Plain.held (fun _ _ => rfl) _) (Plain.held (fun _ _ => rfl) _) ?_
      fun q hq => update_of_ne hq ..
    rw [← hhas.ofile]
    exact update_self ..

section
variable {g : Fin n → Proc n}

/-- Only slots are handed out or given back. -/
theorem Inv.reproc (h : Inv s T)
    (hsame : ∀ q, (g q).ofile = (s.proc q).ofile ∧ (g q).cwd = (s.proc q).cwd)
    (hT : ∀ x : Tok n, (∀ q, x.isSlots q = false) → T'.count x = T.count x)
    (hprocs : Procs { s with proc := g } T') : Inv { s with proc := g } T' :=
  ⟨h.inodes.congr rfl rfl (funext fun q => (hsame q).2) fun _ => hT _ fun _ => rfl,
    h.files.congr rfl (funext fun x => congrFun (hsame x.1).1 x.2) (fun _ => hT _ fun _ => rfl)
      fun _ => hT _ fun _ => rfl,
    h.ends.congr rfl rfl fun _ _ => hT _ fun _ => rfl, hprocs⟩

theorem count_add_slots (hx : ∀ q, x.isSlots q = false) :
    ({.slots p b o c} + r : Multiset (Tok n)).count x = r.count x := by
  rw [count_add, count_singleton, if_neg, Nat.zero_add]
  rintro rfl
  have := hx p
  simp [Tok.isSlots] at this

/-- The slots of a process come into hand with its system call, or as those of a new child. -/
theorem Inv.gain (h : Inv s r) (hidle : ¬ ((s.proc p).state = .used ∨ (s.proc p).insys = true))
    (hself : (g p).Has b (s.proc p).ofile (s.proc p).cwd)
    (hother : ∀ q ≠ p, (s.proc q).Same (g q)) :
    Inv { s with proc := g } ({.slots p b (s.proc p).ofile (s.proc p).cwd} + r) := by
  refine h.reproc (fun q => ?_) (fun x => count_add_slots) (h.procs.gain hidle hself hother)
  by_cases hq : q = p
  · rw [hq]
    exact ⟨hself.ofile, hself.cwd⟩
  · exact ⟨(hother q hq).ofile, (hother q hq).cwd⟩

/-- They are given back. -/
theorem Inv.lose (h : Inv s ({.slots p b o c} + r)) (hin : (g p).insys = false)
    (hend : (g p).state = .live ∧ c ≠ none ∨
      ((g p).state = .unused ∨ (g p).state = .zombie) ∧ o = (fun _ => none) ∧ c = none)
    (hofile : (g p).ofile = (s.proc p).ofile) (hcwd : (g p).cwd = (s.proc p).cwd)
    (hother : ∀ q ≠ p, (s.proc q).Same (g q)) : Inv { s with proc := g } r := by
  refine h.reproc (fun q => ?_) (fun x hx => (count_add_slots hx).symm)
    (h.procs.lose hin hend hofile hcwd hother)
  by_cases hq : q = p
  · rw [hq]
    exact ⟨hofile, hcwd⟩
  · exact ⟨(hother q hq).ofile, (hother q hq).cwd⟩

end

/-! ## References to inodes -/

/-- References to inodes in hand. -/
def inos (I : Multiset Nat) : Multiset (Tok n) := I.map .inode

theorem inos_zero : (inos 0 : Multiset (Tok n)) = 0 := rfl

@[simp] theorem count_inos (I : Multiset Nat) (i : Nat) :
    (inos I : Multiset (Tok n)).count (.inode i) = I.count i :=
  count_map_eq_count' _ _ (fun _ _ h => Tok.inode.inj h) i

@[simp] theorem count_inos_of_ne (hx : ∀ i, .inode i ≠ x) (I : Multiset Nat) :
    (inos I).count x = 0 := by
  rw [count_eq_zero]
  intro hmem
  rcases mem_map.mp hmem with ⟨i, -, hi⟩
  exact hx i hi

theorem Plain.inos (I : Multiset Nat) : Plain (inos I : Multiset (Tok n)) := by
  intro q
  rw [countP_eq_zero]
  intro x hx
  rcases mem_map.mp hx with ⟨i, -, rfl⟩
  nofun

/-- The file system moves references. -/
theorem Inv.move {I O : Multiset Nat} {m : Fs.St} (h : Inv s (inos I + r))
    (hmove : ∀ i, (m.inode i).ref + I.count i = (s.fs.inode i).ref + O.count i) :
    Inv { s with fs := m } (inos O + r) := by
  refine ⟨⟨fun i => ?_⟩, h.files.congr rfl rfl (fun f => by simp) fun f => by simp,
    h.ends.congr rfl rfl fun a w => by simp, h.procs.plain (Plain.inos I) (Plain.inos O) rfl⟩
  have hcount := h.inodes.count i
  have hmove := hmove i
  show (m.inode i).ref = uses s.ipOf i + uses s.cwdOf i + _
  rw [count_add, count_inos] at hcount ⊢
  omega

/-- What is in hand is counted. -/
theorem Inv.inodes_le {I : Multiset Nat} (h : Inv s (inos I + r)) (i : Nat) :
    I.count i ≤ (s.fs.inode i).ref := by
  have hcount := h.inodes.count i
  rw [count_add, count_inos] at hcount
  omega

/-! ## Open files -/

/-- One open file is set; what it refers to, before and after, is in hand after and before. -/
theorem Inv.set_file {f : Fin NFILE} {x : File} (h : Inv s (A + r)) (hA : Plain A) (hB : Plain B)
    (hinode : ∀ i, B.count (.inode i) + (if x.type.ip = some i then 1 else 0) =
      A.count (.inode i) + if (s.file f).type.ip = some i then 1 else 0)
    (hpend : ∀ a w, B.count (.pend a w) + (if x.type.pend = some (a, w) then 1 else 0) =
      A.count (.pend a w) + if (s.file f).type.pend = some (a, w) then 1 else 0)
    (hother : ∀ g ≠ f, B.count (.file g) = A.count (.file g) ∧
      B.count (.fresh g) = A.count (.fresh g))
    (hself : B.count (.file f) + B.count (.fresh f) + (s.file f).ref =
      A.count (.file f) + A.count (.fresh f) + x.ref) (hfree : x.ref = 0 → x.type = .none)
    (hfresh : 0 < B.count (.fresh f) + r.count (.fresh f) → x.ref = 1 ∧ x.type = .none) :
    Inv { s with file := update s.file f x } (B + r) := by
  have hoff : ∀ g ≠ f, update s.file f x g = s.file g := fun g hg => update_of_ne hg ..
  refine ⟨⟨fun i => ?_⟩, ⟨fun g => ?_, fun g => ?_, fun g hg => ?_⟩, ⟨fun a w => ?_, h.ends.shut⟩,
    h.procs.plain hA hB rfl⟩
  · have hcount := h.inodes.count i
    have hinode := hinode i
    have htab : { s with file := update s.file f x }.ipOf = update s.ipOf f x.type.ip :=
      funext fun g => apply_update (fun _ y => y.type.ip) s.file f x g
    have huses := uses_update s.ipOf f x.type.ip i
    rw [show s.ipOf f = (s.file f).type.ip from rfl] at huses
    rw [htab]
    show (s.fs.inode i).ref = _ + uses s.cwdOf i + _
    rw [count_add] at hcount ⊢
    omega
  · have hcount := h.files.count g
    show (update s.file f x g).ref = uses s.fileOf g + _ + _
    rw [count_add, count_add] at hcount ⊢
    by_cases hg : g = f
    · rw [hg] at hcount ⊢
      rw [update_self]
      omega
    · rw [hoff g hg, (hother g hg).1, (hother g hg).2]
      exact hcount
  · show (update s.file f x g).ref = 0 → (update s.file f x g).type = .none
    by_cases hg : g = f
    · rw [hg, update_self]
      exact hfree
    · rw [hoff g hg]
      exact h.files.free g
  · show (update s.file f x g).ref = 1 ∧ (update s.file f x g).type = .none
    rw [count_add] at hg
    by_cases hgf : g = f
    · rw [hgf] at hg ⊢
      rw [update_self]
      exact hfresh hg
    · rw [(hother g hgf).2, ← count_add] at hg
      rw [hoff g hgf]
      exact h.files.fresh g hg
  · have hcount := h.ends.count a w
    have hpend := hpend a w
    have htab : { s with file := update s.file f x }.endOf = update s.endOf f x.type.pend :=
      funext fun g => apply_update (fun _ y => y.type.pend) s.file f x g
    have huses := uses_update s.endOf f x.type.pend (a, w)
    rw [show s.endOf f = (s.file f).type.pend from rfl] at huses
    rw [htab]
    show s.isOpen a w = _
    rw [count_add] at hcount ⊢
    omega

/-- A pipe is set. -/
theorem Inv.set_pipe {a : Nat} {x : Option Pipe} (h : Inv s (A + r)) (hA : Plain A) (hB : Plain B)
    (hself : ∀ w, openEnd x w + A.count (.pend a w) = s.isOpen a w + B.count (.pend a w))
    (hshut : x ≠ some ⟨false, false⟩)
    (hother : ∀ y : Tok n, (∀ w, y ≠ .pend a w) → B.count y = A.count y) :
    Inv { s with pipe := update s.pipe a x } (B + r) := by
  have hcount : ∀ y : Tok n, (∀ w, y ≠ .pend a w) → (B + r).count y = (A + r).count y := by
    intro y hy
    rw [count_add, count_add, hother y hy]
  refine ⟨h.inodes.congr rfl rfl rfl fun i => hcount _ nofun,
    h.files.congr rfl rfl (fun f => hcount _ nofun) fun f => hcount _ nofun,
    ⟨fun a' w => ?_, fun a' => ?_⟩, h.procs.plain hA hB rfl⟩
  · have hends := h.ends.count a' w
    show openEnd (update s.pipe a x a') w = uses s.endOf (a', w) + _
    by_cases haa : a' = a
    · rw [haa] at hends ⊢
      have hself := hself w
      rw [update_self]
      rw [count_add] at hends ⊢
      omega
    · rw [update_of_ne haa, hcount _ (fun w' heq => haa (Tok.pend.inj heq).1)]
      exact hends
  · show update s.pipe a x a' ≠ _
    by_cases haa : a' = a
    · rw [haa, update_self]
      exact hshut
    · rw [update_of_ne haa]
      exact h.ends.shut a'

end

end Xv6.Sysfile
