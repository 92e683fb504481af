import Mathlib.Data.Fintype.BigOperators
import Xv6.Lib.System
import Xv6.Lib.Wp

/-!
# Xv6.Lib.Threads — interleaved programs and what they own

A `Prog` is a sequence of atomic actions on a shared state, each of which may depend on the
result of those before it and on a choice from outside. A `Pool` runs one program per thread
and interleaves their actions in any order; an action that fails is not taken, so its thread
waits until it can be.

Programs are verified one at a time. While it runs, a thread owns an element of a commutative
monoid `H`, and an invariant relates the shared state to the sum of what all threads own.
`Prog.wp` says that every action of a program keeps the invariant whatever the others own, or
fails as `E` admits; the rules are those of a small separation logic (`wp_bind`, `wp_use`).
`Pool.reachable_owned` puts the threads together. Nothing here names a particular program.
-/

namespace Lib

open Function

/-- A result, or an atomic action and the program that its result leads to. -/
inductive Prog (σ ω ε α : Type) : Type 1 where
  | ret (a : α)
  | act {β : Type} (m : ω → StateT σ (Except ε) β) (k : β → Prog σ ω ε α)

namespace Prog

variable {σ ω ε α β : Type}

def bind : Prog σ ω ε α → (α → Prog σ ω ε β) → Prog σ ω ε β
  | ret a, f => f a
  | act m k, f => act m fun b => (k b).bind f

instance : Monad (Prog σ ω ε) where
  pure := ret
  bind := bind

/-- One action that needs no choice. -/
def atomic (m : StateT σ (Except ε) α) : Prog σ ω ε α := act (fun _ => m) ret

/-- One action under a choice. -/
def choose (m : ω → StateT σ (Except ε) α) : Prog σ ω ε α := act m ret

/-- The program without interleaving, under the same choice throughout. -/
def solo (w : ω) : Prog σ ω ε α → StateT σ (Except ε) α
  | ret a => pure a
  | act m k => m w >>= fun b => (k b).solo w

@[simp] theorem solo_atomic (w : ω) (m : StateT σ (Except ε) α) :
    (atomic m : Prog σ ω ε α).solo w = m :=
  bind_pure m

@[simp] theorem solo_bind (w : ω) (c : Prog σ ω ε α) (f : α → Prog σ ω ε β) :
    (c >>= f).solo w = c.solo w >>= fun a => (f a).solo w := by
  show (c.bind f).solo w = _
  induction c with
  | ret a =>
    rw [solo, pure_bind]
    rfl
  | act m k ih =>
    simp only [bind, solo, bind_assoc]
    congr 1
    funext b
    exact ih b

/-! ## Ownership -/

variable {H : Type} [AddCommMonoid H] (E : ε → Prop) (Inv : σ → H → Prop)

/-- Started with `h`, the program keeps `Inv` next to whatever the others own, and ends with a
result and an ownership in `Q`. -/
def wp : Prog σ ω ε α → H → (α → H → Prop) → Prop
  | ret a, h, Q => Q a h
  | act m k, h, Q => ∀ w s r, Inv s (h + r) →
      Lib.wp E (m w) (fun b t => ∃ h', Inv t (h' + r) ∧ (k b).wp h' Q) s

variable {E} {Inv} {h : H} {Q R : α → H → Prop}

@[simp] theorem wp_pure (a : α) : (pure a : Prog σ ω ε α).wp E Inv h Q ↔ Q a h := Iff.rfl

theorem wp_choose {m : ω → StateT σ (Except ε) α} :
    (choose m).wp E Inv h Q ↔ ∀ w s r, Inv s (h + r) →
      Lib.wp E (m w) (fun a t => ∃ h', Inv t (h' + r) ∧ Q a h') s := Iff.rfl

theorem wp_atomic {m : StateT σ (Except ε) α} [Nonempty ω] :
    (atomic m : Prog σ ω ε α).wp E Inv h Q ↔ ∀ s r, Inv s (h + r) →
      Lib.wp E m (fun a t => ∃ h', Inv t (h' + r) ∧ Q a h') s :=
  ⟨fun hm => hm (Classical.arbitrary ω), fun hm _ => hm⟩

variable {c : Prog σ ω ε α}

theorem wp_mono (hc : c.wp E Inv h Q) (hQR : ∀ a h', Q a h' → R a h') :
    c.wp E Inv h R := by
  induction c generalizing h with
  | ret a => exact hQR a h hc
  | act m k ih =>
    intro w s r hs
    refine Lib.wp_mono (hc w s r hs) ?_
    rintro b t ⟨h', hinv, hk⟩
    exact ⟨h', hinv, ih b hk⟩

theorem wp_bind {f : α → Prog σ ω ε β} {Q : β → H → Prop} :
    (c >>= f).wp E Inv h Q ↔ c.wp E Inv h fun a h' => (f a).wp E Inv h' Q := by
  show (c.bind f).wp E Inv h Q ↔ _
  induction c generalizing h with
  | ret a => exact Iff.rfl
  | act m k ih => simp only [bind, wp, ih]

/-- A call to a specified program, and what is done with its result. -/
theorem wp_call {f : α → Prog σ ω ε β} {R : β → H → Prop} (hc : c.wp E Inv h Q)
    (hf : ∀ a h', Q a h' → (f a).wp E Inv h' R) : (c >>= f).wp E Inv h R :=
  wp_bind.mpr (wp_mono hc hf)

/-- A loop over a list: an invariant that speaks about the elements still to come. -/
theorem wp_forM {γ : Type} {f : γ → Prog σ ω ε PUnit} (I : List γ → H → Prop)
    (hstep : ∀ x xs h, I (x :: xs) h → (f x).wp E Inv h fun _ h' => I xs h') :
    ∀ xs h, I xs h → (forM xs f).wp E Inv h fun _ h' => I [] h' := by
  intro xs
  induction xs with
  | nil => exact fun h hI => hI
  | cons x xs ih =>
    intro h hI
    rw [List.forM_cons, wp_bind]
    exact wp_mono (hstep x xs h hI) fun _ h' hI' => ih h' hI'

/-- What a program does not own it does not touch. -/
theorem wp_frame (hc : c.wp E Inv h Q) (r : H) :
    c.wp E Inv (h + r) fun a h' => ∃ h₁, h' = h₁ + r ∧ Q a h₁ := by
  induction c generalizing h with
  | ret a => exact ⟨h, rfl, hc⟩
  | act m k ih =>
    intro w s r' hs
    rw [add_assoc] at hs
    refine Lib.wp_mono (hc w s (r + r') hs) ?_
    rintro b t ⟨h', hinv, hk⟩
    exact ⟨h' + r, by rwa [add_assoc], ih b hk⟩

/-- A call, in a context that owns more than the callee needs. -/
theorem wp_use {h₁ : H} (hc : c.wp E Inv h₁ Q) (r : H) (hsplit : h = h₁ + r)
    (hQR : ∀ a h', Q a h' → R a (h' + r)) : c.wp E Inv h R := by
  subst hsplit
  refine wp_mono (wp_frame hc r) ?_
  rintro a h' ⟨h₂, rfl, hq⟩
  exact hQR a h₂ hq

/-- The same at the head of a sequence. -/
theorem wp_step {k : α → Prog σ ω ε β} {h₁ : H} {R : β → H → Prop} (hc : c.wp E Inv h₁ Q) (r : H)
    (hsplit : h = h₁ + r) (hk : ∀ a h', Q a h' → (k a).wp E Inv (h' + r) R) :
    (c >>= k).wp E Inv h R :=
  wp_bind.mpr (wp_use hc r hsplit hk)

end Prog

/-! ## Pools -/

/-- The shared state, and the program of every thread that runs one. -/
structure Pool (σ ω ε P : Type) : Type 1 where
  st : σ
  pc : P → Option (Prog σ ω ε Unit)

/-- Thread `p` starts the program `c`, or takes its next action under the choice `w`. -/
inductive PoolLbl (ω P C : Type) where
  | call (p : P) (c : C)
  | run (p : P) (w : ω)

namespace Pool

variable {σ ω ε P C : Type} [DecidableEq P]

def run (s : Pool σ ω ε P) (p : P) (w : ω) : Prog σ ω ε Unit → Option (Pool σ ω ε P)
  | .ret _ => some { s with pc := update s.pc p none }
  | .act m k =>
    match m w s.st with
    | .ok (b, t) => some ⟨t, update s.pc p (some (k b))⟩
    | .error _ => none

/-- Why thread `p` cannot take its next action under the choice `w`. -/
def error (s : Pool σ ω ε P) (p : P) (w : ω) : Option ε :=
  match s.pc p with
  | some (.act m _) =>
    match m w s.st with
    | .ok _ => none
    | .error e => some e
  | _ => none

def step (prog : P → C → Prog σ ω ε Unit) (s : Pool σ ω ε P) :
    PoolLbl ω P C → Option (Pool σ ω ε P)
  | .call p c =>
    match s.pc p with
    | none => some { s with pc := update s.pc p (some (prog p c)) }
    | some _ => none
  | .run p w =>
    match s.pc p with
    | none => none
    | some c => s.run p w c

/-- Threads that are all idle in the beginning. -/
def sys (Init : σ → Prop) (prog : P → C → Prog σ ω ε Unit) :
    System (Pool σ ω ε P) (PoolLbl ω P C) :=
  ⟨fun s => Init s.st ∧ ∀ p, s.pc p = none, step prog⟩

variable [Fintype P] {H : Type} [AddCommMonoid H]

/-- What a thread owns is what its program needs; in the end that is nothing. -/
def Suits (E : ε → Prop) (Inv : σ → H → Prop) : Option (Prog σ ω ε Unit) → H → Prop
  | none, h => h = 0
  | some c, h => c.wp E Inv h fun _ h => h = 0

/-- Every thread owns what its program needs, and the invariant is about the sum. -/
def Owned (E : ε → Prop) (Inv : σ → H → Prop) (s : Pool σ ω ε P) (own : P → H) : Prop :=
  Inv s.st (∑ p, own p) ∧ ∀ p, Suits E Inv (s.pc p) (own p)

variable {E : ε → Prop} {Inv : σ → H → Prop} {s t : Pool σ ω ε P} {own : P → H} {p : P}

/-- Thread `p` moves to `c` and then owns `h`. -/
theorem Owned.move {c : Option (Prog σ ω ε Unit)} {h : H} (ho : Owned E Inv s own)
    (hinv : Inv t.st (h + ∑ q ∈ Finset.univ.erase p, own q))
    (hpc : t.pc = update s.pc p c) (hc : Suits E Inv c h) :
    Owned E Inv t (update own p h) := by
  refine ⟨?_, fun q => ?_⟩
  · rwa [Finset.sum_update_of_mem (Finset.mem_univ p), Finset.sdiff_singleton_eq_erase]
  rw [hpc]
  by_cases hq : q = p
  · rw [hq, update_self, update_self]
    exact hc
  · rw [update_of_ne hq, update_of_ne hq]
    exact ho.2 q

theorem Owned.run {w : ω} {c : Prog σ ω ε Unit} (ho : Owned E Inv s own) (hp : s.pc p = some c)
    (hs : s.run p w c = some t) : ∃ own', Owned E Inv t own' := by
  have hc := ho.2 p
  rw [hp] at hc
  have hinv := ho.1
  rw [← Finset.add_sum_erase _ _ (Finset.mem_univ p)] at hinv
  cases c with
  | ret a =>
    cases hs
    exact ⟨_, ho.move (h := own p) hinv rfl hc⟩
  | act m k =>
    have hm := hc w s.st _ hinv
    simp only [Pool.run] at hs
    split at hs
    case h_1 b st heq =>
      cases hs
      rcases (wp_of_eq heq).mp hm with ⟨h', hinv', hk⟩
      exact ⟨_, ho.move hinv' rfl hk⟩
    case h_2 => cases hs

variable {Init : σ → Prop} {prog : P → C → Prog σ ω ε Unit}

variable (hinit : ∀ s, Init s → Inv s 0) (hprog : ∀ p c, (prog p c).wp E Inv 0 fun _ h => h = 0)
  (hs : (sys Init prog).Reachable s)
include hinit hprog hs

theorem reachable_owned : ∃ own, Owned E Inv s own := by
  refine hs.invariant (fun s => ∃ own, Owned E Inv s own) ?_ ?_
  · rintro s ⟨hst, hpc⟩
    refine ⟨fun _ => 0, ?_, fun p => ?_⟩
    · rw [Finset.sum_const_zero]
      exact hinit s.st hst
    · rw [hpc p]
      exact rfl
  · rintro s l t ⟨own, ho⟩ hstep
    cases l with
    | call p c =>
      simp only [sys, step] at hstep
      split at hstep
      case h_1 hp =>
        cases hstep
        have hzero := ho.2 p
        rw [hp] at hzero
        have hinv := ho.1
        rw [← Finset.add_sum_erase _ _ (Finset.mem_univ p), hzero] at hinv
        exact ⟨_, ho.move (h := 0) hinv rfl (hprog p c)⟩
      case h_2 => cases hstep
    | run p w =>
      simp only [sys, step] at hstep
      split at hstep
      case h_1 => cases hstep
      case h_2 c hp => exact ho.run hp hstep

/-- An action that a thread cannot take fails in an admitted way. -/
theorem reachable_error {w : ω} {e : ε} (he : s.error p w = some e) :
    E e := by
  rcases reachable_owned hinit hprog hs with ⟨own, hinv, hown⟩
  rw [← Finset.add_sum_erase _ _ (Finset.mem_univ p)] at hinv
  have hp := hown p
  unfold error at he
  split at he
  case h_1 m k hpc =>
    rw [hpc] at hp
    split at he
    case h_1 => cases he
    case h_2 e' heq =>
      cases he
      exact (wp_of_error heq).mp (hp w s.st _ hinv)
  case h_2 => cases he

/-- When no program is running nothing is owned. -/
theorem reachable_idle (hidle : ∀ p, s.pc p = none) :
    Inv s.st 0 := by
  rcases reachable_owned hinit hprog hs with ⟨own, hinv, hown⟩
  rw [Finset.sum_eq_zero fun p _ => ?_] at hinv
  · exact hinv
  · have hp := hown p
    rwa [hidle p] at hp

end Pool

end Lib
