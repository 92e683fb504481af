import Mathlib.Data.List.Basic
import Mathlib.Tactic.Common

/-!
# Xv6.Lib.System — labelled systems and their runs

A `System` is a set of initial states and an executable labelled step: `step s l`
is the state after the atomic action `l`, or `none` when `l` is not enabled in `s`.
Nothing here names a particular program.

Two notions of "every run" are used by the models:

* `ReachableBy Ok` — states reached by steps that all satisfy `Ok s l`
  (`Reachable` is the unrestricted case). Safety is one rule, `invariant`.
* `exec` together with `visits` — a run given by its list of labels, with the
  list of states it goes through. `visits_iff` turns a guarded invariant and
  its converse (one bad step breaks the property) into an exact
  characterisation of the good runs.
-/

namespace Lib

open List

universe u v

/-! The numerals of small index types, in which runs are written, are the same terms in all
modules. -/

scoped instance neZeroTwo : @NeZero Nat Zero.ofOfNat0 2 := ⟨Nat.succ_ne_zero 1⟩

scoped instance neZeroThree : @NeZero Nat Zero.ofOfNat0 3 := ⟨Nat.succ_ne_zero 2⟩

/-- A guarded action that was taken: the guard held, and this is the state after it. -/
theorem of_ite_eq_some {σ : Type u} {c : Prop} [Decidable c] {s t : σ}
    (h : (if c then some s else none) = some t) : c ∧ s = t := by
  rw [Option.ite_none_right_eq_some] at h
  exact ⟨h.1, Option.some.inj h.2⟩

/-- A labelled transition system with executable steps. -/
structure System (σ : Type u) (α : Type v) where
  Init : σ → Prop
  step : σ → α → Option σ

namespace System

variable {σ : Type u} {α : Type v} (S : System σ α)

/-- States reached from an initial state by steps that all satisfy `Ok`. -/
inductive ReachableBy (Ok : σ → α → Prop) : σ → Prop where
  | init {s} : S.Init s → ReachableBy Ok s
  | step {s s'} (l : α) : ReachableBy Ok s → Ok s l → S.step s l = some s' → ReachableBy Ok s'

/-- States reached by any steps at all. -/
def Reachable (s : σ) : Prop := S.ReachableBy (fun _ _ => True) s

/-- The same steps, started in `s`. -/
def restart (s : σ) : System σ α := ⟨fun t => t = s, S.step⟩

variable {S}

theorem Reachable.init {s : σ} (h : S.Init s) : S.Reachable s := ReachableBy.init h

theorem Reachable.step {s s' : σ} (l : α) (h : S.Reachable s) (hs : S.step s l = some s') :
    S.Reachable s' :=
  ReachableBy.step l h trivial hs

variable {Ok : σ → α → Prop}

/-- A restricted run is a run. -/
theorem ReachableBy.reachable {s : σ} (h : S.ReachableBy Ok s) :
    S.Reachable s := by
  induction h with
  | init h => exact Reachable.init h
  | step l _ _ hs ih => exact ih.step l hs

/-- Inductive invariance along steps that satisfy `Ok`. -/
theorem ReachableBy.invariant (Inv : σ → Prop) (hinit : ∀ s, S.Init s → Inv s)
    (hstep : ∀ s l s', Inv s → Ok s l → S.step s l = some s' → Inv s') {s : σ}
    (h : S.ReachableBy Ok s) : Inv s := by
  induction h with
  | init h => exact hinit _ h
  | step l _ hok hs ih => exact hstep _ l _ ih hok hs

/-- Inductive invariance along every run. -/
theorem Reachable.invariant (Inv : σ → Prop) (hinit : ∀ s, S.Init s → Inv s)
    (hstep : ∀ s l s', Inv s → S.step s l = some s' → Inv s') {s : σ} (h : S.Reachable s) :
    Inv s :=
  ReachableBy.invariant Inv hinit (fun s l s' hi _ hs => hstep s l s' hi hs) h

/-! ## Runs given by their labels -/

variable (S)

/-- The state after a list of labels, if every one of them is enabled in turn. -/
def exec (s : σ) : List α → Option σ
  | [] => some s
  | l :: ls => (S.step s l).bind fun s' => exec s' ls

/-- The states a run goes through, its first one included. -/
def visits (s : σ) : List α → List σ
  | [] => [s]
  | l :: ls =>
    s :: match S.step s l with
      | none => []
      | some s' => visits s' ls

/-- The steps a run takes: the state before each step with its label. -/
def moves (s : σ) : List α → List (σ × α)
  | [] => []
  | l :: ls =>
    match S.step s l with
    | none => []
    | some s' => (s, l) :: moves s' ls

variable {S} {ls : List α}

theorem exec_cons {s t : σ} {l : α} (h : S.exec s (l :: ls) = some t) :
    ∃ s', S.step s l = some s' ∧ S.exec s' ls = some t := by
  simpa [exec, Option.bind_eq_some_iff] using h

theorem mem_of_mem_moves {m : σ × α} : ∀ {s : σ}, m ∈ S.moves s ls → m.2 ∈ ls := by
  induction ls with
  | nil => exact fun h => absurd h not_mem_nil
  | cons l ls ih =>
    intro s h
    rw [moves] at h
    cases hst : S.step s l with
    | none => simp [hst] at h
    | some s' =>
      simp only [hst, mem_cons] at h
      rcases h with rfl | h
      · exact mem_cons_self
      · exact mem_cons_of_mem l (ih h)

/-- The end of a run whose steps satisfy `Ok`, from a state reached by such steps. -/
theorem ReachableBy.exec : ∀ {s t : σ}, S.ReachableBy Ok s → (∀ m ∈ S.moves s ls, Ok m.1 m.2)
    → S.exec s ls = some t → S.ReachableBy Ok t := by
  induction ls with
  | nil =>
    intro s t hs _ h
    simp only [System.exec, Option.some.injEq] at h
    exact h ▸ hs
  | cons l ls ih =>
    intro s t hs hok h
    obtain ⟨s', hstep, hrest⟩ := exec_cons h
    simp only [moves, hstep, mem_cons, forall_eq_or_imp] at hok
    exact ih (hs.step l hok.1 hstep) hok.2 hrest

/-- The end of a run from a reachable state is reachable. -/
theorem Reachable.exec {s t : σ} (hs : S.Reachable s) (h : S.exec s ls = some t) :
    S.Reachable t :=
  ReachableBy.exec hs (fun _ _ => trivial) h

/-- A run that ends, and in a state with `P`. -/
theorem of_any_exec {s : σ} {P : σ → Prop} [DecidablePred P]
    (h : (S.exec s ls).any (fun t => decide (P t)) = true) : ∃ t, S.exec s ls = some t ∧ P t := by
  rcases (Option.any_eq_true _ _).mp h with ⟨t, ht, hP⟩
  exact ⟨t, ht, of_decide_eq_true hP⟩

/-- Such a state is reachable, by the steps of that run. -/
theorem reachesBy {s : σ} (hs : S.Init s) (ls : List α) (hok : ∀ m ∈ S.moves s ls, Ok m.1 m.2)
    {P : σ → Prop} [DecidablePred P] (h : (S.exec s ls).any (fun t => decide (P t)) = true) :
    ∃ t, S.ReachableBy Ok t ∧ P t := by
  rcases of_any_exec h with ⟨t, ht, hP⟩
  exact ⟨t, (ReachableBy.init hs).exec hok ht, hP⟩

theorem reaches {s : σ} (hs : S.Init s) (ls : List α) {P : σ → Prop} [DecidablePred P]
    (h : (S.exec s ls).any (fun t => decide (P t)) = true) : ∃ t, S.Reachable t ∧ P t :=
  reachesBy hs ls (fun _ _ => trivial) h

/-- Simulation by a function. If each step of `S` is, seen through `f`, what `T` does with the
same label, then so is each run. -/
theorem exec_map {τ : Type*} {T : System τ α} (f : σ → τ) (Ok : α → Prop) (Inv : σ → Prop)
    (hsim : ∀ s l, Inv s → Ok l → (S.step s l).map f = T.step (f s) l)
    (hinv : ∀ s l s', Inv s → Ok l → S.step s l = some s' → Inv s') (ls : List α) :
    ∀ s, Inv s → (∀ l ∈ ls, Ok l) → (S.exec s ls).map f = T.exec (f s) ls := by
  induction ls with
  | nil => exact fun s _ _ => rfl
  | cons l ls ih =>
    intro s hs hok
    rw [forall_mem_cons] at hok
    simp only [exec, ← hsim s l hs hok.1]
    cases hst : S.step s l with
    | none => rfl
    | some s' => exact ih s' (hinv s l s' hs hok.1 hst) hok.2

/-- Exact characterisation of the good runs, among those whose steps satisfy `H`. If `Inv`
is kept by the steps that satisfy `Ok` and gives `P`, and a step that does not satisfy `Ok`
ends in a state without `P`, then a run shows `P` throughout exactly when all its steps
satisfy `Ok`. -/
theorem visits_iff (H Ok : σ → α → Prop) (Inv P : σ → Prop) (hP : ∀ s, Inv s → P s)
    (hstep : ∀ s l s', Inv s → H s l → Ok s l → S.step s l = some s' → Inv s')
    (hbad : ∀ s l s', Inv s → H s l → ¬ Ok s l → S.step s l = some s' → ¬ P s') (ls : List α) :
    ∀ s, Inv s → (∀ m ∈ S.moves s ls, H m.1 m.2) →
      ((∀ t ∈ S.visits s ls, P t) ↔ ∀ m ∈ S.moves s ls, Ok m.1 m.2) := by
  induction ls with
  | nil => intro s hs _; simpa [visits, moves] using hP s hs
  | cons l ls ih =>
    intro s hs
    simp only [visits, moves, mem_cons, forall_eq_or_imp]
    cases hst : S.step s l with
    | none => intro _; simpa using hP s hs
    | some s' =>
      simp only [mem_cons, forall_eq_or_imp]
      rintro ⟨hH, hHs⟩
      by_cases hok : Ok s l
      · have hrest := ih s' (hstep s l s' hs hH hok hst) hHs
        constructor
        · rintro ⟨-, h⟩
          exact ⟨hok, hrest.mp h⟩
        · rintro ⟨-, h⟩
          exact ⟨hP s hs, hrest.mpr h⟩
      · -- the very next state is without `P`
        constructor
        · rintro ⟨-, h⟩
          have hmem : s' ∈ S.visits s' ls := by cases ls <;> simp [visits]
          exact absurd (h s' hmem) (hbad s l s' hs hH hok hst)
        · rintro ⟨h, -⟩
          exact absurd h hok

end System

end Lib
