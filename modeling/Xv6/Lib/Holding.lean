import Mathlib.Logic.Function.Basic

/-!
# Lib.Holding — locks and the agents that hold them

`l k` is the agent that lock `k` records as its holder, and `own c` the lock agent `c` has
in hand, of which it has at most one. `Holding l own` says that the two agree. Taking a free
lock with an empty hand, and putting down the lock in hand, keep it so.
-/

namespace Lib

open Function

variable {κ γ : Type*} [DecidableEq κ] [DecidableEq γ]

def Holding (l : κ → Option γ) (own : γ → Option κ) : Prop :=
  ∀ k c, l k = some c ↔ own c = some k

/-- How an agent's hand and the locks change in one step. -/
inductive Handle (c : γ) (o o' : Option κ) (l l' : κ → Option γ) : Prop where
  | keep (ho : o' = o) (hl : l' = l)
  | take (k : κ) (hfree : l k = none) (hempty : o = none) (ho : o' = some k)
      (hl : l' = update l k (some c))
  | put (k : κ) (hheld : o = some k) (ho : o' = none) (hl : l' = update l k none)

theorem Holding.handle {l l' : κ → Option γ} {own own' : γ → Option κ} {c : γ} (h : Holding l own)
    (hh : Handle c (own c) (own' c) l l') (hother : ∀ c' ≠ c, own' c' = own c') :
    Holding l' own' := by
  intro k' c'
  by_cases hc : c' = c
  · subst hc
    rcases hh with ⟨ho, rfl⟩ | ⟨k, hfree, hempty, ho, rfl⟩ | ⟨k, hheld, ho, rfl⟩
    · rw [ho]
      exact h k' c'
    · have := h k' c'
      by_cases hk : k' = k
      · subst hk
        simp [ho]
      · simp [update_of_ne hk, ho, this, hempty, Ne.symm hk]
    · have := h k' c'
      by_cases hk : k' = k
      · subst hk
        simp [ho]
      · simp [update_of_ne hk, ho, this, hheld, Ne.symm hk]
  · rw [hother c' hc]
    rcases hh with ⟨ho, rfl⟩ | ⟨k, hfree, hempty, ho, rfl⟩ | ⟨k, hheld, ho, rfl⟩
    · exact h k' c'
    · -- the lock taken was free, so nobody else had it in hand
      have := h k' c'
      by_cases hk : k' = k
      · subst hk
        rw [hfree] at this
        simpa [Ne.symm hc] using this
      · rw [update_of_ne hk]
        exact this
    · -- the lock put down was in the hand of `c`, and of nobody else
      have := h k' c'
      by_cases hk : k' = k
      · subst hk
        have hmine := (h k' c).mpr hheld
        rw [hmine] at this
        simpa [Ne.symm hc] using this
      · rw [update_of_ne hk]
        exact this

/-- A single lock is one for the index `()`. -/
theorem update_unit {α : Type*} (x y : α) :
    (fun _ : Unit => y) = update (fun _ => x) () y := by
  funext u
  cases u
  rw [update_self]

end Lib
