import Mathlib.Logic.Function.Basic

/-!
# Lib.Update — writing one entry of a table
-/

namespace Lib

open Function

variable {α β : Type*} [DecidableEq α]

/-- Writing one entry of a table leaves a field that has the same value in the new one. -/
theorem update_field {γ : Type*} {tab : α → γ} {a : α} {x : γ} (f : γ → β)
    (h : f x = f (tab a)) (a' : α) : f (update tab a x a') = f (tab a') := by
  by_cases ha : a' = a
  · rw [ha, update_self, h]
  · rw [update_of_ne ha]

/-- A new entry that is like the others. -/
theorem update_eq_of {tab : α → β} {a a' : α} {x : β} (h : a' ≠ a → tab a' = x) :
    update tab a x a' = x := by
  by_cases ha : a' = a
  · rw [ha, update_self]
  · rw [update_of_ne ha, h ha]

end Lib
