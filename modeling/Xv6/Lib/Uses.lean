import Mathlib.Data.Fintype.BigOperators
import Xv6.Lib.Update

/-!
# Lib.Uses — counting references

`uses tab b` is the number of entries of a table that refer to `b`. Reference counts are
stated against it; `uses_update` says what writing one entry does.
-/

namespace Lib

open Function

variable {α β : Type*}

variable [Fintype α] [DecidableEq β]

def uses (tab : α → Option β) (b : β) : Nat := ∑ a, if tab a = some b then 1 else 0

theorem uses_update [DecidableEq α] (tab : α → Option β) (a : α) (x : Option β) (b : β) :
    uses (update tab a x) b + (if tab a = some b then 1 else 0) =
      uses tab b + if x = some b then 1 else 0 := by
  unfold uses
  rw [← Finset.add_sum_erase _ _ (Finset.mem_univ a),
    ← Finset.add_sum_erase _ (fun a => if tab a = some b then 1 else 0) (Finset.mem_univ a),
    update_self]
  have hrest : ∑ a' ∈ Finset.univ.erase a, (if update tab a x a' = some b then 1 else 0) =
      ∑ a' ∈ Finset.univ.erase a, if tab a' = some b then 1 else 0 := by
    refine Finset.sum_congr rfl fun a' ha' => ?_
    rw [update_of_ne (Finset.ne_of_mem_erase ha')]
  omega

variable {b : β}

theorem uses_eq_zero {tab : α → Option β} : uses tab b = 0 ↔ ∀ a, tab a ≠ some b := by
  unfold uses
  rw [Finset.sum_eq_zero_iff]
  constructor
  · intro h a ha
    have := h a (Finset.mem_univ a)
    rw [if_pos ha] at this
    cases this
  · intro h a _
    exact if_neg (h a)

theorem uses_pos {f : α → Option β} {a : α} (h : f a = some b) : 0 < uses f b :=
  Nat.pos_of_ne_zero fun hzero => uses_eq_zero.mp hzero a h

/-- The only entry that refers to `b`. -/
theorem uses_one [DecidableEq α] {f : α → Option β} {a c : α} (h : uses f b = 1) (ha : f a = some b)
    (hc : f c = some b) : c = a := by
  by_contra hne
  have hup := uses_update f a none b
  rw [if_pos ha, if_neg (by exact nofun), h] at hup
  have hzero : uses (update f a none) b = 0 := by omega
  apply uses_eq_zero.mp hzero c
  rw [update_of_ne hne]
  exact hc

end Lib
