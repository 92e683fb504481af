import Xv6.Lib.Update

/-!
# Lib.Owners — resources that are in use exactly when one reference names them

A domain of resources, a flag that tells which of them are in use, and a relation
between references and resources. `Owned` says that the three agree: a resource is in
use just when a reference holds it, and then one reference only. A resource is taken
by a new reference and given back by the one that holds it.
-/

namespace Lib

open Function

universe u v

variable {R : Type u} {β : Type v} {D : β → Prop} {used : β → Bool} {holds holds' : R → β → Prop}

structure Owned (D : β → Prop) (used : β → Bool) (holds : R → β → Prop) : Prop where
  unique : ∀ x y b, holds x b → holds y b → x = y
  sound : ∀ x b, holds x b → D b ∧ used b = true
  complete : ∀ b, D b → used b = true → ∃ x, holds x b

theorem Owned.congr (h : Owned D used holds) (hiff : ∀ x b, holds' x b ↔ holds x b) :
    Owned D used holds' := by
  have heq : holds' = holds := funext fun x => funext fun b => propext (hiff x b)
  rw [heq]
  exact h

theorem Owned.congr_used {used' : β → Bool} (h : Owned D used holds)
    (heq : ∀ b, D b → used' b = used b) : Owned D used' holds := by
  refine ⟨h.unique, fun x b hx => ?_, fun b hb hu => ?_⟩
  · rcases h.sound x b hx with ⟨hb, hu⟩
    exact ⟨hb, (heq b hb).trans hu⟩
  · rw [heq b hb] at hu
    exact h.complete b hb hu

/-- Nothing holds a resource that is not in use. -/
theorem Owned.not_holds (h : Owned D used holds) {b : β} (hb : used b = false) (x : R) :
    ¬ holds x b := by
  intro hx
  rw [(h.sound x b hx).2] at hb
  cases hb

section
variable [DecidableEq β] {a : R} {b₀ : β}

/-- The reference `a` takes the resource `b₀`. -/
theorem Owned.take (h : Owned D used holds) (hD : D b₀) (hfree : used b₀ = false)
    (hiff : ∀ x b, holds' x b ↔ holds x b ∨ (x = a ∧ b = b₀)) :
    Owned D (update used b₀ true) holds' := by
  refine ⟨fun x y b hx hy => ?_, fun x b hx => ?_, fun b hb hu => ?_⟩
  · rcases (hiff x b).mp hx with hx | ⟨rfl, rfl⟩ <;> rcases (hiff y _).mp hy with hy | ⟨rfl, hb⟩
    · exact h.unique x y b hx hy
    · exact absurd (hb ▸ hx) (h.not_holds hfree x)
    · exact absurd hy (h.not_holds hfree y)
    · rfl
  · rcases (hiff x b).mp hx with hx | ⟨-, rfl⟩
    · refine ⟨(h.sound x b hx).1, ?_⟩
      rw [update_of_ne, (h.sound x b hx).2]
      rintro rfl
      exact h.not_holds hfree x hx
    · exact ⟨hD, update_self _ _ _⟩
  · by_cases hbb : b = b₀
    · exact ⟨a, (hiff a b).mpr (.inr ⟨rfl, hbb⟩)⟩
    · rw [update_of_ne hbb] at hu
      rcases h.complete b hb hu with ⟨x, hx⟩
      exact ⟨x, (hiff x b).mpr (.inl hx)⟩

/-- The reference `a` gives back the resource `b₀`, the only one it holds. -/
theorem Owned.give (h : Owned D used holds) (ha : ∀ b, holds a b ↔ b = b₀)
    (hiff : ∀ x b, holds' x b ↔ holds x b ∧ x ≠ a) :
    Owned D (update used b₀ false) holds' := by
  replace hiff : ∀ x b, holds' x b ↔ holds x b ∧ b ≠ b₀ := by
    intro x b
    rw [hiff x b]
    refine and_congr_right fun hx => not_congr ⟨?_, ?_⟩
    · rintro rfl
      exact (ha b).mp hx
    · rintro rfl
      exact h.unique x a b hx ((ha b).mpr rfl)
  refine ⟨fun x y b hx hy => ?_, fun x b hx => ?_, fun b hb hu => ?_⟩
  · exact h.unique x y b ((hiff x b).mp hx).1 ((hiff y b).mp hy).1
  · rcases (hiff x b).mp hx with ⟨hx, hne⟩
    rw [update_of_ne hne]
    exact h.sound x b hx
  · have hne : b ≠ b₀ := by
      rintro rfl
      rw [update_self] at hu
      cases hu
    rw [update_of_ne hne] at hu
    rcases h.complete b hb hu with ⟨x, hx⟩
    exact ⟨x, (hiff x b).mpr ⟨hx, hne⟩⟩

end

end Lib
