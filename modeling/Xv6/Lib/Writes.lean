import Mathlib.Logic.Function.Basic

/-!
# Xv6.Lib.Writes — lists of writes to a store

A store is a function from addresses to contents; a list of writes is applied from left to
right. Replaying a list over a store that already has some of its writes gives the same as
applying it once, which is what makes a redo log replayable.
-/

namespace Lib

open Function

variable {ι β : Type} [DecidableEq ι]

/-- The store after the writes `ws`. -/
def writes (d : ι → β) (ws : List (ι × β)) : ι → β :=
  ws.foldl (fun d w => update d w.1 w.2) d

@[simp] theorem writes_nil (d : ι → β) : writes d [] = d := rfl

theorem writes_cons (d : ι → β) (w : ι × β) (ws : List (ι × β)) :
    writes d (w :: ws) = writes (update d w.1 w.2) ws := rfl

variable {ws : List (ι × β)}

/-- What a written address holds does not depend on the store before. -/
theorem writes_congr {x : ι} : ∀ {d d' : ι → β},
    x ∈ ws.map Prod.fst ∨ d x = d' x → writes d ws x = writes d' ws x := by
  induction ws with
  | nil =>
    intro d d' h
    rcases h with h | h
    · cases h
    · exact h
  | cons w ws ih =>
    intro d d' h
    rw [writes_cons, writes_cons]
    apply ih
    by_cases hx : x = w.1
    · right
      simp [hx]
    · rcases h with h | h
      · left
        rw [List.map_cons, List.mem_cons] at h
        exact h.resolve_left hx
      · right
        simp [hx, h]

/-- A write to an address that is written anyway makes no difference. -/
theorem writes_update {d : ι → β} {x : ι} (v : β) (h : x ∈ ws.map Prod.fst) :
    writes (update d x v) ws = writes d ws := by
  funext y
  apply writes_congr
  by_cases hy : y = x
  · exact Or.inl (hy ▸ h)
  · exact Or.inr (update_of_ne hy v d)

/-- Nothing is left to write. -/
theorem writes_eq_self : ∀ {d : ι → β}, (∀ w ∈ ws, d w.1 = w.2) →
    writes d ws = d := by
  induction ws with
  | nil => exact fun _ => rfl
  | cons w ws ih =>
    intro d h
    rw [writes_cons, ← h w List.mem_cons_self, update_eq_self]
    exact ih fun w' hw' => h w' (List.mem_cons_of_mem w hw')

end Lib
