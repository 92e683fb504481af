import Mathlib.Data.List.Basic

/-!
# Xv6.Lib.Linked — linked lists in memory

`Seg next val a L z` says that from address `a` the links `next` lead over the nodes of `L`, in
this order and with these values, to address `z`. A list with an end and a ring are special
cases. Nothing here names a particular program.
-/

namespace Lib

open List

variable {α β : Type} {next next' : α → α} {val val' : α → β} {a z : α} {L M : List (α × β)}

/-- The nodes from `a` up to `z`, which is not one of them. -/
def Seg (next : α → α) (val : α → β) : α → List (α × β) → α → Prop
  | a, [], z => a = z
  | a, x :: L, z => x = (a, val a) ∧ Seg next val (next a) L z

theorem seg_append : Seg next val a (L ++ M) z ↔
    ∃ b, Seg next val a L b ∧ Seg next val b M z := by
  induction L generalizing a with
  | nil =>
    constructor
    · intro h
      exact ⟨a, rfl, h⟩
    · rintro ⟨b, rfl, h⟩
      exact h
  | cons x L ih =>
    simp only [cons_append, Seg, ih]
    constructor
    · rintro ⟨hx, b, hL, hM⟩
      exact ⟨b, ⟨hx, hL⟩, hM⟩
    · rintro ⟨b, ⟨hx, hL⟩, hM⟩
      exact ⟨hx, b, hL, hM⟩

/-- Only the nodes matter. -/
theorem Seg.congr (h : Seg next val a L z) (hnext : ∀ x ∈ L, next' x.1 = next x.1)
    (hval : ∀ x ∈ L, val' x.1 = val x.1) : Seg next' val' a L z := by
  induction L generalizing a with
  | nil => exact h
  | cons x L ih =>
    rcases h with ⟨rfl, hrest⟩
    have hn := hnext _ mem_cons_self
    have hv := hval _ mem_cons_self
    refine ⟨by rw [hv], ?_⟩
    rw [hn]
    exact ih hrest (fun x hx => hnext x (mem_cons_of_mem _ hx))
      fun x hx => hval x (mem_cons_of_mem _ hx)

theorem Seg.val_eq (h : Seg next val a L z) {x : α × β} (hx : x ∈ L) : val x.1 = x.2 := by
  induction L generalizing a with
  | nil => cases hx
  | cons y L ih =>
    rcases h with ⟨rfl, hrest⟩
    rcases mem_cons.mp hx with rfl | hx
    · rfl
    · exact ih hrest hx

end Lib
