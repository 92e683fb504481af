import Xv6.Lib.Wp

/-!
# Xv6.Lib.Erase — programs that keep a record on the side

A program over a state `τ` that has a part of type `σ`. `zoom` is a program over `σ`, run on
this part. `Erases` says that a program over `τ` does to the part what a program over `σ`
does: what it keeps besides can be left out. Then whatever is known of the program over `σ`
is known of the other one (`Erases.wp`). Nothing here names a particular program.
-/

namespace Lib

universe u v

variable {σ τ : Type u} {ε : Type v} {α β : Type u} {E : ε → Prop} {part : τ → σ}
  {put : τ → σ → τ}

/-- Run a program on a part of the state. -/
def zoom (part : τ → σ) (put : τ → σ → τ) (m : StateT σ (Except ε) α) : StateT τ (Except ε) α :=
  fun t => (m (part t)).map fun x => (x.1, put t x.2)

/-- `m'` does to the part what `m` does. -/
def Erases (part : τ → σ) (m' : StateT τ (Except ε) α) (m : StateT σ (Except ε) α) : Prop :=
  ∀ t, m (part t) = (m' t).map fun x => (x.1, part x.2)

variable {m : StateT σ (Except ε) α}

theorem wp_zoom {Q : α → τ → Prop} {t : τ} :
    wp E (zoom part put m) Q t ↔ wp E m (fun a s => Q a (put t s)) (part t) := by
  cases hrun : m (part t) with
  | ok x =>
    have hzoom : zoom part put m t = .ok (x.1, put t x.2) := by rw [zoom, hrun]; rfl
    rw [wp_of_eq hzoom, wp_of_eq (a := x.1) (t := x.2) hrun]
  | error e =>
    have hzoom : zoom part put m t = .error e := by rw [zoom, hrun]; rfl
    rw [wp_of_error hzoom, wp_of_error hrun]

namespace Erases

variable {m' : StateT τ (Except ε) α}

theorem wp {Q : α → σ → Prop} {t : τ} (h : Erases part m' m) (hm : wp E m Q (part t)) :
    wp E m' (fun a t => Q a (part t)) t := by
  have heq := h t
  cases hrun : m' t with
  | ok x =>
    rw [hrun] at heq
    exact (wp_of_eq hrun).mpr ((wp_of_eq heq).mp hm)
  | error e =>
    rw [hrun] at heq
    exact (wp_of_error hrun).mpr ((wp_of_error heq).mp hm)

theorem pure (a : α) : Erases part (Pure.pure a : StateT τ (Except ε) α) (Pure.pure a) :=
  fun _ => rfl

theorem throw (e : ε) :
    Erases part (MonadExcept.throw e : StateT τ (Except ε) α) (MonadExcept.throw e) :=
  fun _ => rfl

theorem zoom (hput : ∀ t s, part (put t s) = s) (m : StateT σ (Except ε) α) :
    Erases part (zoom part put m) m := by
  intro t
  unfold Lib.zoom
  cases m (part t) with
  | ok x =>
    show Except.ok x = .ok (x.1, part (put t x.2))
    rw [hput]
  | error e => rfl

theorem bind {f' : α → StateT τ (Except ε) β} {f : α → StateT σ (Except ε) β} (h : Erases part m' m)
    (hf : ∀ a, Erases part (f' a) (f a)) :
    Erases part (m' >>= f') (m >>= f) := by
  intro t
  show (m (part t)).bind (fun x => f x.1 x.2) = _
  rw [h t]
  show _ = ((m' t).bind fun x => f' x.1 x.2).map _
  cases m' t with
  | ok x => exact hf x.1 x.2
  | error e => rfl

/-- A step that only writes to the record. -/
theorem skip {k : StateT τ (Except ε) PUnit} (hk : Erases part k (Pure.pure ⟨⟩))
    (h : Erases part m' m) :
    Erases part (k >>= fun _ => m') m :=
  bind hk fun _ => h

/-- A step whose only trace is then in the record. -/
theorem after {k' : StateT τ (Except ε) PUnit} {k : StateT σ (Except ε) PUnit}
    {r : StateT τ (Except ε) PUnit} (h : Erases part k' k) (hr : Erases part r (Pure.pure ⟨⟩)) :
    Erases part (k' >>= fun _ => r) k := by
  have hbind := bind h fun _ => hr
  rwa [bind_pure_unit] at hbind

theorem forM {γ : Type u} {f' : γ → StateT τ (Except ε) PUnit} {f : γ → StateT σ (Except ε) PUnit}
    (h : ∀ x, Erases part (f' x) (f x)) :
    ∀ xs : List γ, Erases part (ForM.forM xs f') (ForM.forM xs f)
  | [] => pure _
  | x :: xs => bind (h x) fun _ => forM h xs

theorem ite {c : Prop} [Decidable c] {n' : StateT τ (Except ε) α} {n : StateT σ (Except ε) α}
    (hm : Erases part m' m) (hn : Erases part n' n) :
    Erases part (if c then m' else n') (if c then m else n) := by
  split
  · exact hm
  · exact hn

end Erases

end Lib
