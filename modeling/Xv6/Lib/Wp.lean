import Mathlib.Data.List.Basic
import Mathlib.Tactic.Common

/-!
# Xv6.Lib.Wp — weakest preconditions for stateful code that can panic

`StateT σ (Except ε)` is straight-line kernel code: it reads and writes a state
and may stop with a panic. `wp E m Q s` says that running `m` from `s` either
returns some `a` in a state `t` with `Q a t`, or panics with an `e` that `E`
admits. With `E := fun _ => False` it is total correctness.

The rules are equations wherever the shape of the program decides what is to be
shown (`wp_pure`, `wp_bind`, `wp_ite`, …), so that a body is reduced by `simp`
down to its calls; `wp_mono` and `wp_call` then put the specification of the callee in
place of the call. Nothing here names a particular program.
-/

namespace Lib

universe u v w

variable {σ : Type u} {ε : Type v} {α β : Type u} {E : ε → Prop} {s : σ}

/-- Running `m` from `s` returns a result and a state in `Q`, or panics as `E` admits. -/
def wp (E : ε → Prop) (m : StateT σ (Except ε) α) (Q : α → σ → Prop) (s : σ) : Prop :=
  match m s with
  | .ok (a, t) => Q a t
  | .error e => E e

variable {m : StateT σ (Except ε) α} {Q R : α → σ → Prop}

/-- Consequence, in the form a call to a specified function is used in. -/
theorem wp_mono (h : wp E m Q s) (hQR : ∀ a t, Q a t → R a t) :
    wp E m R s := by
  unfold wp at h ⊢
  split
  · next a t heq =>
    rw [heq] at h
    exact hQR a t h
  · next e heq =>
    rw [heq] at h
    exact h

/-- What two specifications say of a run. -/
theorem wp_and (hQ : wp E m Q s) (hR : wp E m R s) :
    wp E m (fun a t => Q a t ∧ R a t) s := by
  unfold wp at hQ hR ⊢
  split
  · next a t heq =>
    rw [heq] at hQ hR
    exact ⟨hQ, hR⟩
  · next e heq =>
    rw [heq] at hQ
    exact hQ

/-- Only the run from `s` matters. -/
theorem wp_congr {m' : StateT σ (Except ε) α} (h : m s = m' s) :
    wp E m Q s ↔ wp E m' Q s := by
  unfold wp
  rw [h]

/-- Nothing is to be shown of any run. -/
theorem wp_trivial (hE : ∀ e, E e) (hQ : ∀ a t, Q a t) :
    wp E m Q s := by
  unfold wp
  split
  · exact hQ _ _
  · exact hE _

/-- A run known to return is judged by what it returns. -/
theorem wp_of_eq {a : α} {t : σ} (h : m s = .ok (a, t)) :
    wp E m Q s ↔ Q a t := by
  simp only [wp, h]

/-- And a run known to panic by its panic. -/
theorem wp_of_error {e : ε} (h : m s = .error e) :
    wp E m Q s ↔ E e := by
  simp only [wp, h]

/-- What is shown by `wp` without panics is a returning run. -/
theorem wp_returns (h : wp (fun _ : ε => False) m Q s) :
    ∃ a t, m s = .ok (a, t) ∧ Q a t := by
  unfold wp at h
  split at h
  · next a t heq => exact ⟨a, t, heq, h⟩
  · exact h.elim

@[simp] theorem wp_pure (a : α) :
    wp E (pure a : StateT σ (Except ε) α) Q s ↔ Q a s := Iff.rfl

theorem wp_ret {a : α} (h : Q a s) : wp E (pure a) Q s := h

@[simp] theorem wp_bind {f : α → StateT σ (Except ε) β} {Q : β → σ → Prop} :
    wp E (m >>= f) Q s ↔ wp E m (fun a t => wp E (f a) Q t) s := by
  have hrun : (m >>= f) s = (m s).bind fun r => f r.1 r.2 := rfl
  unfold wp
  rw [hrun]
  cases m s <;> rfl

/-- A call to a specified function, and what is done with its result. -/
theorem wp_call {f : α → StateT σ (Except ε) β} {Q : β → σ → Prop} (hm : wp E m R s)
    (hf : ∀ a t, R a t → wp E (f a) Q t) :
    wp E (m >>= f) Q s :=
  wp_bind.mpr (wp_mono hm hf)

@[simp] theorem wp_throw (e : ε) :
    wp E (throw e : StateT σ (Except ε) α) Q s ↔ E e := Iff.rfl

@[simp] theorem wp_get {Q : σ → σ → Prop} :
    wp E (get : StateT σ (Except ε) σ) Q s ↔ Q s s := Iff.rfl

@[simp] theorem wp_set {Q : PUnit → σ → Prop} (t : σ) :
    wp E (set t : StateT σ (Except ε) PUnit) Q s ↔ Q ⟨⟩ t := Iff.rfl

@[simp] theorem wp_modify {Q : PUnit → σ → Prop} (f : σ → σ) :
    wp E (modify f : StateT σ (Except ε) PUnit) Q s ↔ Q ⟨⟩ (f s) := Iff.rfl

theorem wp_ite {c : Prop} [Decidable c] {m' : StateT σ (Except ε) α} :
    wp E (if c then m else m') Q s ↔ (c → wp E m Q s) ∧ (¬ c → wp E m' Q s) := by
  by_cases h : c <;> simp [h]

theorem wp_if {c : Prop} [Decidable c] {m' : StateT σ (Except ε) α} (ht : c → wp E m Q s)
    (hf : ¬ c → wp E m' Q s) : wp E (if c then m else m') Q s :=
  wp_ite.mpr ⟨ht, hf⟩

/-- A loop over a list: an invariant that speaks about the elements still to come. -/
theorem wp_forM {f : α → StateT σ (Except ε) PUnit} (Inv : List α → σ → Prop)
    (hstep : ∀ x xs t, Inv (x :: xs) t → wp E (f x) (fun _ t' => Inv xs t') t) :
    ∀ (xs : List α) (t : σ), Inv xs t → wp E (forM xs f) (fun _ t' => Inv [] t') t := by
  intro xs
  induction xs with
  | nil => intro t h; exact h
  | cons x xs ih =>
    intro t h
    rw [List.forM_cons, wp_bind]
    exact wp_mono (hstep x xs t h) fun _ t' ht' => ih t' ht'

/-- A loop that counts from `a`: an invariant that speaks about the numbers done. -/
theorem wp_forM_range' {τ : Type} {f : Nat → StateT τ (Except ε) PUnit} (Inv : Nat → τ → Prop)
    (a n : Nat) (t : τ) (hinit : Inv a t)
    (hstep : ∀ k t, a ≤ k → k < a + n → Inv k t → wp E (f k) (fun _ t' => Inv (k + 1) t') t) :
    wp E (forM (List.range' a n) f) (fun _ t' => Inv (a + n) t') t := by
  induction n generalizing a t with
  | zero => exact wp_ret hinit
  | succ n ih =>
    rw [List.range'_succ, List.forM_cons, wp_bind]
    refine wp_mono (hstep a t (Nat.le_refl a) (by omega) hinit) fun _ t' ht' => ?_
    have hrest := ih (a + 1) t' ht' fun k u hk hlt => hstep k u (by omega) (by omega)
    rwa [Nat.add_right_comm] at hrest

/-- If the program returns, `I` is kept. -/
def Preserves (I : σ → Prop) (m : StateT σ (Except ε) α) : Prop :=
  ∀ s, I s → wp (fun _ => True) m (fun _ t => I t) s

section
variable {I : σ → Prop}

theorem Preserves.pure (a : α) : Preserves I (Pure.pure a : StateT σ (Except ε) α) :=
  fun _ hs => wp_ret hs

theorem Preserves.bind {f : α → StateT σ (Except ε) β} (hm : Preserves I m)
    (hf : ∀ a, Preserves I (f a)) : Preserves I (m >>= f) :=
  fun s hs => wp_call (hm s hs) fun a t ht => hf a t ht

theorem Preserves.ite {c : Prop} [Decidable c] {m' : StateT σ (Except ε) α}
    (hm : Preserves I m) (hm' : Preserves I m') : Preserves I (if c then m else m') :=
  fun s hs => wp_if (fun _ => hm s hs) fun _ => hm' s hs

theorem Preserves.forM {f : α → StateT σ (Except ε) PUnit} (hf : ∀ x, Preserves I (f x))
    (xs : List α) : Preserves I (ForM.forM xs f) :=
  fun s hs => wp_forM (fun _ => I) (fun x _ t ht => hf x t ht) xs s hs

end

-- programs are opened by the rules above, never by unfolding
attribute [irreducible] wp

end Lib
