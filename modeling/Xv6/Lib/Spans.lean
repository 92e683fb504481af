import Mathlib.Data.List.Chain
import Mathlib.Algebra.Order.BigOperators.Group.List
import Mathlib.Algebra.Order.Group.Nat
import Mathlib.Algebra.GroupWithZero.Nat

/-!
# Xv6.Lib.Spans — runs of units in an address space

A span is a run of units of `u` bytes. A list of spans is `Spaced` if they are in order and do
not touch: no two of them could be one. `join` puts a span in front of such a list and makes it
one with the first of them if they touch. Nothing here names a particular program.
-/

namespace Lib

open List

/-- The address and the number of units. -/
abbrev Span := Nat × Nat

variable {u : Nat} {x y : Span} {L M : List Span} {b : Nat}

/-- The address behind the span. -/
def Span.stop (u : Nat) (x : Span) : Nat := x.1 + u * x.2

/-- A byte of the span. -/
def Span.Has (u : Nat) (x : Span) (b : Nat) : Prop := x.1 ≤ b ∧ b < x.stop u

/-- A byte of one of the spans. -/
def Covers (u : Nat) (L : List Span) (b : Nat) : Prop := ∃ x ∈ L, x.Has u b

/-- No common byte. -/
def Apart (u : Nat) (x y : Span) : Prop := ∀ b, ¬ (x.Has u b ∧ y.Has u b)

/-- In order, with something between any two. -/
def Spaced (u : Nat) (L : List Span) : Prop := L.Pairwise fun x y => x.stop u < y.1

/-- All units. -/
def units (L : List Span) : Nat := (L.map Prod.snd).sum

/-- A span before others, as one with the first if they touch. -/
def join (u : Nat) (x : Span) : List Span → List Span
  | [] => [x]
  | y :: L => if x.stop u = y.1 then (x.1, x.2 + y.2) :: L else x :: y :: L

theorem Span.le_stop : x.1 ≤ x.stop u := Nat.le_add_right _ _

theorem Span.has_start (hu : 0 < u) (hx : 0 < x.2) : x.Has u x.1 :=
  ⟨Nat.le_refl _, Nat.lt_add_of_pos_right (Nat.mul_pos hu hx)⟩

theorem Span.stop_add {n : Nat} : Span.stop u (x.1, x.2 + n) = x.stop u + u * n := by
  unfold Span.stop
  rw [Nat.mul_add, Nat.add_assoc]

theorem Apart.symm (h : Apart u x y) : Apart u y x := fun b hb => h b hb.symm

theorem apart_of_le (h : x.stop u ≤ y.1) : Apart u x y := by
  rintro b ⟨hx, hy⟩
  exact absurd (lt_of_lt_of_le hx.2 h) (Nat.not_lt.mpr hy.1)

/-- Spans in order that have no common byte. -/
theorem Apart.stop_le (h : Apart u x y) (hu : 0 < u) (hy : 0 < y.2) (hlt : x.1 ≤ y.1) :
    x.stop u ≤ y.1 := by
  by_contra hgt
  exact h y.1 ⟨⟨hlt, Nat.not_le.mp hgt⟩, Span.has_start hu hy⟩

theorem covers_cons : Covers u (x :: L) b ↔ x.Has u b ∨ Covers u L b := by
  simp [Covers]

theorem covers_append : Covers u (L ++ M) b ↔ Covers u L b ∨ Covers u M b := by
  simp [Covers, or_and_right, exists_or]

theorem units_cons : units (x :: L) = x.2 + units L := by
  rw [units, map_cons, sum_cons, units]

theorem units_append : units (L ++ M) = units L + units M := by
  rw [units, map_append, sum_append, units, units]

theorem covers_perm (h : L.Perm M) : Covers u L b ↔ Covers u M b :=
  exists_congr fun _ => and_congr_left fun _ => h.mem_iff

theorem units_perm (h : L.Perm M) : units L = units M := (h.map Prod.snd).sum_eq

theorem Spaced.apart (h : Spaced u L) : L.Pairwise (Apart u) :=
  h.imp fun hlt => apart_of_le (le_of_lt hlt)

/-- A part of a span. -/
theorem Apart.mono {x' : Span} (h : Apart u x y) (hx : ∀ b, x'.Has u b → x.Has u b) :
    Apart u x' y := fun b hb => h b ⟨hx b hb.1, hb.2⟩

/-- A span that ends earlier. -/
theorem Spaced.shrink {y' : Span} (h : Spaced u (L ++ y :: M)) (hstart : y'.1 = y.1)
    (hstop : y'.stop u ≤ y.stop u) : Spaced u (L ++ y' :: M) := by
  rcases pairwise_append.mp h with ⟨hL, hyM, hcross⟩
  rcases pairwise_cons.mp hyM with ⟨hy, hM⟩
  refine pairwise_append.mpr ⟨hL, pairwise_cons.mpr ⟨fun z hz => ?_, hM⟩,
    fun x hx z hz => ?_⟩
  · exact lt_of_le_of_lt hstop (hy z hz)
  · rcases mem_cons.mp hz with rfl | hz
    · rw [hstart]
      exact hcross x hx y mem_cons_self
    · exact hcross x hx z (mem_cons_of_mem _ hz)

/-- No more spans than units of the space. -/
theorem Spaced.length_le {lo hi : Nat} (h : Spaced u L) (hle : lo ≤ hi)
    (hin : ∀ x ∈ L, lo ≤ x.1 ∧ 0 < x.2 ∧ x.stop u ≤ hi) : lo + u * L.length ≤ hi := by
  induction L generalizing lo with
  | nil => exact hle
  | cons x L ih =>
    rcases pairwise_cons.mp h with ⟨hx, hL⟩
    rcases hin x mem_cons_self with ⟨hlo, hpos, hstop⟩
    have hrest := ih hL hstop fun y hy =>
      ⟨le_of_lt (hx y hy), (hin y (mem_cons_of_mem _ hy)).2⟩
    have hunit : u ≤ u * x.2 := Nat.le_mul_of_pos_right u hpos
    rw [length_cons, Nat.mul_succ]
    unfold Span.stop at hrest
    omega

/-! ## join -/

theorem join_touch (h : x.stop u = y.1) : join u x (y :: L) = (x.1, x.2 + y.2) :: L := if_pos h

theorem join_gap (h : x.stop u ≠ y.1) : join u x (y :: L) = x :: y :: L := if_neg h

theorem covers_join : Covers u (join u x L) b ↔ x.Has u b ∨ Covers u L b := by
  cases L with
  | nil => rw [join, covers_cons]
  | cons y L =>
    rw [join]
    split
    · next htouch =>
      rw [covers_cons, covers_cons, ← or_assoc]
      refine or_congr_left ?_
      unfold Span.Has
      rw [Span.stop_add]
      unfold Span.stop at *
      omega
    · rw [covers_cons]

theorem units_join : units (join u x L) = x.2 + units L := by
  cases L with
  | nil => rw [join, units_cons]
  | cons y L =>
    rw [join]
    split
    · rw [units_cons, units_cons, Nat.add_assoc]
    · rw [units_cons]

theorem length_join : (join u x L).length ≤ L.length + 1 := by
  cases L with
  | nil => exact Nat.le_refl _
  | cons y L =>
    rw [join]
    split
    · simp
    · simp

/-- The first span is no smaller than the new one, and begins where it does. -/
theorem join_cons : ∃ n T, join u x L = (x.1, n) :: T ∧ x.2 ≤ n ∧ ∀ y ∈ T, y ∈ L := by
  cases L with
  | nil => exact ⟨x.2, [], rfl, Nat.le_refl _, fun y hy => by cases hy⟩
  | cons y L =>
    rw [join]
    split
    · exact ⟨x.2 + y.2, L, rfl, Nat.le_add_right _ _, fun z hz => mem_cons_of_mem _ hz⟩
    · exact ⟨x.2, y :: L, rfl, Nat.le_refl _, fun z hz => hz⟩

theorem pos_join (hx : 0 < x.2) (hL : ∀ y ∈ L, 0 < y.2) : ∀ y ∈ join u x L, 0 < y.2 := by
  rcases join_cons (u := u) (x := x) (L := L) with ⟨n, T, heq, hle, hT⟩
  rw [heq]
  intro y hy
  rcases mem_cons.mp hy with rfl | hy
  · exact lt_of_lt_of_le hx hle
  · exact hL y (hT y hy)

theorem Spaced.join (hL : Spaced u L) (hx : ∀ y ∈ L, x.stop u ≤ y.1) : Spaced u (join u x L) := by
  cases L with
  | nil => exact pairwise_singleton _ _
  | cons y L =>
    have hy := pairwise_cons.mp hL
    rw [Lib.join]
    split
    · next htouch =>
      refine pairwise_cons.mpr ⟨fun z hz => ?_, hy.2⟩
      have hlt := hy.1 z hz
      rw [Span.stop_add, htouch]
      exact hlt
    · next hgap =>
      refine pairwise_cons.mpr ⟨fun z hz => ?_, hL⟩
      rcases mem_cons.mp hz with rfl | hz
      · exact lt_of_le_of_ne (hx _ mem_cons_self) hgap
      · have hlt := hy.1 z hz
        have hle := hx y mem_cons_self
        have hstop := Span.le_stop (u := u) (x := y)
        omega

end Lib
