import Mathlib.Algebra.Group.Nat.Defs
import Mathlib.Data.List.Nodup

/-!
# Lib.Queue — a queue in an array, between two counters that wrap

A producer counts the elements it has put in with `hi`, a consumer those it has taken with
`lo`; both are machine words of `w` bits, and element number `k` stands in cell `k % N`. If
`N` divides `2 ^ w`, the cell does not depend on how often the counters have wrapped.
-/

namespace Lib

open Function List

variable {α : Type*} {w N : Nat} {data : Nat → α} {lo hi : BitVec w}

/-- The elements between the counters, oldest first. -/
def queue (N : Nat) (data : Nat → α) (lo hi : BitVec w) : List α :=
  (List.range (hi - lo).toNat).map fun k => data ((lo + BitVec.ofNat w k).toNat % N)

@[simp] theorem length_queue : (queue N data lo hi).length = (hi - lo).toNat := by
  rw [queue, length_map, length_range]

@[simp] theorem queue_self (N : Nat) (data : Nat → α) (lo : BitVec w) :
    queue N data lo lo = [] := by
  rw [← length_eq_zero_iff, length_queue, BitVec.sub_self]
  rfl

theorem toNat_sub_ne_zero (hne : lo ≠ hi) : (hi - lo).toNat ≠ 0 := by
  intro h0
  apply hne
  have hzero : hi - lo = 0#w := BitVec.eq_of_toNat_eq (by rw [h0]; simp)
  rw [← BitVec.sub_add_cancel hi lo, hzero, BitVec.zero_add]

/-- The cell of the `k`-th element from `x` on. -/
theorem cell_eq (hN : N ∣ 2 ^ w) (x : BitVec w) (k : Nat) :
    (x + BitVec.ofNat w k).toNat % N = (x.toNat + k) % N := by
  rw [BitVec.toNat_add, BitVec.toNat_ofNat, Nat.mod_mod_of_dvd _ hN, Nat.add_mod,
    Nat.mod_mod_of_dvd _ hN, ← Nat.add_mod]

theorem hi_cell (hN : N ∣ 2 ^ w) (lo hi : BitVec w) :
    hi.toNat % N = (lo.toNat + (hi - lo).toNat) % N := by
  have hhi : hi = lo + BitVec.ofNat w (hi - lo).toNat := by
    rw [BitVec.ofNat_toNat, BitVec.setWidth_eq, BitVec.add_comm, BitVec.sub_add_cancel]
  rw [← cell_eq hN lo, ← hhi]

/-- Two of fewer than `N` consecutive elements have different cells. -/
theorem cell_ne {x a b : Nat} (hab : a < b) (hb : b < a + N) : (x + a) % N ≠ (x + b) % N := by
  intro heq
  have hdvd : N ∣ (x + b) - (x + a) :=
    Nat.dvd_of_mod_eq_zero (Nat.sub_mod_eq_zero_of_mod_eq heq.symm)
  have hle := Nat.le_of_dvd (by omega) hdvd
  omega

theorem toNat_succ_sub (hlt : (hi - lo).toNat + 1 < 2 ^ w) :
    (hi + 1#w - lo).toNat = (hi - lo).toNat + 1 := by
  have hsub : hi + 1#w - lo = (hi - lo) + 1#w := by
    rw [BitVec.sub_eq_add_neg, BitVec.sub_eq_add_neg, BitVec.add_assoc, BitVec.add_comm 1#w,
      ← BitVec.add_assoc]
  have hone : (1#w).toNat = 1 := by
    rw [BitVec.toNat_ofNat, Nat.mod_eq_of_lt]
    omega
  rw [hsub, BitVec.toNat_add, hone, Nat.mod_eq_of_lt hlt]

section
variable (hN : N ∣ 2 ^ w)
include hN

/-- A cell after the queue can be filled. -/
theorem queue_update {x : BitVec w} (hle : (hi - lo).toNat ≤ (x - lo).toNat)
    (hlt : (x - lo).toNat < N) (v : α) :
    queue N (update data (x.toNat % N) v) lo hi = queue N data lo hi := by
  refine map_congr_left fun k hk => update_of_ne ?_ _ _
  rw [mem_range] at hk
  rw [cell_eq hN, hi_cell hN lo x]
  exact cell_ne (by omega) (by omega)

variable (hlt : (hi - lo).toNat < N)
include hlt

/-- The producer fills the next cell and then counts. -/
theorem queue_push (hw : N < 2 ^ w) (x : α) :
    queue N (update data (hi.toNat % N) x) lo (hi + 1#w) = queue N data lo hi ++ [x] := by
  have hkeep : queue N (update data (hi.toNat % N) x) lo hi = queue N data lo hi :=
    queue_update hN (Nat.le_refl _) hlt x
  unfold queue at hkeep ⊢
  rw [toNat_succ_sub (by omega), range_succ, map_append, map_singleton, hkeep]
  congr 2
  rw [cell_eq hN, ← hi_cell hN, update_self]

/-- A cell outside the queue can be filled before it is counted. -/
theorem queue_fill (x : α) :
    queue N (update data (hi.toNat % N) x) lo hi = queue N data lo hi :=
  queue_update hN (Nat.le_refl _) hlt x

/-- The producer counts a cell that it has filled. -/
theorem queue_count (hw : N < 2 ^ w) :
    queue N data lo (hi + 1#w) = queue N data lo hi ++ [data (hi.toNat % N)] := by
  conv_lhs => rw [← update_eq_self (hi.toNat % N) data]
  exact queue_push hN hlt hw _

end

/-- The consumer takes the oldest element. -/
theorem queue_pop (N : Nat) (data : Nat → α) (hne : lo ≠ hi) :
    queue N data lo hi = data (lo.toNat % N) :: queue N data (lo + 1#w) hi := by
  have hpos := toNat_sub_ne_zero hne
  have hlt := (hi - lo).isLt
  have hone : (1#w).toNat = 1 := by
    rw [BitVec.toNat_ofNat, Nat.mod_eq_of_lt]
    omega
  have hcount : (hi - (lo + 1#w)).toNat + 1 = (hi - lo).toNat := by
    have hsub : hi - (lo + 1#w) = hi - lo - 1#w := by
      rw [BitVec.sub_eq_add_neg, BitVec.neg_add, BitVec.sub_eq_add_neg hi, BitVec.sub_eq_add_neg,
        BitVec.sub_eq_add_neg, BitVec.add_assoc]
    rw [hsub, BitVec.toNat_sub_of_le (by rw [BitVec.le_def]; omega), hone]
    omega
  unfold queue
  rw [← hcount, range_succ_eq_map, map_cons, map_map]
  congr 1
  · rw [BitVec.add_zero]
  · refine map_congr_left fun k _ => ?_
    have hnext : lo + BitVec.ofNat w (k + 1) = lo + 1#w + BitVec.ofNat w k := by
      rw [BitVec.ofNat_add, BitVec.add_comm (BitVec.ofNat w k), ← BitVec.add_assoc]
    simp only [Function.comp, Nat.succ_eq_add_one, hnext]

theorem toNat_sub_split {mid : BitVec w} (hlt : (mid - lo).toNat + (hi - mid).toNat < 2 ^ w) :
    (hi - lo).toNat = (mid - lo).toNat + (hi - mid).toNat := by
  have hsum : hi - lo = (mid - lo) + (hi - mid) := by
    rw [BitVec.add_comm, BitVec.sub_eq_add_neg mid, ← BitVec.add_assoc, BitVec.sub_add_cancel,
      BitVec.sub_eq_add_neg]
  rw [hsum, BitVec.toNat_add, Nat.mod_eq_of_lt hlt]

/-- A queue in two parts. -/
theorem queue_append (N : Nat) (data : Nat → α) (mid : BitVec w)
    (hlt : (mid - lo).toNat + (hi - mid).toNat < 2 ^ w) :
    queue N data lo hi = queue N data lo mid ++ queue N data mid hi := by
  unfold queue
  rw [toNat_sub_split hlt, range_add, map_append, map_map]
  congr 1
  refine map_congr_left fun k _ => ?_
  have hcell : lo + BitVec.ofNat w ((mid - lo).toNat + k) = mid + BitVec.ofNat w k := by
    rw [BitVec.ofNat_add, BitVec.ofNat_toNat, BitVec.setWidth_eq, ← BitVec.add_assoc,
      BitVec.add_comm lo, BitVec.sub_add_cancel]
  simp only [Function.comp, hcell]

theorem toNat_pred_sub (hne : lo ≠ hi) : (hi - 1#w - lo).toNat + 1 = (hi - lo).toNat := by
  have hpos := toNat_sub_ne_zero hne
  have hlt := (hi - lo).isLt
  have hone : (1#w).toNat = 1 := by
    rw [BitVec.toNat_ofNat, Nat.mod_eq_of_lt]
    omega
  have hsub : hi - 1#w - lo = hi - lo - 1#w := by
    rw [BitVec.sub_eq_add_neg, BitVec.sub_eq_add_neg, BitVec.sub_eq_add_neg (hi - lo),
      BitVec.sub_eq_add_neg hi lo, BitVec.add_assoc, BitVec.add_assoc, BitVec.add_comm (-1#w)]
  rw [hsub, BitVec.toNat_sub_of_le (by rw [BitVec.le_def]; omega), hone]
  omega

/-- The newest element. -/
theorem queue_concat (N : Nat) (data : Nat → α) (hne : lo ≠ hi) :
    queue N data lo hi = queue N data lo (hi - 1#w) ++ [data ((hi - 1#w).toNat % N)] := by
  unfold queue
  rw [← toNat_pred_sub hne, range_succ, map_append, map_singleton,
    BitVec.ofNat_toNat, BitVec.setWidth_eq, BitVec.add_comm, BitVec.sub_add_cancel]

end Lib
