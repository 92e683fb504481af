import Mathlib.Tactic.Common

/-!
# Xv6.Lib.Slots — a finite map in an array of slots

Pairs of a key and a value stand in slots, some of which are empty. A pair is put in the first
empty slot, and behind the last slot only if there is none. As long as no key is put that is
there already, the array is a map: every key is in one slot at most, and putting and clearing
change the value of one key.
-/

namespace Lib

open List

abbrev Slots (κ β : Type) := List (Option (κ × β))

namespace Slots

variable {κ β : Type} {l l' : Slots κ β} {k k' : κ} {b c : β} {i j : Nat}

/-- Slot `i` holds the value `b` of the key `k`. -/
def Has (l : Slots κ β) (i : Nat) (k : κ) (b : β) : Prop := l[i]? = some (some (k, b))

/-- No key is in two slots. -/
def Distinct (l : Slots κ β) : Prop := ∀ i j k b c, l.Has i k b → l.Has j k c → i = j

/-- The first empty slot, or the one behind the last. -/
def free (l : Slots κ β) : Nat := l.findIdx Option.isNone

def put (l : Slots κ β) (k : κ) (b : β) : Slots κ β :=
  if l.free < l.length then l.set l.free (some (k, b)) else l ++ [some (k, b)]

def clear (l : Slots κ β) (i : Nat) : Slots κ β := l.set i none

/-- The value of a key, and its slot. -/
def lookup [DecidableEq κ] : Slots κ β → κ → Option (β × Nat)
  | [], _ => none
  | x :: l, k =>
    match x with
    | some (k', b) => if k' = k then some (b, 0) else (lookup l k).map fun y => (y.1, y.2 + 1)
    | none => (lookup l k).map fun y => (y.1, y.2 + 1)

/-! ## Slots -/

theorem free_le (l : Slots κ β) : l.free ≤ l.length := findIdx_le_length

theorem not_has_free : ¬ l.Has l.free k b := by
  intro h
  have hlt : l.free < l.length := (List.getElem?_eq_some_iff.mp h).1
  have hnone : (l.get ⟨l.free, hlt⟩).isNone = true := findIdx_getElem (w := hlt)
  rw [Has, getElem?_eq_getElem hlt, Option.some.injEq] at h
  rw [get_eq_getElem, h] at hnone
  cases hnone

/-- The slots before the first empty one are in use. -/
theorem has_of_lt_free (h : i < l.free) : ∃ k b, l.Has i k b := by
  have hlt : i < l.length := Nat.lt_of_lt_of_le h l.free_le
  have hsome : (l.get ⟨i, hlt⟩).isNone = false := by
    have hnot := not_of_lt_findIdx h
    simpa using hnot
  cases hx : l.get ⟨i, hlt⟩ with
  | none =>
    rw [hx] at hsome
    cases hsome
  | some x =>
    refine ⟨x.1, x.2, ?_⟩
    rw [Has, getElem?_eq_getElem hlt]
    exact congrArg some hx

/-- An empty slot is not before the first one. -/
theorem free_le_of_empty (h : l[i]? = some none) : l.free ≤ i := by
  by_contra hlt
  obtain ⟨k, b, hhas⟩ := has_of_lt_free (Nat.lt_of_not_le hlt)
  rw [Has, h] at hhas
  cases hhas

theorem getElem?_put (l : Slots κ β) (k : κ) (b : β) (i : Nat) :
    (l.put k b)[i]? = if i = l.free then some (some (k, b)) else l[i]? := by
  unfold put
  split
  · next h =>
    rw [getElem?_set]
    by_cases hi : l.free = i
    · rw [if_pos hi, if_pos hi.symm, if_pos h]
    · rw [if_neg hi, if_neg (Ne.symm hi)]
  · next h =>
    have hfree : l.free = l.length := Nat.le_antisymm l.free_le (Nat.le_of_not_lt h)
    rw [hfree, getElem?_append]
    split
    · next hi => rw [if_neg (by omega)]
    next hi =>
    by_cases heq : i = l.length
    · rw [if_pos heq, heq, Nat.sub_self]
      rfl
    · have hout : [some (k, b)][i - l.length]? = none := by
        rw [getElem?_eq_none]
        rw [length_singleton]
        omega
      rw [if_neg heq, hout, getElem?_eq_none (l := l) (by omega)]

theorem has_put : (l.put k b).Has i k' c ↔ if i = l.free then k' = k ∧ c = b else l.Has i k' c := by
  rw [Has, getElem?_put]
  split
  · simp [eq_comm]
  · exact Iff.rfl

theorem has_clear : (l.clear i).Has j k b ↔ j ≠ i ∧ l.Has j k b := by
  rw [clear, Has, getElem?_set]
  by_cases hj : i = j
  · rw [if_pos hj]
    constructor
    · intro h
      split at h <;> cases h
    · exact fun h => absurd hj.symm h.1
  · rw [if_neg hj]
    exact ⟨fun h => ⟨Ne.symm hj, h⟩, And.right⟩

theorem Distinct.put (h : l.Distinct) (hk : ∀ i c, ¬ l.Has i k c) : (l.put k b).Distinct := by
  intro i j k' c d hi hj
  rw [has_put] at hi hj
  by_cases hif : i = l.free
  · by_cases hjf : j = l.free
    · rw [hif, hjf]
    · rw [if_pos hif] at hi
      rw [if_neg hjf, hi.1] at hj
      exact absurd hj (hk j d)
  · rw [if_neg hif] at hi
    by_cases hjf : j = l.free
    · rw [if_pos hjf] at hj
      rw [hj.1] at hi
      exact absurd hi (hk i c)
    · rw [if_neg hjf] at hj
      exact h i j k' c d hi hj

theorem Distinct.clear (h : l.Distinct) (i : Nat) : (l.clear i).Distinct := by
  intro j j' k b c hj hj'
  rw [has_clear] at hj hj'
  exact h j j' k b c hj.2 hj'.2

/-! ## Lookups -/

theorem has_cons {x : Option (κ × β)} : Has (x :: l) (i + 1) k b ↔ l.Has i k b := by
  rw [Has, getElem?_cons_succ]
  rfl

section
variable [DecidableEq κ]

/-- The lookup in the rest of the slots. -/
theorem lookup_cons {x : Option (κ × β)} (hx : ∀ b, x ≠ some (k, b)) :
    lookup (x :: l) k = (l.lookup k).map fun y => (y.1, y.2 + 1) := by
  cases x with
  | none => rfl
  | some y =>
    obtain ⟨k', b⟩ := y
    have hne : k' ≠ k := by
      rintro rfl
      exact hx b rfl
    rw [lookup, if_neg hne]

theorem lookup_eq_none : l.lookup k = none ↔ ∀ j c, ¬ l.Has j k c := by
  induction l with
  | nil => simp [lookup, Has]
  | cons x l ih =>
    by_cases hx : ∃ b, x = some (k, b)
    · obtain ⟨b, rfl⟩ := hx
      rw [lookup, if_pos rfl]
      exact ⟨nofun, fun h => absurd rfl (h 0 b)⟩
    have hne : ∀ b, x ≠ some (k, b) := fun b hb => hx ⟨b, hb⟩
    rw [lookup_cons hne, Option.map_eq_none_iff, ih]
    constructor
    · intro h j c hj
      cases j with
      | zero => exact hne c (Option.some.inj hj)
      | succ j => exact h j c (has_cons.mp hj)
    · exact fun h j c hj => h (j + 1) c (has_cons.mpr hj)

/-- The first slot with the key. -/
theorem lookup_eq_some : l.lookup k = some (b, i) ↔
    l.Has i k b ∧ ∀ j < i, ∀ c, ¬ l.Has j k c := by
  induction l generalizing i with
  | nil => simp [lookup, Has]
  | cons x l ih =>
    by_cases hx : ∃ b, x = some (k, b)
    · obtain ⟨c, rfl⟩ := hx
      rw [lookup, if_pos rfl]
      constructor
      · intro h
        cases h
        exact ⟨rfl, nofun⟩
      · intro h
        cases i with
        | zero =>
          obtain ⟨⟩ := h.1
          rfl
        | succ i => exact absurd rfl (h.2 0 (Nat.succ_pos i) c)
    · have hne : ∀ b, x ≠ some (k, b) := fun b hb => hx ⟨b, hb⟩
      rw [lookup_cons hne]
      cases i with
      | zero =>
        constructor
        · intro h
          obtain ⟨y, -, hy⟩ := Option.map_eq_some_iff.mp h
          cases (congrArg Prod.snd hy : y.2 + 1 = 0)
        · exact fun h => absurd (Option.some.inj h.1) (hne b)
      | succ i =>
        have hmap : (lookup l k).map (fun y => (y.1, y.2 + 1)) = some (b, i + 1) ↔
            lookup l k = some (b, i) := by
          cases lookup l k with
          | none => simp
          | some y => simp [Prod.ext_iff]
        rw [hmap, ih]
        refine and_congr has_cons.symm ⟨fun h j hj c hc => ?_, fun h j hj c hc => ?_⟩
        · cases j with
          | zero => exact hne c (Option.some.inj hc)
          | succ j => exact h j (by omega) c (has_cons.mp hc)
        · exact h (j + 1) (by omega) c (has_cons.mpr hc)

/-- A lookup depends on the slots that hold the key. -/
theorem lookup_congr (h : ∀ i c, l.Has i k c ↔ l'.Has i k c) : l.lookup k = l'.lookup k := by
  cases hl : l'.lookup k with
  | none =>
    rw [lookup_eq_none] at hl ⊢
    exact fun j c hj => hl j c ((h j c).mp hj)
  | some y =>
    obtain ⟨b, i⟩ := y
    rw [lookup_eq_some] at hl ⊢
    exact ⟨(h i b).mpr hl.1, fun j hj c hc => hl.2 j hj c ((h j c).mp hc)⟩

theorem lookup_put_self (hk : l.lookup k = none) : (l.put k b).lookup k = some (b, l.free) := by
  rw [lookup_eq_none] at hk
  rw [lookup_eq_some]
  refine ⟨has_put.mpr (by rw [if_pos rfl]; exact ⟨rfl, rfl⟩), fun j hj c hc => ?_⟩
  rw [has_put, if_neg (by omega)] at hc
  exact hk j c hc

theorem lookup_put_of_ne (hne : k' ≠ k) : (l.put k b).lookup k' = l.lookup k' := by
  refine lookup_congr fun i c => ?_
  rw [has_put]
  split
  · next hi =>
    rw [hi]
    exact ⟨fun h => absurd h.1 hne, fun h => absurd h not_has_free⟩
  · exact Iff.rfl

theorem lookup_clear_self (h : l.Distinct) (hk : l.lookup k = some (b, i)) :
    (l.clear i).lookup k = none := by
  rw [lookup_eq_some] at hk
  rw [lookup_eq_none]
  intro j c hj
  rw [has_clear] at hj
  exact hj.1 (h j i k c b hj.2 hk.1)

theorem lookup_clear_of_ne (hk : l.lookup k = some (b, i)) (hne : k' ≠ k) :
    (l.clear i).lookup k' = l.lookup k' := by
  rw [lookup_eq_some] at hk
  refine lookup_congr fun j c => ?_
  rw [has_clear]
  refine ⟨And.right, fun hj => ⟨?_, hj⟩⟩
  rintro rfl
  obtain ⟨hkey, -⟩ := Prod.mk.inj (Option.some.inj (Option.some.inj (hj.symm.trans hk.1)))
  exact hne hkey

end

end Slots

end Lib
