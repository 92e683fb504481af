import Mathlib.Data.Nat.Basic

/-!
# Xv6.Block — disk blocks and the 32-bit words in them

A block is `BSIZE` bytes. The log header and the indirect blocks are read and written as
arrays of 32-bit little-endian words; `getWord` and `setWord` are these accesses.
-/

namespace Xv6

/-- `BSIZE`. -/
def BSIZE : Nat := 1024

/-- The contents of one block. -/
abbrev Block : Type := Fin BSIZE → BitVec 8

namespace Block

/-- Byte `j`, and zero past the end. -/
def byte (b : Block) (j : Nat) : BitVec 8 := if h : j < BSIZE then b ⟨j, h⟩ else 0

/-- Word `i` of a block. -/
def getWord (b : Block) (i : Nat) : BitVec 32 :=
  b.byte (4 * i + 3) ++ b.byte (4 * i + 2) ++ b.byte (4 * i + 1) ++ b.byte (4 * i)

/-- The block with word `i` set to `v`. -/
def setWord (b : Block) (i : Nat) (v : BitVec 32) : Block := fun j =>
  if j.val / 4 = i then v.extractLsb' (8 * (j.val % 4)) 8 else b j

/-- The bytes of a word, put together again. -/
theorem append_bytes (v : BitVec 32) :
    v.extractLsb' 24 8 ++ v.extractLsb' 16 8 ++ v.extractLsb' 8 8 ++ v.extractLsb' 0 8 = v := by
  refine BitVec.eq_of_getLsbD_eq fun i hi => ?_
  -- the byte that bit `i` is in
  rcases (by omega : i < 8 ∨ 8 ≤ i ∧ i < 16 ∨ 16 ≤ i ∧ i < 24 ∨ 24 ≤ i) with h | h | h | h
  all_goals
    simp only [BitVec.getLsbD_append, BitVec.getLsbD_extractLsb']
    grind

theorem byte_setWord_same (b : Block) {i k : Nat} (v : BitVec 32) (hi : 4 * i + 4 ≤ BSIZE)
    (hk : k < 4) : (b.setWord i v).byte (4 * i + k) = v.extractLsb' (8 * k) 8 := by
  have hlt : 4 * i + k < BSIZE := by omega
  have hdiv : (4 * i + k) / 4 = i := by omega
  have hmod : (4 * i + k) % 4 = k := by omega
  simp [byte, setWord, hlt, hdiv, hmod]

theorem byte_setWord_other (b : Block) {i i' k : Nat} (v : BitVec 32) (hi : i' ≠ i)
    (hk : k < 4) : (b.setWord i v).byte (4 * i' + k) = b.byte (4 * i' + k) := by
  have hdiv : (4 * i' + k) / 4 ≠ i := by omega
  simp [byte, setWord, hdiv]

@[simp] theorem getWord_setWord_same (b : Block) {i : Nat} (v : BitVec 32)
    (hi : 4 * i + 4 ≤ BSIZE) : (b.setWord i v).getWord i = v := by
  have h0 := byte_setWord_same b v hi (by decide : 0 < 4)
  rw [Nat.add_zero] at h0
  rw [getWord, byte_setWord_same b v hi (by decide), byte_setWord_same b v hi (by decide),
    byte_setWord_same b v hi (by decide), h0]
  exact append_bytes v

theorem getWord_setWord_other (b : Block) {i i' : Nat} (v : BitVec 32) (hi : i' ≠ i) :
    (b.setWord i v).getWord i' = b.getWord i' := by
  have h0 := byte_setWord_other b v hi (by decide : 0 < 4)
  rw [Nat.add_zero] at h0
  rw [getWord, byte_setWord_other b v hi (by decide), byte_setWord_other b v hi (by decide),
    byte_setWord_other b v hi (by decide), h0]
  rfl

end Block

end Xv6
