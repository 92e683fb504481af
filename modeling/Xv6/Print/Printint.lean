import Mathlib.Algebra.GroupWithZero.Nat
import Mathlib.Data.Int.Basic

/-!
# Xv6.Print.Printint — numbers on the console and on a file descriptor

`printint` of kernel/printf.c and of user/printf.c divides its argument down into a buffer of
twenty bytes and prints the buffer backwards. Twenty bytes are exactly what the largest unsigned
and the most negative signed number take in base 10.
-/

namespace Xv6.Print

open List

/-- The canonical numeral of `v` in base `b`, the most significant digit first. -/
def numeral (b : ℕ) : ℤ → List Char
  | .ofNat n => Nat.toDigits b n
  | .negSucc n => '-' :: Nat.toDigits b (n + 1)

theorem numeral_neg (b : ℕ) {n : ℕ} (hn : 0 < n) :
    numeral b (-(n : ℤ)) = '-' :: Nat.toDigits b n := by
  obtain ⟨m, rfl⟩ := Nat.exists_eq_succ_of_ne_zero (Nat.pos_iff_ne_zero.mp hn)
  rfl

/-! ## The source -/

/-- `buf[i++] = c` in `char buf[20]`, whose first bytes are `buf`; `none` is a store past it. -/
def store (buf : List Char) (c : Char) : Option (List Char) :=
  if buf.length < 20 then some (buf ++ [c]) else none

/-- The loop `do buf[i++] = digits[x % base]; while ((x /= base) != 0)`. -/
def digitLoop (digits : List Char) (base x : BitVec 64) (buf : List Char) : Option (List Char) :=
  if buf.length < 20 then
    let buf := buf ++ [digits.getD (x % base).toNat '\x00']
    if x / base = 0 then some buf else digitLoop digits base (x / base) buf
  else none
termination_by 20 - buf.length
decreasing_by simp only [length_append, length_singleton]; omega

/-- `printint` with the digits of `digits`: what it prints, the first character first. -/
def printint (digits : List Char) (xx : BitVec 64) (base sign : BitVec 32) :
    Option (List Char) := do
  let neg := sign ≠ 0 ∧ xx.slt 0
  -- `-xx` of the most negative number is that number again, read unsigned from here on
  let x := if neg then -xx else xx
  let buf ← digitLoop digits (base.signExtend 64) x []
  let buf ← if neg then store buf '-' else some buf
  return buf.reverse

/-- `printint` of kernel/printf.c. -/
def Kernel.printint := Print.printint "0123456789abcdef".toList

/-- `printint` of user/printf.c. -/
def User.printint := Print.printint "0123456789ABCDEF".toList

/-! ## The loop -/

/-- With room for its digits the loop appends the numeral of `x`, the last digit first. -/
theorem digitLoop_eq {digits : List Char} {f : Char → Char} (base : BitVec 64)
    (hbase : 1 < base.toNat) (hdigits : ∀ d < base.toNat, digits.getD d '\x00' = f d.digitChar)
    (x : BitVec 64) (buf : List Char)
    (hroom : buf.length + (Nat.toDigits base.toNat x.toNat).length ≤ 20) :
    digitLoop digits base x buf =
      some (buf ++ ((Nat.toDigits base.toNat x.toNat).map f).reverse) := by
  have hchar : digits.getD (x % base).toNat '\x00' = f (x.toNat % base.toNat).digitChar :=
    hdigits _ (Nat.mod_lt _ (by omega))
  have hpos := Nat.length_toDigits_pos (b := base.toNat) (n := x.toNat)
  rw [digitLoop, if_pos (by omega), hchar]
  have hzero : x / base = 0 ↔ x.toNat < base.toNat := by
    rw [← BitVec.toNat_inj, BitVec.toNat_udiv]
    exact Nat.div_eq_zero_iff_lt (by omega)
  by_cases hlt : x.toNat < base.toNat
  · simp [hzero.mpr hlt, Nat.toDigits_of_lt_base hlt, Nat.mod_eq_of_lt hlt]
  · -- one more digit: the rest of the loop prints `x / base` behind it
    have hsplit := Nat.toDigits_of_base_le hbase (not_lt.mp hlt)
    rw [hsplit, length_append] at hroom
    have hdec : x.toNat / base.toNat < x.toNat := Nat.div_lt_self (by omega) hbase
    rw [if_neg (hzero.not.mpr hlt), digitLoop_eq base hbase hdigits (x / base) _
      (by simpa [Nat.add_assoc, Nat.add_comm] using hroom)]
    simp [hsplit]
termination_by x.toNat
decreasing_by simpa using hdec

/-- How `printint` reads its argument: signed when the flag is set. -/
def reading (xx : BitVec 64) (sign : BitVec 32) : ℤ := if sign ≠ 0 then xx.toInt else xx.toNat

theorem toInt_of_slt {xx : BitVec 64} (h : xx.slt 0) :
    xx.toInt = -((-xx).toNat : ℤ) ∧ 0 < (-xx).toNat ∧ (-xx).toNat ≤ 2 ^ 63 := by
  have hneg : xx.toInt < 0 := by simpa [BitVec.slt] using h
  have := xx.isLt
  rw [BitVec.toInt_eq_toNat_cond] at hneg ⊢
  rw [BitVec.toNat_neg]
  split at hneg <;> omega

/-- `printint` with digits that are `f` of the usual ones prints `f` of the numeral. -/
theorem printint_eq (digits : List Char) {f : Char → Char} {base : BitVec 32}
    (hbase : base = 10 ∨ base = 16)
    (hdigits : ∀ d < base.toNat, digits.getD d '\x00' = f d.digitChar) (hsign : f '-' = '-')
    (xx : BitVec 64) (sign : BitVec 32) :
    printint digits xx base sign = some ((numeral base.toNat (reading xx sign)).map f) := by
  have hwide : (base.signExtend 64).toNat = base.toNat := by rcases hbase with rfl | rfl <;> rfl
  have hten : 10 ≤ base.toNat := by rcases hbase with rfl | rfl <;> decide
  have hlen {n e : ℕ} (he : 0 < e) (hn : n < 10 ^ e) : (Nat.toDigits base.toNat n).length ≤ e :=
    (Nat.length_toDigits_le_iff (by omega) he).mpr
      (lt_of_lt_of_le hn (Nat.pow_le_pow_left hten e))
  have hloop := digitLoop_eq (base.signExtend 64) (by omega) (hwide ▸ hdigits)
  rw [hwide] at hloop
  by_cases hneg : sign ≠ 0 ∧ xx.slt 0
  · -- a sign and at most nineteen digits
    obtain ⟨hint, hpos, hle⟩ := toInt_of_slt hneg.2
    have hdig := hlen (n := (-xx).toNat) (e := 19) (by decide) (by omega)
    have hstore {l : List Char} (hl : l.length ≤ 19) :
        store (l.map f).reverse '-' = some ((l.map f).reverse ++ ['-']) :=
      if_pos (by rw [length_reverse, length_map]; omega)
    simp only [printint, reading, if_pos hneg, if_pos hneg.1, hint, numeral_neg _ hpos,
      hloop (-xx) [] (by rw [length_nil]; omega), nil_append, Option.bind_eq_bind,
      Option.bind_some, hstore hdig, map_cons, hsign]
    simp
  · have hdig := hlen (n := xx.toNat) (e := 20) (by decide) (by have := xx.isLt; omega)
    have hread : reading xx sign = xx.toNat := by
      unfold reading
      split
      · rename_i hs
        exact BitVec.toInt_eq_toNat_of_msb (by simpa [BitVec.slt_zero_eq_msb] using not_and.mp hneg hs)
      · rfl
    simp only [printint, hread, if_neg hneg, hloop xx [] (by rw [length_nil]; omega)]
    simp [numeral]

/-- Both functions keep to their twenty bytes and print the numeral of their
argument; the user's digits are the upper-case ones. -/
theorem printint_numeral (xx : BitVec 64) (base sign : BitVec 32) (hbase : base = 10 ∨ base = 16) :
    Kernel.printint xx base sign = some (numeral base.toNat (reading xx sign)) ∧
      User.printint xx base sign =
        some ((numeral base.toNat (reading xx sign)).map Char.toUpper) := by
  constructor
  · have h := printint_eq "0123456789abcdef".toList (f := id) hbase
      (by rcases hbase with rfl | rfl <;> decide) rfl xx sign
    exact h.trans (by rw [map_id])
  · exact printint_eq _ hbase (by rcases hbase with rfl | rfl <;> decide) (by decide) xx sign

/-- The most negative number fills the buffer. -/
theorem printint_numeral_min :
    Kernel.printint (BitVec.intMin 64) 10 1 = some "-9223372036854775808".toList := by
  have h := (printint_numeral (BitVec.intMin 64) 10 1 (.inl rfl)).1
  exact h.trans (by decide)

end Xv6.Print
