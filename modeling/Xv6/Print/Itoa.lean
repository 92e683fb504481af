import Xv6.Print.Printint

/-!
# Xv6.Print.Itoa — numbers as strings in user/ulib.c

`itoa` divides a signed number down and turns the digits round in place. A negative number that
reaches the division, the most negative one in base 10 and any in base 16, has negative
remainders, and these give characters below `'0'`.
-/

namespace Xv6.Print

open List

/-! ## The source -/

/-- The loop of `reverse`: `str[i]` and `str[j]` change places. -/
def reverse.loop (str : List Char) (i j : ℕ) : List Char :=
  if i < j then
    loop ((str.set i (str.getD j '\x00')).set j (str.getD i '\x00')) (i + 1) (j - 1)
  else str
termination_by j - i

def reverse (str : List Char) (len : ℕ) : List Char := reverse.loop str 0 (len - 1)

/-- `(rem > 9) ? (rem - 10) + 'a' : rem + '0'`. -/
def digit (rem : ℤ) : Char := Char.ofNat (if rem > 9 then rem - 10 + 97 else rem + 48).toNat

/-- The loop `while (value != 0)` of `itoa`, for the bases that it supports. -/
def itoa.loop {base : ℤ} (hbase : base = 10 ∨ base = 16) (value : ℤ) (str : List Char) :
    List Char :=
  if value = 0 then str
  else loop hbase (value.tdiv base) (str ++ [digit (value.tmod base)])
termination_by value.natAbs
decreasing_by
  rw [Int.natAbs_tdiv]
  exact Nat.div_lt_self (by omega) (by omega)

/-- `itoa`: the bytes that it leaves in `str`, or `none` for another base. -/
def itoa (value : BitVec 32) (base : ℤ) : Option (List Char) :=
  if hbase : base = 10 ∨ base = 16 then
    if value = 0 then some ['0', '\x00']
    else
      let is_negative := value.toInt < 0 ∧ base = 10
      let value := if is_negative then -value else value
      let str := itoa.loop hbase value.toInt []
      let str := if is_negative then str ++ ['-'] else str
      some (reverse (str ++ ['\x00']) str.length)
  else none

def atoi.loop (n : BitVec 32) : List Char → BitVec 32
  | [] => n
  | c :: s =>
    if '0' ≤ c ∧ c ≤ '9' then loop (n * 10 + BitVec.ofNat 32 c.toNat - 48) s else n

def atoi (s : List Char) : BitVec 32 := atoi.loop 0 s

/-! ## reverse -/

theorem getElem?_reverse_loop (str : List Char) (i j : ℕ) (hj : j < str.length) (k : ℕ) :
    (reverse.loop str i j)[k]? = if i ≤ k ∧ k ≤ j then str[i + j - k]? else str[k]? := by
  fun_induction reverse.loop str i j with
  | case1 str i j hlt ih =>
    rw [ih (by simp; omega)]
    simp only [getElem?_set, getD_eq_getElem?_getD]
    grind
  | case2 str i j hle => grind

theorem reverse_append (l r : List Char) : reverse (l ++ r) l.length = l.reverse ++ r := by
  by_cases hl : l = []
  · subst hl
    rw [reverse, reverse.loop, if_neg (by decide)]
    rfl
  have hpos := length_pos_iff.mpr hl
  refine ext_getElem? fun k => ?_
  rw [reverse, getElem?_reverse_loop _ _ _ (by simp; omega)]
  grind

/-! ## The digits -/

theorem le_of_mem_toDigits {b : ℕ} (h1 : 1 < b) (h16 : b ≤ 16) (n : ℕ) {c : Char}
    (hc : c ∈ Nat.toDigits b n) : 48 ≤ c.toNat := by
  have hdigit : ∀ d < 16, 48 ≤ d.digitChar.toNat := by decide
  rw [Nat.toDigits_eq_if h1] at hc
  split at hc
  · rw [mem_singleton.mp hc]
    exact hdigit n (by omega)
  · have hdec : n / b < n := Nat.div_lt_self (by omega) h1
    rcases mem_append.mp hc with hc | hc
    · exact le_of_mem_toDigits h1 h16 (n / b) hc
    · rw [mem_singleton.mp hc]
      exact hdigit _ (by have := Nat.mod_lt n (y := b) (by omega); omega)
termination_by n

section
variable {base : ℤ} {b : ℕ} (hbase : base = 10 ∨ base = 16) (hb : base = b)
include hb

/-- A positive number leaves its numeral, the last digit first. -/
theorem itoa_loop_pos (n : ℕ) (hn : 0 < n) (str : List Char) :
    itoa.loop hbase n str = str ++ (Nat.toDigits b n).reverse := by
  have h16 : 1 < b ∧ b ≤ 16 := by omega
  have hdigit : digit ((n : ℤ).tmod base) = (n % b).digitChar := by
    rw [hb, ← Int.ofNat_tmod]
    have hlt : n % b < 16 := by have := Nat.mod_lt n (y := b) (by omega); omega
    generalize n % b = d at hlt
    revert d
    decide
  rw [itoa.loop, if_neg (by omega), hdigit]
  have hdiv : (n : ℤ).tdiv base = (n / b : ℕ) := by rw [hb, ← Int.ofNat_tdiv]
  rw [hdiv]
  by_cases hlt : n < b
  · rw [Nat.div_eq_of_lt hlt, itoa.loop, if_pos (by rfl), Nat.toDigits_of_lt_base hlt,
      Nat.mod_eq_of_lt hlt]
    rfl
  · have hdec : n / b < n := Nat.div_lt_self hn h16.1
    rw [itoa_loop_pos (n / b) (Nat.div_pos (by omega) (by omega)),
      Nat.toDigits_of_base_le (n := n) h16.1 (by omega)]
    simp
termination_by n

/-- A negative number leaves a character below `'0'`, its first digit. -/
theorem itoa_loop_neg (n : ℕ) (hn : 0 < n) (str : List Char) :
    ∃ c ∈ itoa.loop hbase (-(n : ℤ)) str, c.toNat < 48 := by
  have hdiv : (-(n : ℤ)).tdiv base = -(n / b : ℕ) := by rw [Int.neg_tdiv, hb, ← Int.ofNat_tdiv]
  rw [itoa.loop, if_neg (by omega), hdiv]
  by_cases hlt : n < b
  · rw [Nat.div_eq_of_lt hlt, itoa.loop, if_pos (by rfl), Int.neg_tmod, hb, ← Int.ofNat_tmod,
      Nat.mod_eq_of_lt hlt]
    have hlow : ∀ d : ℕ, d < 16 → 0 < d → (digit (-(d : ℤ))).toNat < 48 := by decide
    exact ⟨_, mem_append_right _ (mem_singleton_self _), hlow n (by omega) hn⟩
  · have hdec : n / b < n := Nat.div_lt_self hn (by omega)
    exact itoa_loop_neg (n / b) (Nat.div_pos (by omega) (by omega)) _
termination_by n

theorem itoa_loop_neg_ne (n : ℕ) (hn : 0 < n) (m : ℕ) :
    (itoa.loop hbase (-(n : ℤ)) []).reverse ≠ Nat.toDigits b m := by
  intro heq
  obtain ⟨c, hmem, hc⟩ := itoa_loop_neg hbase hb n hn []
  have := le_of_mem_toDigits (b := b) (by omega) (by omega) m (c := c) (by rw [← heq]; simpa)
  omega

end

/-- `atoi` reads the digits before the NUL. -/
theorem atoi_loop_digits (s : List Char) (hs : ∀ c ∈ s, c.isDigit = true) (n : ℕ) :
    atoi.loop (BitVec.ofNat 32 n) (s ++ ['\x00']) = BitVec.ofNat 32 (Nat.ofDigitChars 10 s n) := by
  induction s generalizing n with
  | nil => rfl
  | cons c s ih =>
    have hc : '0' ≤ c ∧ c ≤ '9' := by
      simpa [Char.isDigit, Char.le_def] using hs c mem_cons_self
    have h48 : 48 ≤ c.toNat := hc.1
    rw [cons_append, atoi.loop, if_pos hc, Nat.ofDigitChars_cons,
      ← ih fun d hd => hs d (mem_cons_of_mem _ hd)]
    congr 1
    apply BitVec.eq_of_toNat_eq
    simp
    omega

/-! ## Strings -/

theorem itoa_of_ne {base : ℤ} (hbase : base = 10 ∨ base = 16) {value : BitVec 32} (h0 : value ≠ 0) :
    itoa value base = some ((if value.toInt < 0 ∧ base = 10 then
      '-' :: (itoa.loop hbase (-value).toInt []).reverse
      else (itoa.loop hbase value.toInt []).reverse) ++ ['\x00']) := by
  rw [itoa, dif_pos hbase, if_neg h0]
  simp only [reverse_append]
  split <;> simp

section
variable (value : BitVec 32)

theorem toInt_cases :
    value.toInt = value.toNat ∧ value.toNat < 2 ^ 31 ∨
      ∃ n : ℕ, 0 < n ∧ n ≤ 2 ^ 31 ∧ value.toInt = -(n : ℤ) := by
  have := value.isLt
  rw [BitVec.toInt_eq_toNat_cond]
  split
  · exact .inl ⟨rfl, by omega⟩
  · exact .inr ⟨2 ^ 32 - value.toNat, by omega, by omega, by omega⟩

theorem itoa_ten :
    itoa value 10 = some (numeral 10 value.toInt ++ ['\x00']) ↔ value ≠ BitVec.intMin 32 := by
  by_cases h0 : value = 0
  · subst h0
    decide
  rw [itoa_of_ne (.inl rfl) h0, Option.some_inj, append_cancel_right_eq]
  rcases toInt_cases value with ⟨hint, hlt⟩ | ⟨n, hn, hle, hint⟩
  · have hpos : 0 < value.toNat := Nat.pos_of_ne_zero (BitVec.toNat_ne_iff_ne.mpr h0)
    rw [if_neg (by omega), hint, itoa_loop_pos _ (b := 10) rfl _ hpos, nil_append,
      reverse_reverse]
    refine iff_of_true rfl ?_
    rintro rfl
    exact absurd hlt (by decide)
  · rw [if_pos ⟨by omega, rfl⟩, hint, numeral_neg _ hn, cons_inj_right]
    by_cases hmin : value = BitVec.intMin 32
    · -- the negation of the most negative number is that number
      rw [hmin, BitVec.neg_intMin, ← hmin, hint]
      exact iff_of_false (itoa_loop_neg_ne _ rfl n hn n) fun h => h rfl
    · rw [BitVec.toInt_neg_of_ne_intMin hmin, hint, Int.neg_neg,
        itoa_loop_pos _ (b := 10) rfl _ hn]
      exact iff_of_true (by simp) hmin

theorem itoa_sixteen :
    itoa value 16 = some (numeral 16 value.toNat ++ ['\x00']) ↔ 0 ≤ value.toInt := by
  by_cases h0 : value = 0
  · subst h0
    decide
  rw [itoa_of_ne (.inr rfl) h0, if_neg (by omega), Option.some_inj, append_cancel_right_eq]
  rcases toInt_cases value with ⟨hint, -⟩ | ⟨n, hn, -, hint⟩
  · rw [hint, itoa_loop_pos _ (b := 16) rfl _
      (Nat.pos_of_ne_zero (BitVec.toNat_ne_iff_ne.mpr h0))]
    exact iff_of_true (by simp [numeral]) (by omega)
  · rw [hint]
    exact iff_of_false (itoa_loop_neg_ne _ rfl n hn _) (by omega)

end

/-- In base 10 `itoa` writes the numeral that `%d` prints, in at most twelve bytes, but for
the most negative number; in base 16 it writes the digits of every number that is not negative.
`atoi` reads a numeral back. -/
theorem itoa_exact (value : BitVec 32) :
    (itoa value 10 = some (numeral 10 value.toInt ++ ['\x00']) ↔ value ≠ BitVec.intMin 32) ∧
    (itoa value 16 = some (numeral 16 value.toNat ++ ['\x00']) ↔ 0 ≤ value.toInt) ∧
    User.printint (value.signExtend 64) 10 1 = some (numeral 10 value.toInt) ∧
    (numeral 10 value.toInt ++ ['\x00']).length ≤ 12 ∧
    (0 ≤ value.toInt → atoi (numeral 10 value.toInt ++ ['\x00']) = value) := by
  have hprint := printint_eq "0123456789ABCDEF".toList (f := id) (.inl rfl)
    (by decide) rfl (value.signExtend 64) 1
  rw [map_id, reading, if_pos (by decide), BitVec.toInt_signExtend_of_le (by decide)]
    at hprint
  have hlen {n : ℕ} (hn : n ≤ 2 ^ 31) : (Nat.toDigits 10 n).length ≤ 10 :=
    (Nat.length_toDigits_le_iff (by decide) (by decide)).mpr (by omega)
  refine ⟨?_, ?_, hprint, ?_, fun hnonneg => ?_⟩
  · exact itoa_ten value
  · exact itoa_sixteen value
  · rw [length_append, length_singleton]
    rcases toInt_cases value with ⟨hint, hlt⟩ | ⟨n, hn, hle, hint⟩
    · have := hlen (n := value.toNat) (by omega)
      rw [hint]
      exact Nat.succ_le_of_lt (lt_of_le_of_lt this (by decide))
    · rw [hint, numeral_neg _ hn, length_cons]
      exact Nat.succ_le_succ (Nat.succ_le_succ (hlen hle))
  · rcases toInt_cases value with ⟨hint, -⟩ | ⟨n, hn, -, hint⟩
    · rw [hint]
      have h := atoi_loop_digits (Nat.toDigits 10 value.toNat)
        (fun c => Nat.isDigit_of_mem_toDigits (by decide) (by decide)) 0
      rw [Nat.ofDigitChars_toDigits (by decide) (by decide), BitVec.ofNat_toNat,
        BitVec.setWidth_eq] at h
      exact h
    · omega

/-- The most negative number in base 10, and a negative one in base 16. -/
theorem itoa_wrong :
    itoa (BitVec.intMin 32) 10 ≠ some "-2147483648\x00".toList ∧
      itoa (-1) 16 ≠ some "ffffffff\x00".toList :=
  ⟨fun h => (itoa_ten _).mp (h.trans (by decide)) rfl,
    fun h => absurd ((itoa_sixteen (-1)).mp (h.trans (by decide))) (by decide)⟩

theorem itoa_exact_minus_ten : itoa (-10) 10 = some "-10\x00".toList :=
  ((itoa_exact (-10)).1.mpr (by decide)).trans (by decide)

end Xv6.Print
