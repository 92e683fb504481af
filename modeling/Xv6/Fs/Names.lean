import Xv6.Fs.Lookup

/-!
# Xv6.Fs.Names — names in memory

The string routines of kernel/string.c that handle names: `strncmp` and `strncpy` on bytes in
memory, with the pointer as a function from offsets to bytes. Names have at most `DIRSIZ` bytes
and no NUL behind the last one if they have `DIRSIZ`, in the entries of a directory as well as
in the buffer that `skipelem` fills. What the routines agree on is the name: the bytes before
the first NUL, `DIRSIZ` at most.
-/

namespace Xv6.Fs

open List

/-- `strncmp(p, q, n)` -/
def strncmp (p q : Nat → Byte) : Nat → Int
  | 0 => 0
  | n + 1 =>
    if p 0 ≠ 0 ∧ p 0 = q 0 then strncmp (fun k => p (k + 1)) (fun k => q (k + 1)) n
    else (p 0).toNat - (q 0).toNat

/-- The `n` bytes that `strncpy(s, t, n)` writes. -/
def strncpy (t : Nat → Byte) : Nat → List Byte
  | 0 => []
  | n + 1 =>
    if t 0 = 0 then 0 :: List.replicate n 0 else t 0 :: strncpy (fun k => t (k + 1)) n

def namecmp (s t : Nat → Byte) : Int := strncmp s t DIRSIZ

/-- The bytes before the first NUL, `n` at most. -/
def cstr (p : Nat → Byte) : Nat → List Byte
  | 0 => []
  | n + 1 => if p 0 = 0 then [] else p 0 :: cstr (fun k => p (k + 1)) n

/-- The name at `p`. -/
def cut (p : Nat → Byte) : Name := cstr p DIRSIZ

/-- What `skipelem` leaves in the buffer `name` for an element of the path. -/
def copyelem (name : Nat → Byte) (elem : List Byte) : Nat → Byte := fun k =>
  if DIRSIZ ≤ elem.length then if k < DIRSIZ then elem.getD k 0 else name k
  else if k < elem.length then elem.getD k 0 else if k = elem.length then 0 else name k

section
variable {p q : Nat → Byte} {n : Nat}

theorem length_cstr_le (p : Nat → Byte) (n : Nat) : (cstr p n).length ≤ n := by
  induction n generalizing p with
  | zero => exact Nat.le_refl 0
  | succ n ih =>
    rw [cstr]
    split
    · exact Nat.zero_le _
    · rw [length_cons]
      exact Nat.succ_le_succ (ih _)

theorem zero_not_mem_cstr (p : Nat → Byte) (n : Nat) : (0 : Byte) ∉ cstr p n := by
  induction n generalizing p with
  | zero => exact not_mem_nil
  | succ n ih =>
    rw [cstr]
    split
    · exact not_mem_nil
    · next h0 =>
      rw [mem_cons]
      rintro (h | h)
      · exact h0 h.symm
      · exact ih _ h

/-- `strncmp` compares what stands before the NUL. -/
theorem strncmp_eq_zero : strncmp p q n = 0 ↔ cstr p n = cstr q n := by
  induction n generalizing p q with
  | zero => exact ⟨fun _ => rfl, fun _ => rfl⟩
  | succ n ih =>
    rw [strncmp, cstr, cstr]
    split
    · next h =>
      have hq : q 0 ≠ 0 := by
        rw [← h.2]
        exact h.1
      rw [ih, if_neg h.1, if_neg hq, h.2, cons_inj_right]
    · next h =>
      have hzero : ((p 0).toNat : Int) - (q 0).toNat = 0 ↔ p 0 = q 0 := by
        rw [← BitVec.toNat_inj]
        omega
      rw [hzero]
      by_cases hp : p 0 = 0
      · rw [if_pos hp, hp]
        split
        · next hq => exact ⟨fun _ => rfl, fun _ => hq.symm⟩
        · next hq => exact ⟨fun he => absurd he.symm hq, nofun⟩
      · rw [if_neg hp]
        have hne : p 0 ≠ q 0 := fun he => h ⟨hp, he⟩
        refine ⟨fun he => absurd he hne, fun he => ?_⟩
        split at he
        · cases he
        · exact absurd (List.cons.inj he).1 hne

section
variable (p : Nat → Byte)

/-- `strncpy` pads with NUL. -/
theorem strncpy_eq (n : Nat) :
    strncpy p n = cstr p n ++ List.replicate (n - (cstr p n).length) 0 := by
  induction n generalizing p with
  | zero => rfl
  | succ n ih =>
    rw [strncpy, cstr]
    split
    · rfl
    · rw [ih, cons_append, length_cons, Nat.succ_sub_succ]

theorem takeWhile_range (n : Nat) :
    ((List.range n).map p).takeWhile (fun c => decide (c ≠ 0)) = cstr p n := by
  induction n generalizing p with
  | zero => rfl
  | succ n ih =>
    rw [range_succ_eq_map, map_cons, map_map, cstr]
    split
    · next h0 => rw [takeWhile_cons_of_neg (by simp [h0])]
    · next h0 =>
      rw [takeWhile_cons_of_pos (by simpa using h0)]
      exact congrArg _ (ih _)

/-! ## Entries -/

/-- The bytes of the name in an entry are those of `strncpy`. -/
theorem encode_name (inum : Nat) :
    (List.range DIRSIZ).map (fun k => Dirent.encode ⟨inum, cut p⟩ (k + 2)) = strncpy p DIRSIZ := by
  rw [strncpy_eq, ← range_getD _ (length_cstr_le p DIRSIZ)]
  rfl

end

/-- The name in an entry is what `namecmp` compares. -/
theorem decode_name {bytes : List Byte} (hlen : bytes.length = DESIZE) :
    (Dirent.decode bytes).name = cut fun k => bytes.getD (k + 2) 0 := by
  have hbytes : (bytes.drop 2).take DIRSIZ =
      (List.range DIRSIZ).map fun k => bytes.getD (k + 2) 0 := by
    unfold DESIZE at hlen
    refine ext_getElem ?_ fun k h₁ h₂ => ?_
    · rw [length_take, length_drop, length_map, length_range, hlen]
      decide
    · rw [length_map, length_range, DIRSIZ] at h₂
      rw [getElem_take, getElem_drop, getElem_map, getElem_range,
        getD_eq_getElem _ _ (by omega)]
      simp only [Nat.add_comm]
  rw [Dirent.decode, hbytes, takeWhile_range]
  rfl

theorem namecmp_decode {bytes : List Byte} (hlen : bytes.length = DESIZE) :
    namecmp p (fun k => bytes.getD (k + 2) 0) = 0 ↔ (Dirent.decode bytes).name = cut p := by
  rw [namecmp, strncmp_eq_zero, decode_name hlen]
  exact eq_comm

/-! ## Elements of a path -/

/-- Bytes that are copied, with a NUL behind them if there is room. -/
theorem cstr_eq_take {elem : List Byte} (hnul : (0 : Byte) ∉ elem)
    (hcopy : ∀ k < n, k < elem.length → p k = elem.getD k 0)
    (hend : elem.length < n → p elem.length = 0) : cstr p n = elem.take n := by
  induction n generalizing p elem with
  | zero => rfl
  | succ n ih =>
    cases elem with
    | nil =>
      have hfirst : p 0 = 0 := hend (Nat.succ_pos n)
      rw [cstr, if_pos hfirst, take_nil]
    | cons c elem =>
      rw [mem_cons, not_or] at hnul
      have hfirst : p 0 = c := hcopy 0 (Nat.succ_pos n) (Nat.succ_pos _)
      rw [cstr, hfirst, if_neg (Ne.symm hnul.1), take_succ_cons]
      refine congrArg _ (ih hnul.2 (fun k hk hlt => ?_) fun hlt => ?_)
      · exact hcopy (k + 1) (Nat.succ_lt_succ hk) (Nat.succ_lt_succ hlt)
      · exact hend (Nat.succ_lt_succ hlt)

/-- Whatever the buffer held before, it holds the element, cut to `DIRSIZ` bytes. -/
theorem cut_copyelem (name : Nat → Byte) {elem : List Byte} (hnul : (0 : Byte) ∉ elem) :
    cut (copyelem name elem) = elem.take DIRSIZ := by
  refine cstr_eq_take hnul (fun k hk hlt => ?_) fun hlt => ?_
  · rw [copyelem, if_pos hk, if_pos hlt, ite_self]
  · rw [copyelem, if_neg (Nat.not_le_of_lt hlt), if_neg (lt_irrefl _), if_pos rfl]

end

end Xv6.Fs
