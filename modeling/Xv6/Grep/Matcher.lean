import Mathlib.Data.List.Basic

/-!
# Xv6.Grep.Matcher — the patterns of grep

`match`, `matchhere` and `matchstar` of user/grep.c against the language of the pattern. A string
is the list of its characters before the NUL. `matchstar` tries the shortest repetition first and
goes on as long as the next character may be repeated, so it misses none.
-/

namespace Xv6.Grep

/-! ## The source -/

/-- The loop of `matchstar`, with `matchhere(re, ·)` as `here`. -/
def matchstar (c : Char) (here : List Char → Bool) : List Char → Bool
  | [] => here []
  | x :: text => here (x :: text) || (x = c || c = '.') && matchstar c here text

def matchhere : List Char → List Char → Bool
  | [], _ => true
  | c :: '*' :: re, text => matchstar c (matchhere re) text
  | ['$'], text => text.isEmpty
  | _ :: _, [] => false
  | c :: re, x :: text => (c = '.' || c = x) && matchhere re text

/-- The loop of `match`. -/
def match'.loop (re : List Char) : List Char → Bool
  | [] => matchhere re []
  | x :: text => matchhere re (x :: text) || loop re text

/-- `match`. -/
def match' : List Char → List Char → Bool
  | '^' :: re, text => matchhere re text
  | re, text => match'.loop re text

/-! ## The language -/

inductive Item where
  | char (c : Char)
  | star (c : Char)
  | stop

/-- The items of a pattern without its `'^'`. -/
def items : List Char → List Item
  | [] => []
  | c :: '*' :: re => .star c :: items re
  | ['$'] => [.stop]
  | c :: re => .char c :: items re

/-- The character `c` of a pattern stands for `x`. -/
def Fits (c x : Char) : Prop := c = '.' ∨ c = x

/-- The string `w`, with `post` behind it, is one of those the item stands for. -/
def Item.Denotes (w post : List Char) : Item → Prop
  | .char c => ∃ x, w = [x] ∧ Fits c x
  | .star c => ∀ x ∈ w, Fits c x
  | .stop => w = [] ∧ post = []

/-- One string after the other. -/
def Denotes (post : List Char) : List Item → List Char → Prop
  | [], w => w = []
  | i :: is, w => ∃ u v, w = u ++ v ∧ i.Denotes u (v ++ post) ∧ Denotes post is v

variable {re text : List Char}

theorem matchstar_iff {c : Char} {here : List Char → Bool} : matchstar c here text = true ↔
    ∃ u v, text = u ++ v ∧ (∀ x ∈ u, Fits c x) ∧ here v = true := by
  induction text with
  | nil => simp [matchstar, and_assoc]
  | cons x text ih =>
    have hfits : (decide (x = c) || decide (c = '.')) = true ↔ Fits c x := by
      rw [Bool.or_eq_true, decide_eq_true_eq, decide_eq_true_eq, Fits, or_comm, @eq_comm _ x]
    rw [matchstar, Bool.or_eq_true, Bool.and_eq_true, ih, hfits]
    constructor
    · rintro (hhere | ⟨hx, u, v, rfl, hu, hv⟩)
      · exact ⟨[], x :: text, rfl, nofun, hhere⟩
      · exact ⟨x :: u, v, rfl, List.forall_mem_cons.mpr ⟨hx, hu⟩, hv⟩
    · rintro ⟨_ | ⟨y, u⟩, v, huv, hu, hv⟩
      · exact .inl (huv ▸ hv)
      · obtain ⟨rfl, rfl⟩ := List.cons.inj huv
        obtain ⟨hx, hu⟩ := List.forall_mem_cons.mp hu
        exact .inr ⟨hx, u, v, rfl, hu, hv⟩

theorem matchhere_iff : matchhere re text = true ↔
    ∃ w post, text = w ++ post ∧ Denotes post (items re) w := by
  fun_induction items re generalizing text with
  | case1 => simp [matchhere, Denotes]
  | case2 c re ih =>
    rw [matchhere, matchstar_iff]
    constructor
    · rintro ⟨u, v, rfl, hu, hv⟩
      obtain ⟨w, post, rfl, hw⟩ := ih.mp hv
      exact ⟨u ++ w, post, by simp, u, w, rfl, hu, hw⟩
    · rintro ⟨_, post, rfl, u, v, rfl, hu, hv⟩
      exact ⟨u, v ++ post, by simp, hu, ih.mpr ⟨v, post, rfl, hv⟩⟩
  | case3 =>
    rw [matchhere, List.isEmpty_iff]
    constructor
    · rintro rfl
      exact ⟨[], [], rfl, [], [], rfl, ⟨rfl, rfl⟩, rfl⟩
    · rintro ⟨_, post, rfl, u, v, rfl, ⟨rfl, hpost⟩, rfl⟩
      exact hpost
  | case4 c re hstar hstop ih =>
    obtain _ | ⟨x, text⟩ := text
    · rw [matchhere.eq_4 _ _ hstar hstop]
      refine iff_of_false Bool.false_ne_true ?_
      rintro ⟨w, post, hw, u, v, rfl, ⟨x, rfl, -⟩, -⟩
      cases hw
    · rw [matchhere.eq_5 _ _ _ _ hstar hstop, Bool.and_eq_true, Bool.or_eq_true,
        decide_eq_true_eq, decide_eq_true_eq, ih]
      constructor
      · rintro ⟨hx, w, post, rfl, hw⟩
        exact ⟨x :: w, post, rfl, [x], w, rfl, ⟨x, rfl, hx⟩, hw⟩
      · rintro ⟨w, post, heq, u, v, rfl, ⟨y, rfl, hy⟩, hv⟩
        obtain ⟨rfl, rfl⟩ := List.cons.inj heq
        exact ⟨hy, v, post, rfl, hv⟩

/-- The loop of `match` skips any characters. -/
theorem match_loop_eq : match'.loop re text = matchstar '.' (matchhere re) text := by
  induction text with
  | nil => rfl
  | cons x text ih => simp [match'.loop, matchstar, ih]

/-- `match` is true just of the texts with a part in the language of the pattern,
at the beginning if the pattern begins with `'^'`. -/
theorem match_iff (re text : List Char) : match' re text = true ↔
    ∃ pre w post, text = pre ++ (w ++ post) ∧ (re.head? = some '^' → pre = []) ∧
      Denotes post (items (if re.head? = some '^' then re.tail else re)) w := by
  unfold match'
  split
  case h_1 re =>
    simp [matchhere_iff]
  case h_2 hre =>
    have hhead : re.head? ≠ some '^' := by
      rintro h
      obtain ⟨re, rfl⟩ := List.head?_eq_some_iff.mp h
      exact hre re rfl
    simp only [match_loop_eq, matchstar_iff, matchhere_iff, if_neg hhead]
    constructor
    · rintro ⟨pre, _, rfl, -, w, post, rfl, hw⟩
      exact ⟨pre, w, post, rfl, fun h => absurd h hhead, hw⟩
    · rintro ⟨pre, w, post, rfl, -, hw⟩
      exact ⟨pre, _, rfl, fun _ _ => .inl rfl, w, post, rfl, hw⟩

end Xv6.Grep
