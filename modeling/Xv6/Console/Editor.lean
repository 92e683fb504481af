import Mathlib.Data.List.DropRight
import Xv6.Console.Basic

/-!
# Xv6.Console.Editor — the console as a line editor

The ring holds two queues, one behind the other: the bytes released to readers, from `r` to `w`,
and the bytes that can still be edited, from `w` to `e`. As long as the indices are in order
(`Ring`), each operation of the console is the operation of the same kind on an `Editor`, which
has the two queues as lists and no indices. `consolegetc_nb` has no counterpart; it is followed on
the ring alone.
-/

namespace Xv6.Console

open Lib List

/-! ## The reference editor -/

structure Editor where
  released : List Byte
  pending : List Byte
deriving DecidableEq, Repr

namespace Editor

/-- A character enters the line; the line is released when it ends or nothing more fits. -/
def enter (d : Editor) (c : Byte) : Editor :=
  let line := d.pending ++ [c]
  if c = newline ∨ c = ctrlD ∨ d.released.length + line.length = INPUT_BUF_SIZE then
    ⟨d.released ++ line, []⟩
  else { d with pending := line }

def type (d : Editor) (c : Byte) : Editor :=
  if c = 0 ∨ c = ctrlP then d
  else if c = ctrlU then { d with pending := d.pending.rdropWhile (· ≠ newline) }
  else if c = ctrlH ∨ c = delete then { d with pending := d.pending.dropLast }
  else if d.released.length + d.pending.length < INPUT_BUF_SIZE then
    d.enter (if c = carriageReturn then newline else c)
  else d

/-- A read with `n` of `target` bytes to come, from the released bytes: those left, those
delivered, and how the read goes on. -/
def read (target : Nat) (killed : Bool) : Nat → List Byte → List Byte × List Byte × Status
  | 0, l => (l, [], .done target)
  | n + 1, [] => ([], [], if killed then .killed else .asleep (n + 1))
  | n + 1, c :: l =>
    if c = ctrlD then (if n + 1 < target then c :: l else l, [], .done (target - (n + 1)))
    else if c = newline then (l, [c], .done (target - n))
    else
      let rest := read target killed n l
      (rest.1, c :: rest.2.1, rest.2.2)

/-- What leaves the released bytes is delivered, but for a control-D at the end of a read. -/
theorem read_released (target : Nat) (killed : Bool) (n : Nat) : ∀ l,
    ∃ eof, (eof = [] ∨ eof = [ctrlD]) ∧
      l = (read target killed n l).2.1 ++ eof ++ (read target killed n l).1 := by
  induction n with
  | zero => exact fun l => ⟨[], Or.inl rfl, rfl⟩
  | succ n ih =>
    intro l
    cases l with
    | nil => exact ⟨[], Or.inl rfl, rfl⟩
    | cons c l =>
      rw [read]
      split_ifs with hD hlt hnl
      · exact ⟨[], Or.inl rfl, rfl⟩
      · exact ⟨[ctrlD], Or.inr rfl, by rw [hD]; rfl⟩
      · exact ⟨[], Or.inl rfl, rfl⟩
      · obtain ⟨eof, heof, hl⟩ := ih l
        exact ⟨eof, heof, congrArg (c :: ·) hl⟩

/-- Typing never touches what is released. -/
theorem released_prefix_type (d : Editor) (c : Byte) : d.released <+: (d.type c).released := by
  unfold type enter
  dsimp only
  split_ifs
  all_goals first
    | exact prefix_refl _
    | exact prefix_append _ _

end Editor

/-! ## The ring -/

def Cons.released (s : Cons) : List Byte := s.bytes s.r s.w

def Cons.pending (s : Cons) : List Byte := s.bytes s.w s.e

def Cons.view (s : Cons) : Editor := ⟨s.released, s.pending⟩

/-- The indices are in order and at most the buffer's size apart. -/
structure Ring (s : Cons) : Prop where
  order : (s.w - s.r).toNat ≤ (s.e - s.r).toNat
  room : (s.e - s.r).toNat ≤ INPUT_BUF_SIZE

theorem size_dvd : INPUT_BUF_SIZE ∣ 2 ^ 32 := by decide

theorem size_lt : INPUT_BUF_SIZE < 2 ^ 32 := by decide

section ring

variable {s : Cons}

theorem Ring.split (h : Ring s) :
    (s.e - s.r).toNat = (s.w - s.r).toNat + (s.e - s.w).toNat := by
  have horder := h.order
  have hroom := h.room
  have hsize := size_lt
  bv_omega

/-- The bytes that are not yet read: those released, then those that can be edited. -/
theorem Ring.bytes_eq (h : Ring s) : s.bytes s.r s.e = s.released ++ s.pending :=
  queue_append _ _ s.w (by rw [← h.split]; exact (s.e - s.r).isLt)

theorem Ring.length (h : Ring s) :
    s.released.length + s.pending.length = (s.e - s.r).toNat := by
  rw [h.split]
  exact congrArg₂ (· + ·) length_queue length_queue

/-! ### Input -/

/-- The last character that can be edited. -/
theorem pending_concat (hne : s.e ≠ s.w) :
    s.pending =
      ({ s with e := s.e - 1#32 } : Cons).pending ++
        [s.buf ((s.e - 1#32).toNat % INPUT_BUF_SIZE)] :=
  queue_concat _ _ hne.symm

theorem Ring.erase (h : Ring s) (hne : s.e ≠ s.w) : Ring { s with e := s.e - 1#32 } := by
  have hpred := toNat_pred_sub hne.symm
  have hsplit := h.split
  have hroom := h.room
  have hsize := size_lt
  constructor <;> dsimp only <;> bv_omega

theorem pending_eq_nil (heq : s.e = s.w) : s.pending = [] := by
  rw [Cons.pending, heq]
  exact queue_self _ _ _

theorem killLine_refines (fuel : Nat) : ∀ {s : Cons}, Ring s → (s.e - s.w).toNat ≤ fuel →
    Ring (killLine fuel s) ∧
      (killLine fuel s).view = ⟨s.released, s.pending.rdropWhile (· ≠ newline)⟩ := by
  induction fuel with
  | zero =>
    intro s h hfuel
    have hnil : s.pending = [] := length_eq_zero_iff.mp
      (Nat.le_zero.mp (le_of_eq_of_le length_queue hfuel))
    exact ⟨h, by rw [hnil]; exact congrArg (Editor.mk s.released) hnil⟩
  | succ fuel ih =>
    intro s h hfuel
    rw [killLine]
    by_cases hne : s.e ≠ s.w
    · have hrest := toNat_pred_sub hne.symm
      by_cases hc : s.buf ((s.e - 1#32).toNat % INPUT_BUF_SIZE) = newline
      · -- the line is empty: a newline that could still be edited stays
        rw [if_neg (fun hboth => hboth.2 hc)]
        refine ⟨h, congrArg (Editor.mk s.released) ?_⟩
        rw [pending_concat hne, rdropWhile_concat_neg _ _ _ (by simpa using hc)]
      · obtain ⟨hring, hkill⟩ := ih (h.erase hne) (by dsimp only; omega)
        rw [if_pos ⟨hne, hc⟩]
        refine ⟨hring, hkill.trans (congrArg (Editor.mk s.released) ?_)⟩
        rw [pending_concat hne, rdropWhile_concat_pos _ _ _ (by simpa using hc)]
    · rw [if_neg (fun hboth => hne hboth.1)]
      have hnil := pending_eq_nil (not_not.mp hne)
      exact ⟨h, by rw [hnil]; exact congrArg (Editor.mk s.released) hnil⟩

section
variable (h : Ring s)
include h

section
variable (c : Byte)

/-- The line with a character that is stored, whether or not it is released. -/
theorem store_line (hlt : (s.e - s.r).toNat < INPUT_BUF_SIZE) :
    (store s c).bytes s.w (s.e + 1#32) = s.pending ++ [c] := by
  have hsplit := h.split
  have hline : queue INPUT_BUF_SIZE (Function.update s.buf (s.e.toNat % INPUT_BUF_SIZE) c) s.w
      (s.e + 1#32) = s.pending ++ [c] := queue_push size_dvd (by omega) size_lt c
  unfold store
  dsimp only
  split_ifs
  · exact hline
  · exact hline

/-- The cell is behind the released bytes: what is released is added to them. -/
theorem store_released (hlt : (s.e - s.r).toNat < INPUT_BUF_SIZE) :
    (store s c).released = s.released ++ (store s c).bytes s.w (store s c).w := by
  have hkeep : queue INPUT_BUF_SIZE (Function.update s.buf (s.e.toNat % INPUT_BUF_SIZE) c) s.r s.w =
      s.released := queue_update size_dvd h.order hlt c
  have hsplit := h.split
  have hsize := size_lt
  unfold store
  dsimp only
  split_ifs
  · change queue _ _ _ _ = _
    rw [queue_append _ _ s.w (by bv_omega), hkeep]
    rfl
  · refine hkeep.trans ((append_nil _).symm.trans (congrArg (s.released ++ ·) ?_))
    exact (queue_self _ _ _).symm

theorem store_refines (hlt : (s.e - s.r).toNat < INPUT_BUF_SIZE) :
    Ring (store s c) ∧ (store s c).view = s.view.enter c := by
  have hsplit := h.split
  have hsize := size_lt
  have hsucc : (s.e + 1#32 - s.r).toNat = (s.e - s.r).toNat + 1 := toNat_succ_sub (by omega)
  have hreleased := store_released h c hlt
  have hline := store_line h c hlt
  have hfull :
      s.view.released.length + (s.view.pending ++ [c]).length = (s.e + 1#32 - s.r).toNat := by
    rw [length_append, length_singleton, ← Nat.add_assoc, hsucc]
    exact congrArg (· + 1) h.length
  unfold store at hreleased hline ⊢
  unfold Editor.enter
  dsimp only at hreleased hline ⊢
  rw [hfull]
  split_ifs at hreleased hline ⊢ with hend
  · refine ⟨⟨Nat.le_refl _, by dsimp only; omega⟩, congrArg₂ Editor.mk ?_ (queue_self _ _ _)⟩
    exact hreleased.trans (congrArg (s.released ++ ·) hline)
  · refine ⟨⟨by dsimp only; omega, by dsimp only; omega⟩, congrArg₂ Editor.mk ?_ hline⟩
    exact hreleased.trans
      ((congrArg (s.released ++ ·) (queue_self _ _ _)).trans (append_nil _))

theorem input_eq :
    input s c =
      if c ≠ 0 ∧ s.view.released.length + s.view.pending.length < INPUT_BUF_SIZE then
        some (if c = carriageReturn then newline else c)
      else none := by
  rw [input, ← h.length]
  rfl

/-- An input character does to the ring what it does to the line. -/
theorem consoleintr_refines :
    Ring (consoleintr s c) ∧ (consoleintr s c).view = s.view.type c := by
  unfold consoleintr Editor.type
  by_cases hP : c = ctrlP
  · rw [if_pos hP, if_pos (Or.inr hP)]
    exact ⟨h, rfl⟩
  by_cases hU : c = ctrlU
  · rw [if_neg hP, if_pos hU, if_neg (by subst hU; decide), if_pos hU]
    exact killLine_refines _ h le_rfl
  by_cases hH : c = ctrlH ∨ c = delete
  · have h0P : ¬ (c = 0 ∨ c = ctrlP) := by rcases hH with rfl | rfl <;> decide
    rw [if_neg hP, if_neg hU, if_pos hH, if_neg h0P, if_neg hU, if_pos hH]
    split_ifs with hne
    · refine ⟨h.erase hne, congrArg (Editor.mk s.released) ?_⟩
      exact (dropLast_concat.symm).trans (congrArg List.dropLast (pending_concat hne).symm)
    · refine ⟨h, congrArg (Editor.mk s.released) ?_⟩
      change s.pending = s.pending.dropLast
      rw [pending_eq_nil (not_not.mp hne)]
      rfl
  rw [if_neg hP, if_neg hU, if_neg hH, input_eq h]
  by_cases h0 : c = 0
  · rw [if_pos (Or.inl h0), if_neg (fun hboth => hboth.1 h0)]
    exact ⟨h, rfl⟩
  have h0P : ¬ (c = 0 ∨ c = ctrlP) := not_or.mpr ⟨h0, hP⟩
  rw [if_neg h0P, if_neg hU, if_neg hH]
  by_cases hlt : s.view.released.length + s.view.pending.length < INPUT_BUF_SIZE
  · rw [if_pos ⟨h0, hlt⟩, if_pos hlt]
    exact store_refines h _ (h.length ▸ hlt)
  · rw [if_neg (fun hboth => hlt hboth.2), if_neg hlt]
    exact ⟨h, rfl⟩

end

/-! ### Reading -/

theorem Ring.advance (hne : s.r ≠ s.w) : Ring { s with r := s.r + 1#32 } := by
  have horder := h.order
  have hroom := h.room
  constructor <;> dsimp only <;> bv_omega

end

/-- The oldest released byte. -/
theorem released_cons (hne : s.r ≠ s.w) :
    s.released =
      s.buf (s.r.toNat % INPUT_BUF_SIZE) :: ({ s with r := s.r + 1#32 } : Cons).released :=
  queue_pop _ _ hne

theorem released_eq_nil (heq : s.r = s.w) : s.released = [] := by
  rw [Cons.released, heq]
  exact queue_self _ _ _

/-- A read takes bytes in order from those released, and delivers them but for one at most. -/
theorem readLoop_released (dst : Nat → Bool) (target : Nat) (killed : Bool) (n : Nat) :
    ∀ {s : Cons}, Ring s →
      Ring (readLoop dst target killed n s).1 ∧
      (readLoop dst target killed n s).1.pending = s.pending ∧
      ∃ lost, s.released =
        (readLoop dst target killed n s).2.1 ++ lost ++
          (readLoop dst target killed n s).1.released := by
  induction n with
  | zero => exact fun h => ⟨h, rfl, [], rfl⟩
  | succ n ih =>
    intro s h
    rw [readLoop]
    by_cases hrw : s.r = s.w
    · rw [if_pos hrw]
      exact ⟨h, rfl, [], rfl⟩
    rw [if_neg hrw]
    have hnext := h.advance hrw
    have hcons := released_cons hrw
    dsimp only
    split_ifs with hD hlt hdst hnl
    · -- the control-D is put back
      rw [BitVec.add_sub_cancel]
      exact ⟨h, rfl, [], rfl⟩
    · exact ⟨hnext, rfl, [_], hcons⟩
    · exact ⟨hnext, rfl, [_], hcons⟩
    · exact ⟨hnext, rfl, [], hcons⟩
    · obtain ⟨hring, hpending, lost, hlost⟩ := ih hnext
      exact ⟨hring, hpending, lost, by rw [hcons, hlost]; rfl⟩

/-- A read whose copies succeed is a read of the released bytes. -/
theorem readLoop_refines (dst : Nat → Bool) (target : Nat) (killed : Bool) (n : Nat) :
    ∀ {s : Cons}, (∀ k < target, dst k = true) → n ≤ target →
      (Editor.read target killed n s.released) =
        ((readLoop dst target killed n s).1.released, (readLoop dst target killed n s).2) := by
  induction n with
  | zero => exact fun _ _ => rfl
  | succ n ih =>
    intro s hdst hn
    rw [readLoop]
    by_cases hrw : s.r = s.w
    · rw [if_pos hrw]
      dsimp only
      rw [released_eq_nil hrw]
      rfl
    have hcopy : ¬ dst (target - (n + 1)) = false := by simp [hdst (target - (n + 1)) (by omega)]
    rw [if_neg hrw, released_cons hrw, Editor.read]
    dsimp only
    rw [if_neg hcopy]
    split_ifs with hD hlt hnl
    · rw [BitVec.add_sub_cancel]
      exact congrArg (·, [], _) (released_cons hrw).symm
    · rfl
    · rfl
    · rw [ih hdst (by omega)]

end ring

end Xv6.Console
