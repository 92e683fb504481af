import Xv6.Console.Lines

/-!
# Xv6.Console.Indices — the order of the console's indices

`consoleintr` and `consoleread` keep the indices in order, with any copies. `consolegetc_nb` takes
input that is not yet released and then moves `w` up to `r`; but it compares the two as plain
numbers. If `r` was the last number, it is 0 now, nothing is below it, and `w` stays behind. This is
the only way out of order (`console_indices`), and the next reader gets input that was never
released (`getcRun_disorder`).
-/

namespace Xv6.Console

open Function List

open Lib
open scoped List

variable {R : Type} [DecidableEq R]

/-- `consolegetc_nb` takes input that is not released, with both indices at the last number. -/
def Lbl.Wraps (s : St R) : Lbl R → Prop
  | .getc => s.cons.r = 0xffffffff#32 ∧ s.cons.w = 0xffffffff#32 ∧ s.cons.e ≠ 0xffffffff#32
  | .intr _ | .read _ _ _ | .run _ _ => False

instance Lbl.decidableWraps (s : St R) : (l : Lbl R) → Decidable (l.Wraps s)
  | .getc =>
    inferInstanceAs (Decidable
      (s.cons.r = 0xffffffff#32 ∧ s.cons.w = 0xffffffff#32 ∧ s.cons.e ≠ 0xffffffff#32))
  | .intr _ | .read _ _ _ | .run _ _ => inferInstanceAs (Decidable False)

/-- The indices are in order, and what was delivered had been typed and released. -/
structure Ordered (s : St R) : Prop where
  ring : Ring s.cons
  committed : s.delivered <+ s.committed
  typed : s.delivered <+ s.typed

/-- What is still in the ring is counted with what was delivered. -/
structure IndexInv (s : St R) : Prop where
  ring : Ring s.cons
  committed : s.delivered ++ s.cons.released <+ s.committed
  typed : s.delivered ++ (s.cons.released ++ s.cons.pending) <+ s.typed

variable {s : St R}

omit [DecidableEq R] in
theorem IndexInv.ordered (h : IndexInv s) : Ordered s :=
  ⟨h.ring, (sublist_append_left _ _).trans h.committed,
    (sublist_append_left _ _).trans h.typed⟩

omit [DecidableEq R] in
theorem IndexInv.init (h : Init s) : IndexInv s := by
  have hnone : s.delivered = [] := by rw [St.delivered, h.log]; rfl
  have hreleased : s.cons.released = [] := released_eq_nil (h.r.trans h.w.symm)
  have hpending : s.cons.pending = [] := pending_eq_nil (h.e.trans h.w.symm)
  refine ⟨(LineInv.init h).ring, ?_, ?_⟩
  · rw [hnone, hreleased]
    exact nil_sublist _
  · rw [hnone, hreleased, hpending]
    exact nil_sublist _

/-! ## Input -/

theorem Editor.enter_all (d : Editor) (c : Byte) :
    (d.enter c).released ++ (d.enter c).pending = d.released ++ d.pending ++ [c] := by
  unfold Editor.enter
  dsimp only
  split_ifs
  · rw [append_nil, ← append_assoc]
  · rw [← append_assoc]

/-- Nothing enters the editor but the character that is stored. -/
theorem type_sublist {s : Cons} (h : Ring s) (c : Byte) :
    (s.view.type c).released ++ (s.view.type c).pending <+
      s.released ++ s.pending ++ (stored s c).toList := by
  have hsame (l : List Byte) (hl : l <+ s.pending) :
      s.released ++ l <+ s.released ++ s.pending ++ (stored s c).toList :=
    (hl.append_left _).trans (sublist_append_left _ _)
  unfold Editor.type
  split
  · exact hsame _ (List.Sublist.refl _)
  rename_i h0P
  split
  · exact hsame _ (List.rdropWhile_prefix _ _).sublist
  rename_i hU
  split
  · exact hsame _ (dropLast_sublist _)
  rename_i hH
  split
  · rename_i hlt
    obtain ⟨h0, hP⟩ := not_or.mp h0P
    have hstored : stored s c = some (if c = carriageReturn then newline else c) := by
      rw [stored, if_neg (by simp [hP, hU, not_or.mp hH]), input_eq h, if_pos ⟨h0, hlt⟩]
    rw [hstored, Editor.enter_all]
    exact List.Sublist.refl _
  · exact hsame _ (List.Sublist.refl _)

theorem killLine_eq (fuel : Nat) : ∀ s, killLine fuel s = { s with e := (killLine fuel s).e } := by
  induction fuel with
  | zero => exact fun s => rfl
  | succ fuel ih =>
    intro s
    rw [killLine]
    split_ifs
    · exact ih { s with e := s.e - 1#32 }
    · rfl

/-- An input character edits the line or is stored behind it. -/
theorem consoleintr_cases (s : Cons) (c : Byte) :
    (∃ e, consoleintr s c = { s with e }) ∨
      ∃ c', (s.e - s.r).toNat < INPUT_BUF_SIZE ∧ consoleintr s c = store s c' := by
  unfold consoleintr
  split_ifs
  · exact Or.inl ⟨s.e, rfl⟩
  · exact Or.inl ⟨_, killLine_eq _ s⟩
  · exact Or.inl ⟨_, rfl⟩
  · exact Or.inl ⟨s.e, rfl⟩
  · cases hin : input s c with
    | none => exact Or.inl ⟨s.e, rfl⟩
    | some c' =>
      have hroom := (Option.ite_none_right_eq_some.mp hin).1
      exact Or.inr ⟨c', hroom.2, rfl⟩

/-- What an input character releases, it adds to the released bytes. -/
theorem consoleintr_released {s : Cons} (h : Ring s) (c : Byte) :
    (consoleintr s c).released =
      s.released ++ (consoleintr s c).bytes s.w (consoleintr s c).w := by
  rcases consoleintr_cases s c with ⟨e, hedit⟩ | ⟨c', hlt, hstore⟩
  · rw [hedit]
    exact ((congrArg (s.released ++ ·) (queue_self _ _ _)).trans (append_nil _)).symm
  · rw [hstore]
    exact store_released h c' hlt

/-! ## `consolegetc_nb` -/

/-- The wrap leaves `w` behind, -/
theorem consolegetc_wraps {s : Cons} (hr : s.r = 0xffffffff#32) (he : s.e ≠ 0xffffffff#32) :
    (consolegetc s).1 = { s with r := 0#32 } := by
  have hzero : s.r + 1#32 = 0#32 := by rw [hr]; rfl
  have hlt : ¬ s.w < 0#32 := BitVec.not_lt_zero
  rw [consolegetc, if_pos (hr ▸ he.symm)]
  dsimp only
  rw [hzero, if_neg hlt]

theorem not_ring_wrapped {s : Cons} (hr : s.r = 0#32) (hw : s.w = 0xffffffff#32)
    (he : s.e ≠ 0xffffffff#32) : ¬ Ring s := by
  intro h
  have horder := h.order
  rw [hr, hw, BitVec.sub_zero, BitVec.sub_zero] at horder
  have hlt := s.e.isLt
  have hlast : (0xffffffff#32).toNat = 4294967295 := rfl
  apply he
  apply BitVec.eq_of_toNat_eq
  omega

/-- and in order after any other: the first byte of the ring is gone, and a byte is released only
if it was before. -/
theorem consolegetc_ring {s : Cons} (h : Ring s)
    (hwrap : ¬ (s.r = 0xffffffff#32 ∧ s.w = 0xffffffff#32 ∧ s.e ≠ 0xffffffff#32)) :
    Ring (consolegetc s).1 ∧
      (consolegetc s).1.released <+ s.released ∧
      (consolegetc s).1.released ++ (consolegetc s).1.pending <+ s.released ++ s.pending := by
  have horder := h.order
  have hroom := h.room
  by_cases hre : s.r = s.e
  · rw [consolegetc, if_neg (not_not.mpr hre)]
    exact ⟨h, List.Sublist.refl _, List.Sublist.refl _⟩
  rw [consolegetc, if_pos hre]
  dsimp only
  -- the bytes up to `e` lose their first one wherever `w` is
  have htail (w : BitVec 32) (hw : Ring ⟨s.buf, s.r + 1#32, w, s.e⟩) :
      (Cons.mk s.buf (s.r + 1#32) w s.e).released ++ (Cons.mk s.buf (s.r + 1#32) w s.e).pending <+
        s.released ++ s.pending := by
    rw [← hw.bytes_eq, ← h.bytes_eq]
    rw [Cons.bytes, Cons.bytes, queue_pop _ s.buf hre]
    exact sublist_cons_self _ _
  split_ifs with hlt
  · have hring : Ring ⟨s.buf, s.r + 1#32, s.r + 1#32, s.e⟩ := by
      constructor <;> dsimp only <;> bv_omega
    refine ⟨hring, ?_, htail _ hring⟩
    rw [released_eq_nil (by rfl)]
    exact nil_sublist _
  · have hrw : s.r ≠ s.w := by
      intro heq
      bv_omega
    have hring := h.advance hrw
    refine ⟨hring, ?_, htail _ hring⟩
    rw [released_cons hrw]
    exact sublist_cons_self _ _

/-! ## Runs -/

theorem IndexInv.of_step {t : St R} {l : Lbl R} (h : IndexInv s) (hl : ¬ l.Wraps s)
    (hst : step s l = some t) : IndexInv t := by
  cases l with
  | intr c =>
    cases hst
    obtain ⟨hring, hview⟩ := consoleintr_refines h.ring c
    refine ⟨hring, ?_, ?_⟩
    · change s.delivered ++ (consoleintr s.cons c).released <+ _
      rw [consoleintr_released h.ring c, ← append_assoc]
      exact h.committed.append_right _
    have hreleased : (consoleintr s.cons c).released = (s.cons.view.type c).released :=
      congrArg Editor.released hview
    have hpending : (consoleintr s.cons c).pending = (s.cons.view.type c).pending :=
      congrArg Editor.pending hview
    dsimp only
    rw [hreleased, hpending]
    refine ((type_sublist h.ring c).append_left _).trans ?_
    rw [← append_assoc]
    exact h.typed.append_right _
  | read p n dst =>
    obtain ⟨hp, rfl⟩ := step_read hst
    exact ⟨h.ring, h.committed, h.typed⟩
  | run p killed =>
    obtain ⟨rd, hp, rfl⟩ := step_run hst
    obtain ⟨hring, hpending, lost, hlost⟩ :=
      readLoop_released rd.dst rd.target killed rd.n h.ring
    have hshorter (rest : List Byte) :
        (readLoop rd.dst rd.target killed rd.n s.cons).2.1 ++ rest <+
          (readLoop rd.dst rd.target killed rd.n s.cons).2.1 ++ lost ++ rest :=
      (sublist_append_left _ _).append_right _
    refine ⟨hring, ?_, ?_⟩
    · refine List.Sublist.trans ?_ h.committed
      rw [St.delivered, delivered_append, append_assoc, hlost]
      exact (hshorter _).append_left _
    · refine List.Sublist.trans ?_ h.typed
      dsimp only
      rw [St.delivered, delivered_append, append_assoc, hlost, hpending, append_assoc _ _
        s.cons.pending]
      exact (hshorter _).append_left _
  | getc =>
    cases hst
    obtain ⟨hring, hreleased, hall⟩ := consolegetc_ring h.ring hl
    exact ⟨hring, (hreleased.append_left _).trans h.committed, (hall.append_left _).trans h.typed⟩

/-- The indices are in order in a run, and readers get only what was typed and released, exactly if
no `consolegetc_nb` wraps `r` past `w`. -/
theorem console_indices (s : St R) (hs : Init s) (ls : List (Lbl R)) :
    (∀ t ∈ (sys R).visits s ls, Ordered t) ↔
      ∀ m ∈ (sys R).moves s ls, ¬ m.2.Wraps m.1 := by
  refine System.visits_iff (S := sys R) (fun _ _ => True) (fun s l => ¬ l.Wraps s) IndexInv Ordered
    (fun s h => h.ordered) (fun s l t h _ hl hst => h.of_step hl hst) ?_ ls s (IndexInv.init hs)
    (fun _ _ => trivial)
  intro s l t h _ hwrap hst hordered
  cases l with
  | getc =>
    obtain ⟨hr, hw, he⟩ := not_not.mp hwrap
    cases hst
    refine not_ring_wrapped ?_ ?_ ?_ hordered.ring
    all_goals dsimp only; rw [consolegetc_wraps hr he]
    · exact hw
    · exact he
  | intr c => exact hwrap id
  | read p n dst => exact hwrap id
  | run p killed => exact hwrap id

/-- A read of a line, with one `consolegetc_nb`. -/
def indicesRun : List (Lbl Bool) :=
  [.intr 0x61, .getc, .intr 0x62, .intr newline, .read true 8 fun _ => true, .run true false]

theorem console_indices_indicesRun :
    ((sys Bool).exec (boot Bool) indicesRun).any (fun t => t.delivered = [0x62, newline]) = true ∧
      ∀ t ∈ (sys Bool).visits (boot Bool) indicesRun, Ordered t := by
  exact ⟨by decide +kernel,
    (console_indices (boot Bool) boot_init indicesRun).mpr (by decide +kernel)⟩

/-! ## The run out of order -/

/-- Everything typed so far, `k` characters, was taken by `consolegetc_nb`. -/
structure Polled (k : Nat) (s : St R) : Prop where
  r : s.cons.r = BitVec.ofNat 32 k
  w : s.cons.w = BitVec.ofNat 32 k
  e : s.cons.e = BitVec.ofNat 32 k
  buf : ∀ i, s.cons.buf i ≠ ctrlD
  reader : ∀ p, s.reader p = none
  log : s.log = []
  committed : s.committed = []

/-- A character that enters an empty ring. -/
theorem consoleintr_empty {s : Cons} (hre : s.e = s.r) :
    consoleintr s 0x61 =
      { s with buf := update s.buf (s.e.toNat % INPUT_BUF_SIZE) 0x61, e := s.e + 1#32 } := by
  have hroom : (s.e - s.r).toNat < INPUT_BUF_SIZE := by
    rw [hre, BitVec.sub_self]
    decide
  have hone : (s.e + 1#32 - s.r).toNat = 1 := by
    rw [hre, BitVec.add_comm, BitVec.add_sub_cancel]
    rfl
  have hinput : input s 0x61 = some 0x61 := by
    rw [input, if_pos ⟨by decide, hroom⟩]
    rfl
  have hstay : ¬ ((0x61 : Byte) = newline ∨ (0x61 : Byte) = ctrlD ∨
      (s.e + 1#32 - s.r).toNat = INPUT_BUF_SIZE) := by
    rw [hone]
    decide
  rw [consoleintr, if_neg (by decide), if_neg (by decide), if_neg (by decide), hinput]
  exact if_neg hstay

theorem Polled.input {k : Nat} (h : Polled k s) :
    ∃ t : St R, step s (.intr 0x61) = some t ∧ t.cons.r = s.cons.r ∧ t.cons.w = s.cons.w ∧
      t.cons.e = s.cons.e + 1#32 ∧ (∀ i, t.cons.buf i ≠ ctrlD) ∧ (∀ p, t.reader p = none) ∧
      t.log = [] ∧ t.committed = [] := by
  have hintr := consoleintr_empty (h.e.trans h.r.symm)
  refine ⟨_, rfl, ?_, ?_, ?_, ?_, h.reader, h.log, ?_⟩
  · rw [hintr]
  · rw [hintr]
  · rw [hintr]
  · intro i
    dsimp only
    rw [hintr]
    dsimp only
    by_cases hi : i = s.cons.e.toNat % INPUT_BUF_SIZE
    · rw [hi, update_self]
      decide
    · rw [update_of_ne hi]
      exact h.buf i
  · dsimp only
    rw [hintr, h.committed]
    exact queue_self _ _ _

theorem Polled.next {k : Nat} (h : Polled k s) (hk : k + 1 < 2 ^ 32) :
    ∃ t, (sys R).exec s [.intr 0x61, .getc] = some t ∧ Polled (k + 1) t := by
  obtain ⟨t, hst, hr, hw, he, hbuf, hreader, hlog, hcommitted⟩ := h.input
  have hne : t.cons.r ≠ t.cons.e := by
    rw [hr, he, h.r, h.e]
    bv_omega
  have hlt : t.cons.w < t.cons.r + 1#32 := by
    rw [hr, hw, h.r, h.w, BitVec.lt_def]
    bv_omega
  have hgetc : (consolegetc t.cons).1 =
      { t.cons with r := t.cons.r + 1#32, w := t.cons.r + 1#32 } := by
    rw [consolegetc, if_pos hne]
    dsimp only
    rw [if_pos hlt]
  have hsucc : BitVec.ofNat 32 k + 1#32 = BitVec.ofNat 32 (k + 1) := (BitVec.ofNat_add _ _).symm
  refine ⟨{ t with cons := (consolegetc t.cons).1 }, ?_, ?_⟩
  · simp only [System.exec, sys, hst, Option.bind_some]
    rfl
  · rw [hgetc, hr, h.r, hsucc]
    exact ⟨rfl, rfl, by rw [he, h.e, hsucc], hbuf, hreader, hlog, hcommitted⟩

theorem polled_reachable (k : Nat) (hk : k < 2 ^ 32) :
    ∃ s, (sys R).Reachable s ∧ Polled k s := by
  induction k with
  | zero =>
    have hbuf : (0 : Byte) ≠ ctrlD := by decide
    exact ⟨boot R, System.Reachable.init boot_init, rfl, rfl, rfl, fun _ => hbuf, fun _ => rfl, rfl,
      rfl⟩
  | succ k ih =>
    obtain ⟨s, hreach, hs⟩ := ih (by omega)
    obtain ⟨t, hexec, ht⟩ := hs.next hk
    exact ⟨t, hreach.exec hexec, ht⟩

/-- A read that finds what it needs. -/
theorem exec_read {p : R} (hp : s.reader p = none) (n : Nat) (dst : Nat → Bool) :
    ∃ t, (sys R).exec s [.read p n dst, .run p false] = some t ∧
      t.delivered = s.delivered ++ (readLoop dst n false n s.cons).2.1 ∧
      t.committed = s.committed := by
  simp only [System.exec, sys, step, hp, update_self, Option.bind_some,
    Option.some.injEq, exists_eq_left']
  exact ⟨delivered_append _ _, trivial⟩

/-- After 2³² characters, each taken by `consolegetc_nb`, `w` is behind `r`, and a read of one byte
delivers a byte although none was ever released. -/
theorem getcRun_disorder :
    ∃ s t : St Unit, (sys Unit).Reachable s ∧
      ¬ (s.cons.w - s.cons.r).toNat ≤ (s.cons.e - s.cons.r).toNat ∧
      (sys Unit).exec s [.read () 1 fun _ => true, .run () false] = some t ∧
      t.delivered.length = 1 ∧ t.committed = [] := by
  obtain ⟨s, hreach, hs⟩ := polled_reachable (R := Unit) (2 ^ 32 - 1) (by decide)
  obtain ⟨t, hst, hr, hw, he, hbuf, hreader, hlog, hcommitted⟩ := hs.input
  rw [hs.r] at hr
  rw [hs.w] at hw
  have he0 : t.cons.e = 0#32 := by rw [he, hs.e]; rfl
  have hgetc := consolegetc_wraps hr (by rw [he0]; decide)
  -- the state out of order, and the read that follows
  have hu : (sys Unit).step t .getc =
      some { t with cons := ⟨t.cons.buf, 0#32, t.cons.w, t.cons.e⟩ } := by
    change some { t with cons := (consolegetc t.cons).1 } = _
    rw [hgetc]
  have hread : (readLoop (fun _ => true) 1 false 1 ⟨t.cons.buf, 0#32, t.cons.w, t.cons.e⟩).2.1 =
      [t.cons.buf 0] := by
    have hrw : ¬ 0#32 = t.cons.w := by rw [hw]; decide
    rw [readLoop, if_neg hrw]
    dsimp only
    rw [if_neg (hbuf _), if_neg (by decide)]
    split_ifs
    · rfl
    · rfl
  have ht : (sys Unit).Reachable t := System.Reachable.step (.intr 0x61) hreach hst
  obtain ⟨v, hexec, hdelivered, hnone⟩ :=
    exec_read (s := { t with cons := ⟨t.cons.buf, 0#32, t.cons.w, t.cons.e⟩ })
      (hreader ()) 1 fun _ => true
  refine ⟨_, v, ht.step .getc hu, ?_, hexec, ?_, hnone.trans hcommitted⟩
  · dsimp only
    rw [hw, he0]
    decide
  · rw [hdelivered, St.delivered, hlog, hread]
    rfl

end Xv6.Console
