import Xv6.Pipe.Basic

/-!
# Xv6.Pipe.Wakeups — who may be asleep on a pipe

A process asleep on `&pi->nread` should face an empty pipe, one asleep on
`&pi->nwrite` a full one. The invariant `Inv` allows for the wakeup that the lock
holder still owes (`owesReaders`, `owesWriters`); every exit of `pipewrite` and
`piperead` pays it except one: the early return of a `pipewrite` that finds itself
killed after it has stored bytes (`KilledMidWrite`). `sleepers_wait_iff` says that
this exit, taken while a reader sleeps, is exactly what goes wrong.
-/

namespace Xv6.Pipe

open Lib

variable {Pid : Type}

/-! ## The invariant -/

/-- The bytes in the ring, `nwrite - nread` as a `uint`. -/
def St.count (s : St Pid) : Nat := (s.nwrite - s.nread).toNat

theorem empty_iff_count (s : St Pid) : s.empty ↔ s.count = 0 := by
  unfold St.empty St.count
  bv_omega

theorem full_iff_count (s : St Pid) : s.full ↔ s.count = PIPESIZE := by
  unfold St.full St.count PIPESIZE
  bv_omega

/-- Some process sleeps on `&pi->nread`. -/
def St.readerAsleep (s : St Pid) : Prop := ∃ p n, s.pc p = .rSleep n

/-- Some process sleeps on `&pi->nwrite`. -/
def St.writerAsleep (s : St Pid) : Prop := ∃ p i n, s.pc p = .wSleep i n

def Pc.asleep : Pc → Bool
  | .rSleep _ | .wSleep .. => true
  | _ => false

/-- A `pipewrite` that has changed the ring and still owes `wakeup(&pi->nread)`. -/
def Pc.owesReaders : Pc → Bool
  | .wLoop _ _ put | .wByte _ _ put => 0 < put
  | .wDone _ => true
  | _ => false

/-- A `piperead` that has changed the ring and still owes `wakeup(&pi->nwrite)`. -/
def Pc.owesWriters : Pc → Bool
  | .rCopy i _ => 0 < i
  | .rDone _ => true
  | _ => false

/-- What a process may rely on at the place it has reached, from tests it made while
holding the lock. -/
def Pc.knows (s : St Pid) : Pc → Prop
  | .wLoop _ _ put => put ≤ s.count ∧ (0 < put → s.readopen = true)
  | .wByte _ _ put => put ≤ s.count ∧ s.readopen = true
  | .rKilled _ => s.empty ∧ s.writeopen = true
  | _ => True

/-- The invariant of the pipe: a sleeper's reason to sleep still holds, unless the
lock holder has yet to issue the wakeup it owes. -/
structure Inv (s : St Pid) : Prop where
  holder : ∀ p, (s.pc p).holds = true ↔ s.lock = some p
  bound : s.count ≤ PIPESIZE
  place : ∀ p, (s.pc p).knows s
  reader : s.readerAsleep →
    s.writeopen = true ∧ (s.empty ∨ ∃ q, (s.pc q).owesReaders = true)
  writer : s.writerAsleep →
    s.readopen = true ∧ (s.full ∨ ∃ q, (s.pc q).owesWriters = true)

variable {pc : Pc}

theorem holds_of_owesReaders (h : pc.owesReaders = true) : pc.holds = true := by
  cases pc <;> simp_all [Pc.owesReaders, Pc.holds]

theorem holds_of_owesWriters (h : pc.owesWriters = true) : pc.holds = true := by
  cases pc <;> simp_all [Pc.owesWriters, Pc.holds]

variable {s : St Pid}

theorem knows_of_not_holds (h : pc.holds = false) : pc.knows s := by
  cases pc <;> simp_all [Pc.knows, Pc.holds]

theorem init_inv (h : Init s) : Inv s := by
  obtain ⟨hlock, hr, hw, -, -, -, -, -, hout⟩ := h
  have hcount : s.count = 0 := by simp [St.count, hr, hw]
  have hholds : ∀ p, (s.pc p).holds = false := by
    intro p
    obtain ⟨r, hp⟩ := hout p
    rw [hp]
    rfl
  refine ⟨fun p => ?_, by rw [hcount]; exact Nat.zero_le _, fun p => knows_of_not_holds (hholds p),
    ?_, ?_⟩
  · simp [hholds p, hlock]
  · rintro ⟨p, n, hp⟩
    obtain ⟨r, hp'⟩ := hout p
    simp [hp] at hp'
  · rintro ⟨p, i, n, hp⟩
    obtain ⟨r, hp'⟩ := hout p
    simp [hp] at hp'

theorem Inv.free (h : Inv s) (hfree : s.lock = none) (q : Pid) : (s.pc q).holds = false := by
  rw [Bool.eq_false_iff]
  intro hq
  have := (h.holder q).mp hq
  simp [hfree] at this

/-- With the lock free nobody owes a wakeup. -/
theorem Inv.reader_free (h : Inv s) (hfree : s.lock = none) (ha : s.readerAsleep) :
    s.empty ∧ s.writeopen = true := by
  obtain ⟨hopen, he | ⟨q, hq⟩⟩ := h.reader ha
  · exact ⟨he, hopen⟩
  · have := (h.holder q).mp (holds_of_owesReaders hq)
    simp [hfree] at this

theorem Inv.writer_free (h : Inv s) (hfree : s.lock = none) (ha : s.writerAsleep) :
    s.full ∧ s.readopen = true := by
  obtain ⟨hopen, he | ⟨q, hq⟩⟩ := h.writer ha
  · exact ⟨he, hopen⟩
  · have := (h.holder q).mp (holds_of_owesWriters hq)
    simp [hfree] at this

variable {p : Pid}

/-- If the lock holder owes no wakeup to readers, sleeping readers see an empty pipe. -/
theorem Inv.reader_holder (h : Inv s) (hp : s.lock = some p) (howe : (s.pc p).owesReaders = false)
    (ha : s.readerAsleep) :
    s.empty ∧ s.writeopen = true := by
  obtain ⟨hopen, he | ⟨q, hq⟩⟩ := h.reader ha
  · exact ⟨he, hopen⟩
  · have hqp := (h.holder q).mp (holds_of_owesReaders hq)
    rw [hp, Option.some.injEq] at hqp
    rw [← hqp, howe] at hq
    cases hq

theorem Inv.writer_holder (h : Inv s) (hp : s.lock = some p) (howe : (s.pc p).owesWriters = false)
    (ha : s.writerAsleep) :
    s.full ∧ s.readopen = true := by
  obtain ⟨hopen, he | ⟨q, hq⟩⟩ := h.writer ha
  · exact ⟨he, hopen⟩
  · have hqp := (h.holder q).mp (holds_of_owesWriters hq)
    rw [hp, Option.some.injEq] at hqp
    rw [← hqp, howe] at hq
    cases hq

variable {s' : St Pid}

/-- Away from the lock holder nothing is known about the pipe. -/
theorem Inv.knows_other (h : Inv s) {q : Pid} (hp : s.lock = some p) (hqp : q ≠ p) :
    (s.pc q).knows s' := by
  apply knows_of_not_holds
  rw [Bool.eq_false_iff]
  intro hq
  have := (h.holder q).mp hq
  rw [hp, Option.some.injEq] at this
  exact hqp this.symm

/-! ### Wakeups -/

theorem wake_holds (c : Chan) (pc : Pc) : (pc.wake c).holds = pc.holds := by
  cases c <;> cases pc <;> rfl

theorem wake_owesReaders (c : Chan) (pc : Pc) : (pc.wake c).owesReaders = pc.owesReaders := by
  cases c <;> cases pc <;> rfl

theorem wake_owesWriters (c : Chan) (pc : Pc) : (pc.wake c).owesWriters = pc.owesWriters := by
  cases c <;> cases pc <;> rfl

variable {c : Chan}

theorem wake_knows (h : pc.knows s) : (pc.wake c).knows s := by
  cases c <;> cases pc <;> exact h

theorem wakeup_reader (h : (s.wakeup c).readerAsleep) :
    s.readerAsleep := by
  obtain ⟨p, n, hp⟩ := h
  refine ⟨p, n, ?_⟩
  revert hp
  simp only [St.wakeup]
  cases c <;> cases s.pc p <;> simp [Pc.wake]

theorem wakeup_writer (h : (s.wakeup c).writerAsleep) :
    s.writerAsleep := by
  obtain ⟨p, i, n, hp⟩ := h
  refine ⟨p, i, n, ?_⟩
  revert hp
  simp only [St.wakeup]
  cases c <;> cases s.pc p <;> simp [Pc.wake]

/-- After `wakeup(&pi->nread)` nobody sleeps there. -/
theorem wakeup_no_reader (s : St Pid) : ¬ (s.wakeup .nread).readerAsleep := by
  rintro ⟨p, n, hp⟩
  revert hp
  simp only [St.wakeup]
  cases s.pc p <;> simp [Pc.wake]

theorem wakeup_no_writer (s : St Pid) : ¬ (s.wakeup .nwrite).writerAsleep := by
  rintro ⟨p, i, n, hp⟩
  revert hp
  simp only [St.wakeup]
  cases s.pc p <;> simp [Pc.wake]

theorem Inv.wakeup (h : Inv s) (c : Chan) : Inv (s.wakeup c) where
  holder p := by
    simp only [St.wakeup, wake_holds]
    exact h.holder p
  bound := h.bound
  place p := wake_knows (s := s.wakeup c) (h.place p)
  reader ha := by
    obtain ⟨hopen, he⟩ := h.reader (wakeup_reader ha)
    refine ⟨hopen, he.imp_right ?_⟩
    rintro ⟨q, hq⟩
    exact ⟨q, by simpa [St.wakeup, wake_owesReaders] using hq⟩
  writer ha := by
    obtain ⟨hopen, he⟩ := h.writer (wakeup_writer ha)
    refine ⟨hopen, he.imp_right ?_⟩
    rintro ⟨q, hq⟩
    exact ⟨q, by simpa [St.wakeup, wake_owesWriters] using hq⟩

/-! ### Moving on -/

section

variable [DecidableEq Pid]

theorem goto_pc (s : St Pid) (p q : Pid) (pc : Pc) :
    (s.goto p pc).pc q = if q = p then pc else s.pc q := by
  simp [St.goto, Function.update_apply]

theorem goto_reader (hpc : pc.asleep = false) (h : (s.goto p pc).readerAsleep) :
    s.readerAsleep := by
  obtain ⟨q, n, hq⟩ := h
  rw [goto_pc] at hq
  split at hq
  · simp [hq, Pc.asleep] at hpc
  · exact ⟨q, n, hq⟩

theorem goto_writer (hpc : pc.asleep = false) (h : (s.goto p pc).writerAsleep) :
    s.writerAsleep := by
  obtain ⟨q, i, n, hq⟩ := h
  rw [goto_pc] at hq
  split at hq
  · simp [hq, Pc.asleep] at hpc
  · exact ⟨q, i, n, hq⟩

theorem goto_owes {owes : Pc → Bool} (hpc : owes (s.pc p) = true → owes pc = true)
    (h : ∃ q, owes (s.pc q) = true) :
    ∃ q, owes ((s.goto p pc).pc q) = true := by
  obtain ⟨q, hq⟩ := h
  refine ⟨q, ?_⟩
  rw [goto_pc]
  split
  · next hqp => exact hpc (hqp ▸ hq)
  · exact hq

/-- Moving on without touching the pipe or the lock. -/
theorem Inv.goto (h : Inv s) (hholds : pc.holds = (s.pc p).holds) (hasleep : pc.asleep = false)
    (hknows : pc.knows s) (hr : (s.pc p).owesReaders = true → pc.owesReaders = true)
    (hw : (s.pc p).owesWriters = true → pc.owesWriters = true) : Inv (s.goto p pc) where
  holder q := by
    rw [goto_pc]
    split
    · next hqp =>
      rw [hholds, hqp]
      exact h.holder p
    · exact h.holder q
  bound := h.bound
  place q := by
    rw [goto_pc]
    split
    · exact hknows
    · exact h.place q
  reader ha := by
    obtain ⟨hopen, he⟩ := h.reader (goto_reader hasleep ha)
    exact ⟨hopen, he.imp_right (goto_owes hr)⟩
  writer ha := by
    obtain ⟨hopen, he⟩ := h.writer (goto_writer hasleep ha)
    exact ⟨hopen, he.imp_right (goto_owes hw)⟩

/-- Giving up the lock. From here on the sleepers' reasons must hold outright. -/
theorem Inv.leave (h : Inv s) (hp : s.lock = some p) (hholds : pc.holds = false)
    (hr : (s.leave p pc).readerAsleep → s.writeopen = true ∧ s.empty)
    (hw : (s.leave p pc).writerAsleep → s.readopen = true ∧ s.full) : Inv (s.leave p pc) where
  holder q := by
    change ((s.goto p pc).pc q).holds = true ↔ none = some q
    rw [goto_pc]
    split
    · simp [hholds]
    next hqp =>
    have hq := h.holder q
    rw [hp, Option.some.injEq] at hq
    constructor
    · intro hh
      exact absurd (hq.mp hh).symm hqp
    · intro hh
      cases hh
  bound := h.bound
  place q := by
    change ((s.goto p pc).pc q).knows _
    rw [goto_pc]
    split
    · exact knows_of_not_holds hholds
    · next hqp => exact h.knows_other hp hqp
  reader ha := (hr ha).imp_right Or.inl
  writer ha := (hw ha).imp_right Or.inl

/-- Taking the lock, to a place that knows and owes nothing yet. -/
theorem Inv.acquire (h : Inv s) (hholds : pc.holds = true) (hasleep : pc.asleep = false)
    (hknows : pc.knows s) (hs : acquire s p pc = some s') :
    Inv s' := by
  simp only [Pipe.acquire] at hs
  split at hs
  swap
  · cases hs
  next hfree =>
  rw [Option.some.injEq] at hs
  subst hs
  constructor
  · intro q
    change ((s.goto p pc).pc q).holds = true ↔ some p = some q
    rw [goto_pc, Option.some.injEq]
    split
    · next hqp => simp [hholds, hqp]
    · next hqp => simp [h.free hfree q, Ne.symm hqp]
  · exact h.bound
  · intro q
    change ((s.goto p pc).pc q).knows _
    rw [goto_pc]
    split
    · exact hknows
    · exact knows_of_not_holds (h.free hfree q)
  · intro ha
    obtain ⟨he, hopen⟩ := h.reader_free hfree (goto_reader hasleep ha)
    exact ⟨hopen, Or.inl he⟩
  · intro ha
    obtain ⟨he, hopen⟩ := h.writer_free hfree (goto_writer hasleep ha)
    exact ⟨hopen, Or.inl he⟩

end

/-! ### One lemma per piece of code -/

section

variable [DecidableEq Pid]

/-- `kkill` reaches a process. -/
theorem kkill_inv (p : Pid) (h : Inv s) : Inv (kkill s p) := by
  have hgoto : Inv (s.goto p (((s.pc p).wake .nread).wake .nwrite)) := by
    apply h.goto
    · rw [wake_holds, wake_holds]
    · cases s.pc p <;> rfl
    · exact wake_knows (wake_knows (h.place p))
    · rw [wake_owesReaders, wake_owesReaders]
      exact id
    · rw [wake_owesWriters, wake_owesWriters]
      exact id
  exact ⟨hgoto.holder, hgoto.bound, hgoto.place, hgoto.reader, hgoto.writer⟩

omit [DecidableEq Pid] in
/-- Closing one end wakes those who could still wait for it. -/
theorem pipeclose_inv (w : Bool) (h : Inv s) (hfree : s.lock = none) :
    Inv (pipeclose s w) := by
  -- what is left to show does not depend on whether the page is freed
  suffices hmain : Inv (closeEnd s w) by
    unfold pipeclose
    dsimp only
    split
    · exact ⟨hmain.holder, hmain.bound, hmain.place, hmain.reader, hmain.writer⟩
    · exact hmain
  cases w
  · have hw := h.wakeup .nwrite
    refine ⟨hw.holder, hw.bound, fun q => ?_, hw.reader, fun ha => ?_⟩
    · apply knows_of_not_holds
      change ((s.pc q).wake .nwrite).holds = false
      rw [wake_holds]
      exact h.free hfree q
    · exact absurd ha (wakeup_no_writer _)
  · have hw := h.wakeup .nread
    refine ⟨hw.holder, hw.bound, fun q => ?_, fun ha => ?_, hw.writer⟩
    · apply knows_of_not_holds
      change ((s.pc q).wake .nread).holds = false
      rw [wake_holds]
      exact h.free hfree q
    · exact absurd ha (wakeup_no_reader _)

/-- A byte goes into the ring, or the writer sleeps on a full one. -/
theorem writeByte_inv {i : Nat} {n : Int} {put : Nat} (ch : Option UInt8) (h : Inv s)
    (hpc : s.pc p = .wByte i n put) :
    Inv (writeByte s p i n put ch) := by
  have hlock : s.lock = some p := (h.holder p).mp (by rw [hpc]; rfl)
  obtain ⟨hput, hopen⟩ : put ≤ s.count ∧ s.readopen = true := by
    have := h.place p
    rwa [hpc] at this
  have hnw : (s.pc p).owesWriters = false := by rw [hpc]; rfl
  simp only [writeByte]
  split
  · next hfull =>
    -- full: readers are woken, and the writer may sleep because the pipe is full
    refine (h.wakeup .nread).leave hlock rfl (fun ha => ?_) (fun _ => ⟨hopen, hfull⟩)
    refine absurd ?_ (wakeup_no_reader s)
    obtain ⟨q, m, hq⟩ := ha
    change ((s.wakeup .nread).goto p (.wSleep i n)).pc q = _ at hq
    rw [goto_pc] at hq
    split at hq
    · cases hq
    · exact ⟨q, m, hq⟩
  · next hfull =>
    cases ch with
    | none =>
      refine h.goto ?_ rfl trivial (fun _ => rfl) ?_
      · rw [hpc]; rfl
      · rw [hnw]; exact fun hh => nomatch hh
    | some c =>
      -- no writer sleeps: the pipe is not full and the holder owes writers nothing
      have hnone : ¬ s.writerAsleep := fun ha => hfull (h.writer_holder hlock hnw ha).1
      have hlt : s.count < PIPESIZE := by
        have := h.bound
        have := mt (full_iff_count s).mpr hfull
        omega
      have hcount : (s.nwrite + 1 - s.nread).toNat = s.count + 1 := by
        unfold PIPESIZE at hlt
        unfold St.count at *
        bv_omega
      dsimp only
      constructor
      · intro q
        change ((s.goto p (.wLoop (i + 1) n (put + 1))).pc q).holds = true ↔ s.lock = some q
        rw [goto_pc]
        split
        · next hqp => simp [hqp, hlock, Pc.holds]
        · exact h.holder q
      · change (s.nwrite + 1 - s.nread).toNat ≤ PIPESIZE
        omega
      · intro q
        change ((s.goto p (.wLoop (i + 1) n (put + 1))).pc q).knows _
        rw [goto_pc]
        split
        · refine ⟨?_, fun _ => hopen⟩
          change put + 1 ≤ (s.nwrite + 1 - s.nread).toNat
          omega
        · next hqp => exact h.knows_other hlock hqp
      · intro ha
        refine ⟨(h.reader (goto_reader rfl ha)).1, Or.inr ⟨p, ?_⟩⟩
        change ((s.goto p (.wLoop (i + 1) n (put + 1))).pc p).owesReaders = true
        rw [goto_pc, if_pos rfl]
        simp [Pc.owesReaders]
      · intro ha
        exact absurd (goto_writer rfl ha) hnone

/-- A byte comes out of the ring, or the copy loop ends. -/
theorem readByte_inv {i : Nat} {n : Int} (ok : Bool) (h : Inv s) (hpc : s.pc p = .rCopy i n) :
    Inv (readByte s p i n ok) := by
  have hlock : s.lock = some p := (h.holder p).mp (by rw [hpc]; rfl)
  have hnr : (s.pc p).owesReaders = false := by rw [hpc]; rfl
  have hdone : ∀ r, Inv (s.goto p (.rDone r)) := by
    intro r
    refine h.goto ?_ rfl trivial ?_ (fun _ => rfl)
    · rw [hpc]; rfl
    · rw [hnr]; exact fun hh => nomatch hh
  simp only [readByte]
  split
  · exact hdone _
  split
  · exact hdone _
  next hne =>
  split
  swap
  · exact hdone _
  -- no reader sleeps: the pipe is not empty and the holder owes readers nothing
  have hnone : ¬ s.readerAsleep := fun ha => hne (h.reader_holder hlock hnr ha).1
  have hpos : 0 < s.count := Nat.pos_of_ne_zero (mt (empty_iff_count s).mpr hne)
  have hcount : (s.nwrite - (s.nread + 1)).toNat = s.count - 1 := by
    unfold St.count at *
    bv_omega
  constructor
  · intro q
    change ((s.goto p (.rCopy (i + 1) n)).pc q).holds = true ↔ s.lock = some q
    rw [goto_pc]
    split
    · next hqp => simp [hqp, hlock, Pc.holds]
    · exact h.holder q
  · change (s.nwrite - (s.nread + 1)).toNat ≤ PIPESIZE
    have := h.bound
    omega
  · intro q
    change ((s.goto p (.rCopy (i + 1) n)).pc q).knows _
    rw [goto_pc]
    split
    · trivial
    · next hqp => exact h.knows_other hlock hqp
  · intro ha
    exact absurd (goto_reader rfl ha) hnone
  · intro ha
    refine ⟨(h.writer (goto_writer rfl ha)).1, Or.inr ⟨p, ?_⟩⟩
    change ((s.goto p (.rCopy (i + 1) n)).pc p).owesWriters = true
    rw [goto_pc, if_pos rfl]
    simp [Pc.owesWriters]

theorem leave_reader (hpc : pc.asleep = false) (h : (s.leave p pc).readerAsleep) :
    s.readerAsleep := goto_reader hpc h

theorem leave_writer (hpc : pc.asleep = false) (h : (s.leave p pc).writerAsleep) :
    s.writerAsleep := goto_writer hpc h

/-- The test at the head of the `pipewrite` loop finds the process killed after it has
stored bytes that no reader was told about. -/
def KilledMidWrite (s : St Pid) (l : Lbl Pid) : Prop :=
  ∃ p i n put, l = .run p ∧ s.pc p = .wLoop i n put ∧ (i : Int) < n ∧ s.killed p = true ∧ 0 < put

/-- The tests and exits of `pipewrite` and `piperead`. The one exit that does not keep
the invariant is the early return of `KilledMidWrite` next to a sleeping reader. -/
theorem runPc_inv (h : Inv s) (hok : KilledMidWrite s (.run p) → ¬ s.readerAsleep)
    (hs : runPc s p (s.pc p) = some s') :
    Inv s' := by
  cases hpc : s.pc p with
  | wLock i n =>
    rw [hpc] at hs
    have hknows : (Pc.wLoop i n 0).knows s := ⟨Nat.zero_le _, fun hh => absurd hh (lt_irrefl 0)⟩
    exact h.acquire rfl rfl hknows hs
  | rLock n =>
    rw [hpc] at hs
    have hknows : (Pc.rLoop n).knows s := trivial
    exact h.acquire rfl rfl hknows hs
  | wLoop i n put =>
    have hlock : s.lock = some p := (h.holder p).mp (by rw [hpc]; rfl)
    have hknows := h.place p
    simp only [hpc, runPc] at hs hknows
    split at hs
    · next hin =>
      split at hs
      · next hexit =>
        cases hs
        refine h.leave hlock rfl (fun ha => ?_) (fun ha => ?_)
        · -- `put = 0`: nothing was stored since the lock was taken
          have ha' := leave_reader rfl ha
          have hzero : put = 0 := by
            by_contra hput
            have hpos := Nat.pos_of_ne_zero hput
            rcases hexit with hclosed | hkilled
            · rw [hknows.2 hpos] at hclosed
              cases hclosed
            · exact hok ⟨p, i, n, put, rfl, hpc, hin, hkilled, hpos⟩ ha'
          exact (h.reader_holder hlock (by simp [hpc, Pc.owesReaders, hzero]) ha').symm
        · exact (h.writer_holder hlock (by rw [hpc]; rfl) (leave_writer rfl ha)).symm
      · next hstay =>
        cases hs
        have hopen : s.readopen = true := by
          cases hro : s.readopen
          · exact absurd (Or.inl hro) hstay
          · rfl
        refine h.goto (by rw [hpc]; rfl) rfl ⟨hknows.1, hopen⟩ ?_ ?_
        · rw [hpc]; exact id
        · rw [hpc]; exact id
    · cases hs
      exact h.goto (by rw [hpc]; rfl) rfl trivial (fun _ => rfl) (by rw [hpc]; exact id)
  | wDone i =>
    have hlock : s.lock = some p := (h.holder p).mp (by rw [hpc]; rfl)
    simp only [hpc, runPc] at hs
    cases hs
    refine (h.wakeup .nread).leave hlock rfl (fun ha => ?_) (fun ha => ?_)
    · exact absurd (leave_reader rfl ha) (wakeup_no_reader s)
    · exact (h.writer_holder hlock (by rw [hpc]; rfl) (wakeup_writer (leave_writer rfl ha))).symm
  | rLoop n =>
    simp only [hpc, runPc] at hs
    split at hs <;> cases hs
    · next hwait =>
      exact h.goto (by rw [hpc]; rfl) rfl hwait (by rw [hpc]; exact id) (by rw [hpc]; exact id)
    · exact h.goto (by rw [hpc]; rfl) rfl trivial (by rw [hpc]; exact id) (by rw [hpc]; exact id)
  | rKilled n =>
    have hlock : s.lock = some p := (h.holder p).mp (by rw [hpc]; rfl)
    have hknows := h.place p
    simp only [hpc, runPc] at hs hknows
    have hw : ∀ {pc : Pc}, (∀ i m, pc ≠ .wSleep i m) → (s.leave p pc).writerAsleep →
        s.readopen = true ∧ s.full := by
      rintro pc hne ⟨q, i, m, hq⟩
      refine (h.writer_holder hlock (by rw [hpc]; rfl) ⟨q, i, m, ?_⟩).symm
      change (s.goto p pc).pc q = _ at hq
      rw [goto_pc] at hq
      split at hq
      · exact absurd hq (hne i m)
      · exact hq
    split at hs <;> cases hs
    · exact h.leave hlock rfl (fun _ => hknows.symm) (hw (fun i m hh => nomatch hh))
    · exact h.leave hlock rfl (fun _ => hknows.symm) (hw (fun i m hh => nomatch hh))
  | rDone r =>
    have hlock : s.lock = some p := (h.holder p).mp (by rw [hpc]; rfl)
    simp only [hpc, runPc] at hs
    cases hs
    refine (h.wakeup .nwrite).leave hlock rfl (fun ha => ?_) (fun ha => ?_)
    · exact (h.reader_holder hlock (by rw [hpc]; rfl) (wakeup_reader (leave_reader rfl ha))).symm
    · exact absurd (leave_writer rfl ha) (wakeup_no_writer s)
  | _ => simp [hpc, runPc] at hs

/-- Every action other than the early return of a killed `pipewrite` next to a
sleeping reader keeps the invariant. -/
theorem step_inv {l : Lbl Pid} (h : Inv s) (hok : KilledMidWrite s l → ¬ s.readerAsleep)
    (hs : step s l = some s') : Inv s' := by
  simp only [step] at hs
  split at hs
  · cases hs
  have hcall : ∀ {p : Pid} {r : Option Int} {pc : Pc}, s.pc p = .out r → pc.holds = false →
      pc.asleep = false → Inv (s.goto p pc) := by
    intro p r pc hpc hholds hasleep
    refine h.goto ?_ hasleep (knows_of_not_holds hholds) ?_ ?_
    · rw [hpc, hholds]; rfl
    · rw [hpc]; exact fun hh => nomatch hh
    · rw [hpc]; exact fun hh => nomatch hh
  cases l with
  | write p n =>
    simp only at hs
    split at hs <;> cases hs
    next r hpc => exact hcall hpc rfl rfl
  | read p n =>
    simp only at hs
    split at hs <;> cases hs
    next r hpc => exact hcall hpc rfl rfl
  | close p w =>
    simp only at hs
    split at hs
    · split at hs <;> cases hs
      next hfree => exact pipeclose_inv w h hfree
    · cases hs
  | kkill p =>
    cases hs
    exact kkill_inv p h
  | run p => exact runPc_inv h hok hs
  | copyin p ch =>
    simp only at hs
    split at hs <;> cases hs
    next i n put hpc => exact writeByte_inv ch h hpc
  | copyout p ok =>
    simp only at hs
    split at hs <;> cases hs
    next i n hpc => exact readByte_inv ok h hpc

/-! ## Nobody sleeps without a reason -/

/-- With `pi->lock` free, a process asleep on `&pi->nread` faces an empty pipe whose
write end is open, and one asleep on `&pi->nwrite` a full pipe whose read end is open. -/
def SleepersWait (s : St Pid) : Prop :=
  s.lock = none →
    (∀ p n, s.pc p = .rSleep n → s.nread = s.nwrite ∧ s.writeopen = true) ∧
    (∀ p i n, s.pc p = .wSleep i n →
      s.nwrite = s.nread + BitVec.ofNat 32 PIPESIZE ∧ s.readopen = true)

omit [DecidableEq Pid] in
theorem Inv.sleepersWait (h : Inv s) : SleepersWait s := by
  intro hfree
  exact ⟨fun p n hp => h.reader_free hfree ⟨p, n, hp⟩,
    fun p i n hp => h.writer_free hfree ⟨p, i, n, hp⟩⟩

/-- The early return leaves the lock free, the reader asleep and a byte in the ring. -/
theorem killedMidWrite_strands {l : Lbl Pid} (h : Inv s) (hkill : KilledMidWrite s l)
    (ha : s.readerAsleep) (hs : step s l = some s') :
    ¬ SleepersWait s' := by
  obtain ⟨p, i, n, put, rfl, hpc, hin, hkilled, hput⟩ := hkill
  obtain ⟨q, m, hq⟩ := ha
  have hknows := h.place p
  simp only [hpc, Pc.knows] at hknows
  simp only [step, hpc, runPc, hin, hkilled, or_true, if_true] at hs
  split at hs <;> cases hs
  intro hwait
  have hqp : q ≠ p := by
    rintro rfl
    simp [hpc] at hq
  have hq' : (s.leave p (.out (some (-1)))).pc q = .rSleep m := by
    change (s.goto p _).pc q = _
    rw [goto_pc, if_neg hqp, hq]
  have hempty : s.empty := ((hwait rfl).1 q m hq').1
  have := (empty_iff_count s).mp hempty
  omega

/-- Sleepers always have their reason exactly in the runs in which no `pipewrite` is
found killed, after it stored bytes, while a reader sleeps. -/
theorem sleepers_wait_iff {s₀ : St Pid} (hinit : Init s₀) (ls : List (Lbl Pid)) :
    (∀ s ∈ (sys Pid).visits s₀ ls, SleepersWait s) ↔
      ∀ m ∈ (sys Pid).moves s₀ ls, ¬ (KilledMidWrite m.1 m.2 ∧ m.1.readerAsleep) := by
  refine System.visits_iff (fun _ _ => True) (fun s l => ¬ (KilledMidWrite s l ∧ s.readerAsleep))
    Inv SleepersWait (fun s h => h.sleepersWait) ?_ ?_ ls s₀ (init_inv hinit) (fun _ _ => trivial)
  · intro s l s' h _ hok hs
    exact step_inv h (fun hk ha => hok ⟨hk, ha⟩) hs
  · intro s l s' h _ hbad hs
    obtain ⟨hk, ha⟩ := not_not.mp hbad
    exact killedMidWrite_strands h hk ha hs

end

/-! ## The stranded reader -/

/-- A fresh pipe between two processes. -/
def fresh : St Bool where
  lock := none
  data := fun _ => 0
  nread := 0
  nwrite := 0
  readopen := true
  writeopen := true
  freed := false
  killed := fun _ => false
  pc := fun _ => .out none
  accepted := []
  delivered := []

theorem fresh_init : Init fresh :=
  ⟨rfl, rfl, rfl, rfl, rfl, rfl, rfl, rfl, fun _ => ⟨none, rfl⟩⟩

/-- `true` reads and falls asleep; `false` writes two bytes and is killed after the first. -/
def strandRun : List (Lbl Bool) :=
  [.read true 1, .run true, .run true, .run true,
   .write false 2, .run false, .run false, .copyin false (some 7), .kkill false, .run false]

/-- The run leaves the reader asleep next to a byte. -/
theorem strandRun_strands : ¬ ∀ s, (sys Bool).Reachable s → SleepersWait s := by
  intro hall
  obtain ⟨s, hreach, hlock, hpc, hr, hw⟩ : ∃ s, (sys Bool).Reachable s ∧ s.lock = none ∧
      s.pc true = .rSleep 1 ∧ s.nread = 0 ∧ s.nwrite = 1 :=
    System.reaches fresh_init strandRun (by decide +kernel)
  have := ((hall s hreach hlock).1 true 1 hpc).1
  rw [hr, hw] at this
  exact absurd this (by decide)

/-- The characterisation at the fresh pipe and this run. -/
theorem sleepers_wait_iff_strandRun :
    Init fresh ∧ ((∀ s ∈ (sys Bool).visits fresh strandRun, SleepersWait s) ↔
      ∀ m ∈ (sys Bool).moves fresh strandRun, ¬ (KilledMidWrite m.1 m.2 ∧ m.1.readerAsleep)) :=
  ⟨fresh_init, sleepers_wait_iff fresh_init strandRun⟩

end Xv6.Pipe
