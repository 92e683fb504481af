import Mathlib.Algebra.Order.BigOperators.Group.Finset
import Xv6.Log.Act

/-!
# Xv6.Log.Isolation — who may be inside the log

`OpsInv s A` says that `A` is the set of processes inside an operation, that
`log.outstanding` counts it, and that a committing process excludes every operation.
It gives isolation of group commit (`group_commit_isolation`): no `log_write` runs
during a commit, two of the panics are out of reach, and a sleeper in `begin_op`
always has somebody who will wake it.
-/

namespace Xv6.Log

open Lib Xv6.Bio Function

variable {Pid : Type}

/-- `A` is the set of processes inside an operation. -/
structure OpsInv (s : St Pid) (A : Finset Pid) : Prop where
  inOp : ∀ p, p ∈ A ↔ s.pc p = .inOp
  count : s.outstanding = A.card
  committer : ∀ p k, s.pc p = .commit k → s.committing = true ∧ A = ∅
  unique : ∀ p q k k', s.pc p = .commit k → s.pc q = .commit k' → p = q
  witness : s.committing = true → ∃ p k, s.pc p = .commit k
  quiet : s.committing = false → A = ∅ → s.lh = []
  erased : ∀ p k, s.pc p = .commit k → k.erased = true → s.lh = []
  asleep : ∀ p, s.pc p = .asleep → s.committing = true ∨ A.Nonempty
  panic : s.panic ≠ some .logCommitting ∧ s.panic ≠ some .outsideTrans

variable {s : St Pid}

theorem init_opsInv (h : Init s) : OpsInv s ∅ := by
  obtain ⟨hlh, hout, hcom, hpc, -, hpanic, -⟩ := h
  constructor <;> simp [hlh, hout, hcom, hpc, hpanic]

variable {A : Finset Pid} {s' : St Pid}

/-- The invariant reads neither the cache nor the history of blocks. -/
theorem OpsInv.congr (h : OpsInv s A) (hpc : s'.pc = s.pc) (hout : s'.outstanding = s.outstanding)
    (hcom : s'.committing = s.committing) (hlh : s'.lh = s.lh)
    (hpanic : s'.panic ≠ some .logCommitting ∧ s'.panic ≠ some .outsideTrans) :
    OpsInv s' A := by
  constructor
  · rw [hpc]; exact h.inOp
  · rw [hout]; exact h.count
  · rw [hpc, hcom]; exact h.committer
  · rw [hpc]; exact h.unique
  · rw [hpc, hcom]; exact h.witness
  · rw [hcom, hlh]; exact h.quiet
  · rw [hpc, hlh]; exact h.erased
  · rw [hpc, hcom]; exact h.asleep
  · exact hpanic

/-- A committing process excludes every operation. -/
theorem OpsInv.excludes (h : OpsInv s A) (hc : s.committing = true) :
    A = ∅ := by
  obtain ⟨p, k, hp⟩ := h.witness hc
  exact (h.committer p k hp).2

variable {p : Pid}

/-- During an operation nobody commits. -/
theorem OpsInv.not_committing (h : OpsInv s A) (hp : s.pc p = .inOp) :
    s.committing = false := by
  rw [Bool.eq_false_iff]
  intro hc
  have := (h.inOp p).mpr hp
  rw [h.excludes hc] at this
  exact absurd this (Finset.notMem_empty p)

theorem OpsInv.no_commit (h : OpsInv s A) (hp : s.pc p = .inOp) (q : Pid) (k : Commit) :
    s.pc q ≠ .commit k := by
  intro hq
  have hc := (h.committer q k hq).1
  rw [h.not_committing hp] at hc
  cases hc

theorem OpsInv.outstanding_pos (h : OpsInv s A) (hp : s.pc p = .inOp) :
    1 ≤ s.outstanding := by
  have hcard : 0 < A.card := Finset.card_pos.mpr ⟨p, (h.inOp p).mpr hp⟩
  rw [h.count]
  omega

/-- Nobody is in `commit()`. -/
theorem OpsInv.of_resting (hnc : ∀ q k, s.pc q ≠ .commit k) (hcom : s.committing = false)
    (hin : ∀ p, p ∈ A ↔ s.pc p = .inOp) (hcount : s.outstanding = A.card)
    (hquiet : A = ∅ → s.lh = []) (hasleep : ∀ p, s.pc p = .asleep → A.Nonempty)
    (hpanic : s.panic ≠ some .logCommitting ∧ s.panic ≠ some .outsideTrans) : OpsInv s A where
  inOp := hin
  count := hcount
  committer q k hq := absurd hq (hnc q k)
  unique q _ k _ hq := absurd hq (hnc q k)
  witness hc := absurd (hcom ▸ hc) Bool.false_ne_true
  quiet _ := hquiet
  erased q k hq := absurd hq (hnc q k)
  asleep p hp := .inr (hasleep p hp)
  panic := hpanic

variable {k : Commit}

/-- Only `p` is in `commit()`, and nobody is inside an operation. -/
theorem OpsInv.of_commit (hp : s.pc p = .commit k) (honly : ∀ q k', s.pc q = .commit k' → q = p)
    (hout : ∀ q, s.pc q ≠ .inOp) (hcount : s.outstanding = 0) (hcom : s.committing = true)
    (herased : k.erased = true → s.lh = [])
    (hpanic : s.panic ≠ some .logCommitting ∧ s.panic ≠ some .outsideTrans) : OpsInv s ∅ where
  inOp q := by simp [hout q]
  count := hcount
  committer _ _ _ := ⟨hcom, rfl⟩
  unique q q' k k' hq hq' := (honly q k hq).trans (honly q' k' hq').symm
  witness _ := ⟨p, k, hp⟩
  quiet hc := by rw [hcom] at hc; cases hc
  erased q k' hq her := by
    rw [honly q k' hq, hp, Pc.commit.injEq] at hq
    exact herased (hq ▸ her)
  asleep _ _ := .inl hcom
  panic := hpanic

section

variable [DecidableEq Pid]

/-- A process outside operations and commits moves within these places; it falls asleep
only while somebody can still wake it. -/
theorem OpsInv.goto_idle {pc : Pc} (h : OpsInv s A) (hp : s.pc p ≠ .inOp ∧ ∀ k, s.pc p ≠ .commit k)
    (hpc : pc ≠ .inOp ∧ ∀ k, pc ≠ .commit k)
    (hwake : pc = .asleep → s.committing = true ∨ A.Nonempty) : OpsInv (s.goto p pc) A := by
  have hcommit : ∀ q k, (s.goto p pc).pc q = .commit k ↔ s.pc q = .commit k :=
    fun q k => goto_eq_iff (hp.2 k) (hpc.2 k) q
  refine ⟨fun q => (h.inOp q).trans (goto_eq_iff hp.1 hpc.1 q).symm, h.count,
    fun q k hq => h.committer q k ((hcommit q k).mp hq),
    fun q q' k k' hq hq' => h.unique q q' k k' ((hcommit q k).mp hq) ((hcommit q' k').mp hq'),
    fun hc => ?_, h.quiet, fun q k hq => h.erased q k ((hcommit q k).mp hq), fun q hq => ?_,
    h.panic⟩
  · obtain ⟨q, k, hq⟩ := h.witness hc
    exact ⟨q, k, (hcommit q k).mpr hq⟩
  · rw [goto_pc] at hq
    split at hq
    · exact hwake hq
    · exact h.asleep q hq

/-! ## The steps of the operations -/

omit [DecidableEq Pid] in
/-- The log is never too full for `begin_op` when no operation is left. -/
theorem OpsInv.nonempty_of_full (h : OpsInv s A) (hfull : s.committing = true ∨
      s.lh.length + (s.outstanding + 1) * MAXOPBLOCKS > LOGBLOCKS) :
    s.committing = true ∨ A.Nonempty := by
  by_cases hc : s.committing = true
  · exact .inl hc
  right
  rw [Finset.nonempty_iff_ne_empty]
  intro hA
  have hlh := h.quiet (Bool.eq_false_iff.mpr hc) hA
  have hcount := h.count
  have hfull := hfull.resolve_left hc
  rw [hA] at hcount
  simp [hlh, hcount, MAXOPBLOCKS, LOGBLOCKS] at hfull

/-- `begin_op` admits `p`. -/
theorem OpsInv.admitted {w : Pid → List Nat} (h : OpsInv s A) (hp : s.pc p = .begin)
    (hc : s.committing = false) :
    p ∉ A ∧ OpsInv { s.goto p .inOp with outstanding := s.outstanding + 1, wrote := w }
      (insert p A) := by
  have hpA : p ∉ A := by
    rw [h.inOp p, hp]
    nofun
  refine ⟨hpA, .of_resting (fun q k hq => ?_) hc (fun q => ?_) ?_ ?_ ?_ h.panic⟩
  · have hq' := (goto_eq_iff (by rw [hp]; nofun) (by nofun) q).mp hq
    rw [(h.committer q k hq').1] at hc
    cases hc
  · change q ∈ insert p A ↔ (s.goto p .inOp).pc q = .inOp
    rw [goto_pc, Finset.mem_insert, h.inOp q]
    split
    · next hqp => simp [hqp]
    · next hqp => simp [hqp]
  · change s.outstanding + 1 = _
    rw [h.count, Finset.card_insert_of_notMem hpA]
    simp
  · exact fun hA => absurd hA (Finset.insert_ne_empty p A)
  · exact fun _ _ => Finset.insert_nonempty p A

omit [DecidableEq Pid] in
/-- `log_write` inside an operation. -/
theorem OpsInv.logWrite {lh : List Nat} {c : Bcache} {w : Pid → List Nat} (h : OpsInv s A)
    (hp : s.pc p = .inOp) :
    OpsInv { s with lh := lh, cache := c, wrote := w } A := by
  refine ⟨h.inOp, h.count, h.committer, h.unique, h.witness, ?_, ?_, h.asleep, h.panic⟩
  · intro _ hA
    have hpA := (h.inOp p).mpr hp
    rw [hA] at hpA
    exact absurd hpA (Finset.notMem_empty p)
  · exact fun q k hq => absurd hq (h.no_commit hp q k)

/-- The count after the first section of `end_op`. -/
theorem OpsInv.count_erase (h : OpsInv s A) (hp : s.pc p = .inOp) :
    s.outstanding - 1 = ((A.erase p).card : Int) := by
  have hcard := Finset.card_erase_add_one ((h.inOp p).mpr hp)
  rw [h.count]
  omega

/-- The last operation out starts the commit. -/
theorem OpsInv.lastOut (h : OpsInv s A) (hp : s.pc p = .inOp) (hlast : s.outstanding - 1 = 0) :
    OpsInv { s.goto p (.commit .start) with outstanding := s.outstanding - 1, committing := true }
      (A.erase p) := by
  have hA : A.erase p = ∅ := by
    have hcount := h.count_erase hp
    rw [← Finset.card_eq_zero]
    omega
  have hpc : ∀ q ≠ p, (s.goto p (.commit .start)).pc q = s.pc q := by
    intro q hqp
    rw [goto_pc, if_neg hqp]
  rw [hA]
  refine .of_commit (goto_self s p _) (fun q k hq => ?_) (fun q hq => ?_) hlast rfl nofun h.panic
  · by_contra hqp
    exact h.no_commit hp q k ((hpc q hqp).symm.trans hq)
  · by_cases hqp : q = p
    · rw [hqp] at hq
      cases (goto_self s p _).symm.trans hq
    · have hmem : q ∈ A.erase p :=
        Finset.mem_erase.mpr ⟨hqp, (h.inOp q).mpr ((hpc q hqp).symm.trans hq)⟩
      rw [hA] at hmem
      exact Finset.notMem_empty q hmem

/-- An operation ends while others are still inside, and wakes the sleepers. -/
theorem OpsInv.leave (h : OpsInv s A) (hp : s.pc p = .inOp) (hmore : s.outstanding - 1 ≠ 0) :
    OpsInv { s.wakeup.goto p .out with outstanding := s.outstanding - 1 } (A.erase p) := by
  have hcount := h.count_erase hp
  have hA : A.erase p ≠ ∅ := by
    intro hA
    rw [hA] at hcount
    exact hmore hcount
  refine .of_resting (fun q k hq => ?_) (h.not_committing hp) (fun q => ?_) hcount
    (fun hh => absurd hh hA) (fun _ _ => Finset.nonempty_iff_ne_empty.mpr hA) h.panic
  · have hin : s.wakeup.pc p = .inOp := (wakeup_eq_iff (by nofun) (by nofun) p).mpr hp
    have hq' := (goto_eq_iff (by rw [hin]; nofun) (by nofun) q).mp hq
    exact h.no_commit hp q k ((wakeup_eq_iff (by nofun) (by nofun) q).mp hq')
  · change q ∈ A.erase p ↔ (s.wakeup.goto p .out).pc q = .inOp
    rw [goto_pc, Finset.mem_erase, h.inOp q]
    split
    · next hqp => simp [hqp]
    · next hqp => simp [hqp, wakeup_eq_iff]

/-! ## The steps of `commit()` -/

/-- Within `commit()` only `p` moves, and it stays in `commit()`. -/
theorem OpsInv.goto_commit {q : Pid} {k' k'' : Commit} (h : OpsInv s A) (hp : s.pc p = .commit k)
    (hq : (s.goto p (.commit k')).pc q = .commit k'') :
    q = p ∧ k'' = k' := by
  rw [goto_pc] at hq
  split at hq
  · injection hq with hq
    exact ⟨by assumption, hq.symm⟩
  · next hqp => exact absurd (h.unique q p k'' k hq hp) hqp

theorem OpsInv.moves {k' : Commit} {lh : List Nat} {c : Bcache} {held : List (Pid × Nat)}
    (h : OpsInv s A) (hp : s.pc p = .commit k) (herased : k'.erased = true → lh = []) :
    OpsInv { s.goto p (.commit k') with lh := lh, cache := c, held := held } A := by
  obtain ⟨hc, rfl⟩ := h.committer p k hp
  refine .of_commit (goto_self s p _) (fun q k'' hq => (h.goto_commit hp hq).1) (fun q hq => ?_)
    h.count hc herased h.panic
  have hq' := (goto_eq_iff (by rw [hp]; nofun) (by nofun) q).mp hq
  exact Finset.notMem_empty q ((h.inOp q).mpr hq')

omit [DecidableEq Pid] in
theorem OpsInv.noBuffers (h : OpsInv s A) :
    OpsInv { s with panic := some .noBuffers } A :=
  h.congr rfl rfl rfl rfl (by simp)

theorem OpsInv.piece (h : OpsInv s A) (hp : s.pc p = .commit k) (hm : Piece s p k s') :
    OpsInv s' A := by
  cases hm with
  | goes hgo => exact h.moves hp hgo.erased
  | gets hget =>
    simp only [St.bread]
    split
    · exact h.noBuffers
    · exact h.moves hp fun her => h.erased p k hp (hget.erased _ her)
  | gives hgive => exact h.moves hp fun her => h.erased p k hp (hgive.erased her)
  | unpin => exact h.moves hp fun her => by cases her
  | clear hgo => exact h.moves hp hgo.erased

/-- The last section of `end_op`: the header is empty, everybody is woken. -/
theorem OpsInv.done (h : OpsInv s A) (hp : s.pc p = .commit .done) :
    (∀ q k, (s.wakeup.goto p .out).pc q ≠ .commit k) ∧
      OpsInv { s.wakeup.goto p .out with committing := false } A := by
  have hnc : ∀ q k, (s.wakeup.goto p .out).pc q ≠ .commit k := by
    intro q k hq
    rw [goto_pc] at hq
    split at hq
    · cases hq
    · next hqp => exact hqp (h.unique q p _ _ ((wakeup_eq_iff (by nofun) (by nofun) q).mp hq) hp)
  have hin : s.wakeup.pc p ≠ .inOp := by
    rw [(wakeup_eq_iff (by nofun) (by nofun) p).mpr hp]
    nofun
  refine ⟨hnc, .of_resting hnc rfl (fun q => ?_) h.count (fun _ => h.erased p .done hp rfl)
    (fun q hq => absurd hq (wakeup_goto_awake s p q)) h.panic⟩
  rw [h.inOp q]
  exact ((goto_eq_iff hin (by nofun) q).trans (wakeup_eq_iff (by nofun) (by nofun) q)).symm

/-! ## Every step -/

/-- The processes inside an operation after an action that ends in `s'`. -/
def opsAfter (s' : St Pid) (A : Finset Pid) : Lbl Pid → Finset Pid
  | .beginOp p => if s'.pc p = .inOp then insert p A else A
  | .endOp p => A.erase p
  | _ => A

theorem opsAfter_sleep (s : St Pid) (A : Finset Pid) (p : Pid) :
    opsAfter (s.goto p .asleep) A (.beginOp p) = A :=
  if_neg (by simp [goto_self])

theorem opsAfter_admitted (s : St Pid) (A : Finset Pid) (p : Pid) (n : Int) (w : Pid → List Nat) :
    opsAfter { s.goto p .inOp with outstanding := n, wrote := w } A (.beginOp p) = insert p A :=
  if_pos (goto_self s p .inOp)

theorem step_opsInv {start : Nat} {l : Lbl Pid} (h : OpsInv s A) (hs : step start s l = some s') :
    OpsInv s' (opsAfter s' A l) := by
  obtain ⟨-, hact⟩ := step_act hs
  cases hact with
  | enter hp => exact h.goto_idle (by simp [hp]) (by simp) nofun
  | wake hp => exact h.goto_idle (by simp [hp]) (by simp) nofun
  | sleep hp hfull =>
    rw [opsAfter_sleep]
    exact h.goto_idle (by simp [hp]) (by simp) fun _ => h.nonempty_of_full hfull
  | admitted hp hc =>
    rw [opsAfter_admitted]
    exact (h.admitted hp hc).2
  | noBuffers => exact h.noBuffers
  | bread => exact h.congr rfl rfl rfl rfl h.panic
  | tooBig => exact h.congr rfl rfl rfl rfl (by simp)
  | outside hp hlt =>
    have hpos := h.outstanding_pos hp
    omega
  | logWrite hp => exact h.logWrite hp
  | brelse => exact h.congr rfl rfl rfl rfl h.panic
  | committing hp hc =>
    rw [h.not_committing hp] at hc
    cases hc
  | lastOut hp hlast => exact h.lastOut hp hlast
  | leave hp hmore => exact h.leave hp hmore
  | run hp hm => exact h.piece hp hm
  | done hp => exact (h.done hp).2

theorem reachable_opsInv {start : Nat} (h : (sys Pid start).Reachable s) :
    ∃ A, OpsInv s A :=
  h.invariant (fun s => ∃ A, OpsInv s A) (fun _ hs => ⟨∅, init_opsInv hs⟩)
    (fun _ _ _ ⟨_, hi⟩ hs => ⟨_, step_opsInv hi hs⟩)

/-- Group commit is isolated. In every reachable state: a commit excludes operations; a
`log_write` can only run while nobody is in `commit()`; the panics "log.committing" and
"log_write outside of trans" have not happened; and a process asleep in `begin_op` finds
`log.committing` or `log.outstanding` set, with a process that is committing or inside an
operation and so will wake it. -/
theorem group_commit_isolation {start : Nat} {s : St Pid} (h : (sys Pid start).Reachable s) :
    (s.committing = true → s.outstanding = 0) ∧
    (∀ p i s', step start s (.logWrite p i) = some s' →
      s.committing = false ∧ ∀ q k, s.pc q ≠ .commit k) ∧
    s.panic ≠ some .logCommitting ∧ s.panic ≠ some .outsideTrans ∧
    (∀ p, s.pc p = .asleep → (s.committing = true ∨ 0 < s.outstanding) ∧
      ∃ q, s.pc q = .inOp ∨ ∃ k, s.pc q = .commit k) := by
  obtain ⟨A, hi⟩ := reachable_opsInv h
  refine ⟨fun hc => ?_, fun p i s' hs => ?_, hi.panic.1, hi.panic.2, fun p hp => ?_⟩
  · rw [hi.count, hi.excludes hc]
    rfl
  · cases (step_act hs).2 with
    | tooBig hp | outside hp | logWrite hp => exact ⟨hi.not_committing hp, hi.no_commit hp⟩
  · rcases hi.asleep p hp with hc | ⟨q, hq⟩
    · obtain ⟨q, k, hq⟩ := hi.witness hc
      exact ⟨Or.inl hc, q, Or.inr ⟨k, hq⟩⟩
    · have hpos := hi.outstanding_pos ((hi.inOp q).mp hq)
      exact ⟨Or.inr (by omega), q, Or.inl ((hi.inOp q).mp hq)⟩

end

/-- Process 0 commits while process 1 sleeps in `begin_op`. -/
def sleepRun : List (Lbl (Fin 3)) :=
  [.enter 0, .beginOp 0, .bread 0 100, .logWrite 0 0, .brelse 0 0, .endOp 0, .enter 1, .beginOp 1]

/-- The sleeper of that run has its committer. -/
theorem group_commit_isolation_sleepRun :
    ∃ s, (sys (Fin 3) 2).Reachable s ∧ s.committing = true ∧ s.outstanding = 0 ∧
      s.pc 1 = .asleep ∧ ∃ q, s.pc q = .inOp ∨ ∃ k, s.pc q = .commit k := by
  obtain ⟨s, hreach, hc, hasleep⟩ : ∃ s, (sys (Fin 3) 2).Reachable s ∧ s.committing = true ∧
      s.pc 1 = .asleep := System.reaches idle3_init sleepRun (by decide +kernel)
  have hiso := group_commit_isolation hreach
  exact ⟨s, hreach, hc, hiso.1 hc, hasleep, (hiso.2.2.2.2 1 hasleep).2⟩

end Xv6.Log
