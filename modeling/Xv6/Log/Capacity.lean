import Xv6.Log.Isolation

/-!
# Xv6.Log.Capacity — the reservation made by `begin_op`

`begin_op` admits an operation only if the blocks in the log plus `MAXOPBLOCKS` for every
running operation fit in `LOGBLOCKS`. `Budget s A` is what this buys: the log plus what
the operations in `A` may still add. It keeps `log.lh.n` within `LOGBLOCKS`, and every
block that is new to the log finds room. The panic "too big a transaction" tests
`log.lh.n` before it looks whether the block is logged already, so it also stops an
operation that rewrites a logged block in a full log; `log_capacity_iff` says that this
is its only cause.
-/

namespace Xv6.Log

open Lib Xv6.Bio Function

variable {Pid : Type}

/-- The blocks in the log and the reservations of the operations in `A`. -/
structure Budget (s : St Pid) (A : Finset Pid) : Prop where
  logged : ∀ p ∈ A, ∀ x ∈ s.wrote p, x ∈ s.lh
  room : s.lh.length + ∑ p ∈ A, (MAXOPBLOCKS - (s.wrote p).length) ≤ LOGBLOCKS
  panic : s.panic ≠ some .tooBigTransaction

/-- The bound on an operation: a further block only while it has logged fewer than
`MAXOPBLOCKS` distinct ones. -/
def WithinBudget (s : St Pid) : Lbl Pid → Prop
  | .logWrite p i => ∀ x ∈ s.blockOf i, x ∈ s.wrote p ∨ (s.wrote p).length < MAXOPBLOCKS
  | _ => True

/-- A `log_write` of a block that is in the log already, with the log exactly full. -/
def RewritesFullLog (s : St Pid) : Lbl Pid → Prop
  | .logWrite _ i => s.lh.length = LOGBLOCKS ∧ ∃ x ∈ s.blockOf i, x ∈ s.lh
  | _ => False

instance (s : St Pid) : ∀ l, Decidable (WithinBudget s l)
  | .logWrite p i =>
    inferInstanceAs (Decidable (∀ x ∈ s.blockOf i, x ∈ s.wrote p ∨ (s.wrote p).length < MAXOPBLOCKS))
  | .enter _ | .beginOp _ | .wake _ | .bread .. | .brelse .. | .endOp _ | .run _ =>
    inferInstanceAs (Decidable True)

variable {x : Nat} {lh : List Nat}

theorem absorb_of_mem (h : x ∈ lh) : absorb lh x = lh :=
  if_pos h

theorem absorb_of_notMem (h : x ∉ lh) : absorb lh x = lh ++ [x] :=
  if_neg h

theorem mem_absorb {y : Nat} : y ∈ absorb lh x ↔ y ∈ lh ∨ y = x := by
  simp only [absorb]
  split
  · next hx =>
    constructor
    · exact Or.inl
    · rintro (h | rfl)
      · exact h
      · exact hx
  · simp

variable {s : St Pid}

theorem init_budget (h : Init s) : Budget s ∅ := by
  obtain ⟨hlh, -, -, -, -, hpanic, -⟩ := h
  constructor <;> simp [hlh, hpanic]

variable {A : Finset Pid} {s' : St Pid}

/-- The budget of fewer operations and a shorter header. -/
theorem Budget.mono {A' : Finset Pid} (h : Budget s A) (hA : A' ⊆ A)
    (hlh : s'.lh = s.lh ∨ s'.lh = [] ∧ A' = ∅) (hw : s'.wrote = s.wrote)
    (hpanic : s'.panic ≠ some .tooBigTransaction) : Budget s' A' := by
  have hsub : ∑ q ∈ A', (MAXOPBLOCKS - (s.wrote q).length) ≤
      ∑ q ∈ A, (MAXOPBLOCKS - (s.wrote q).length) := Finset.sum_le_sum_of_subset hA
  have hroom := h.room
  rcases hlh with hlh | ⟨hlh, rfl⟩
  · refine ⟨fun q hq => ?_, ?_, hpanic⟩
    · rw [hlh, hw]
      exact h.logged q (hA hq)
    · rw [hlh, hw]
      omega
  · refine ⟨by simp, ?_, hpanic⟩
    simp [hlh]

section

variable [DecidableEq Pid] {p : Pid}

/-- `begin_op`'s test covers the newcomer's reservation. -/
theorem Budget.admitted (ho : OpsInv s A) (h : Budget s A) (hpA : p ∉ A)
    (hfits : ¬ s.lh.length + (s.outstanding + 1) * MAXOPBLOCKS > LOGBLOCKS) :
    Budget { s.goto p .inOp with outstanding := s.outstanding + 1, wrote := update s.wrote p [] }
      (insert p A) := by
  refine ⟨?_, ?_, h.panic⟩
  · intro q hq x hx
    change x ∈ update s.wrote p [] q at hx
    by_cases hqp : q = p
    · simp [hqp] at hx
    · rw [update_of_ne hqp] at hx
      exact h.logged q (Finset.mem_of_mem_insert_of_ne hq hqp) x hx
  · change s.lh.length + ∑ q ∈ insert p A, (MAXOPBLOCKS - (update s.wrote p [] q).length) ≤ _
    have hle : ∑ q ∈ A, (MAXOPBLOCKS - (update s.wrote p [] q).length) ≤
        A.card * MAXOPBLOCKS :=
      Finset.sum_le_card_nsmul _ _ _ fun q _ => Nat.sub_le _ _
    rw [Finset.sum_insert hpA]
    rw [ho.count] at hfits
    simp only [update_self, List.length_nil, MAXOPBLOCKS, LOGBLOCKS] at *
    omega

/-- The reservation of the writer pays for a block that is new to the log. -/
theorem Budget.absorb {c : Bcache} (h : Budget s A) (hpA : p ∈ A)
    (hbound : x ∈ s.wrote p ∨ (s.wrote p).length < MAXOPBLOCKS) :
    Budget { s with
      lh := Log.absorb s.lh x, cache := c, wrote := update s.wrote p (Log.absorb (s.wrote p) x) }
      A := by
  -- the sum, with the writer's own reservation in front
  have hsum := Finset.add_sum_erase A (fun q => MAXOPBLOCKS - (s.wrote q).length) hpA
  have hroom := h.room
  refine ⟨?_, ?_, h.panic⟩
  · intro q hq y hy
    change y ∈ update s.wrote p (Log.absorb (s.wrote p) x) q at hy
    rw [mem_absorb]
    by_cases hqp : q = p
    · subst hqp
      rw [update_self, mem_absorb] at hy
      exact hy.imp_left (h.logged q hq y)
    · rw [update_of_ne hqp] at hy
      exact Or.inl (h.logged q hq y hy)
  · change (Log.absorb s.lh x).length +
      ∑ q ∈ A, (MAXOPBLOCKS - (update s.wrote p (Log.absorb (s.wrote p) x) q).length) ≤ _
    have hrest : ∑ q ∈ A.erase p,
        (MAXOPBLOCKS - (update s.wrote p (Log.absorb (s.wrote p) x) q).length) =
        ∑ q ∈ A.erase p, (MAXOPBLOCKS - (s.wrote q).length) := by
      refine Finset.sum_congr rfl fun q hq => ?_
      rw [update_of_ne (Finset.ne_of_mem_erase hq)]
    rw [← Finset.add_sum_erase A _ hpA, hrest, update_self]
    by_cases hw : x ∈ s.wrote p
    · rw [absorb_of_mem hw, absorb_of_mem (h.logged p hpA x hw)]
      omega
    · have hlt := hbound.resolve_left hw
      have hle : (Log.absorb s.lh x).length ≤ s.lh.length + 1 := by
        simp only [Log.absorb]
        split <;> simp
      rw [absorb_of_notMem hw]
      simp only [List.length_append, List.length_singleton]
      omega

/-- A block that is new to a full log is beyond the writer's reservation. -/
theorem Budget.full (h : Budget s A) (hpA : p ∈ A)
    (hbound : x ∈ s.wrote p ∨ (s.wrote p).length < MAXOPBLOCKS) (hfull : LOGBLOCKS ≤ s.lh.length) :
    s.lh.length = LOGBLOCKS ∧ x ∈ s.lh := by
  have hsum := Finset.add_sum_erase A (fun q => MAXOPBLOCKS - (s.wrote q).length) hpA
  have hroom := h.room
  refine ⟨by omega, h.logged p hpA x ?_⟩
  by_contra hnew
  have hlt := hbound.resolve_left hnew
  omega

/-- Every step within the per-operation bound keeps the budget, unless it rewrites a logged
block in a full log. -/
theorem step_budget {start : Nat} {l : Lbl Pid} (ho : OpsInv s A) (h : Budget s A)
    (hbound : WithinBudget s l) (hok : ¬ RewritesFullLog s l) (hs : step start s l = some s') :
    Budget s' (opsAfter s' A l) := by
  obtain ⟨hnone, hact⟩ := step_act hs
  have hkeep : ∀ {t : St Pid}, t.lh = s.lh → t.wrote = s.wrote →
      t.panic ≠ some .tooBigTransaction → Budget t A :=
    fun hlh hw hpanic => h.mono (Finset.Subset.refl A) (.inl hlh) hw hpanic
  cases hact with
  | enter | wake | bread | brelse => exact hkeep rfl rfl h.panic
  | sleep =>
    rw [opsAfter_sleep]
    exact hkeep rfl rfl h.panic
  | admitted hp hc hfits =>
    rw [opsAfter_admitted]
    exact h.admitted ho (ho.admitted hp hc (w := s.wrote)).1 hfits
  | noBuffers | outside => exact hkeep rfl rfl (by simp)
  | tooBig hp hx hfull =>
    have hfits := h.full ((ho.inOp _).mpr hp) (hbound _ hx) hfull
    exact absurd ⟨hfits.1, _, hx, hfits.2⟩ hok
  | logWrite hp _ hx => exact h.absorb ((ho.inOp _).mpr hp) (hbound _ hx)
  | committing => exact h.mono (Finset.erase_subset _ A) (.inl rfl) rfl (by simp)
  | lastOut | leave => exact h.mono (Finset.erase_subset _ A) (.inl rfl) rfl h.panic
  | done => exact hkeep rfl rfl h.panic
  | run hp hm =>
    obtain ⟨-, rfl⟩ := ho.committer _ _ hp
    cases hm with
    | gets =>
      simp only [St.bread]
      split
      · exact hkeep rfl rfl (by simp)
      · exact hkeep rfl rfl h.panic
    | clear => exact h.mono (Finset.Subset.refl ∅) (.inr ⟨rfl, rfl⟩) rfl h.panic
    | goes | gives | unpin => exact hkeep rfl rfl h.panic

/-- A rewrite of a logged block in a full log panics. -/
theorem rewrite_panics {start : Nat} {l : Lbl Pid} (hr : RewritesFullLog s l)
    (hs : step start s l = some s') : s'.panic = some .tooBigTransaction := by
  cases l with
  | logWrite p i =>
    obtain ⟨hfull, -⟩ := hr
    cases (step_act hs).2 with
    | tooBig => rfl
    | outside hroom | logWrite _ _ _ hroom => omega
  | _ => exact absurd hr id

/-- In a run whose operations log at most `MAXOPBLOCKS` distinct blocks each, the log stays
within `LOGBLOCKS` and no `log_write` panics with "too big a transaction" exactly when no
step rewrites a logged block while the log is full. -/
theorem log_capacity_iff {start : Nat} {s₀ : St Pid} (hinit : Init s₀) (ls : List (Lbl Pid))
    (hbound : ∀ m ∈ (sys Pid start).moves s₀ ls, WithinBudget m.1 m.2) :
    (∀ s ∈ (sys Pid start).visits s₀ ls,
        s.lh.length ≤ LOGBLOCKS ∧ s.panic ≠ some .tooBigTransaction) ↔
      ∀ m ∈ (sys Pid start).moves s₀ ls, ¬ RewritesFullLog m.1 m.2 := by
  refine System.visits_iff WithinBudget (fun s l => ¬ RewritesFullLog s l)
    (fun s => ∃ A, OpsInv s A ∧ Budget s A) _ ?_ ?_ ?_ ls s₀
    ⟨∅, init_opsInv hinit, init_budget hinit⟩ hbound
  · rintro s ⟨A, -, h⟩
    exact ⟨le_trans (Nat.le_add_right _ _) h.room, h.panic⟩
  · rintro s l s' ⟨A, ho, h⟩ hb hok hs
    exact ⟨_, step_opsInv ho hs, step_budget ho h hb hok hs⟩
  · intro s l s' _ _ hbad hs hP
    exact hP.2 (rewrite_panics (not_not.mp hbad) hs)

end

/-! ## Three operations that fill the log -/

/-- Process `p` logs the ten blocks from `100 + 10 * p` on. -/
def tenWrites (p : Fin 3) : List (Lbl (Fin 3)) :=
  (List.range MAXOPBLOCKS).flatMap fun j =>
    [.bread p (100 + 10 * p + j), .logWrite p (10 * p + j), .brelse p (10 * p + j)]

/-- All three are admitted and log ten blocks each. -/
def fillLog : List (Lbl (Fin 3)) :=
  [.enter 0, .beginOp 0, .enter 1, .beginOp 1, .enter 2, .beginOp 2] ++
  tenWrites 0 ++ tenWrites 1 ++ tenWrites 2

/-- Then the first one logs its first block once more. -/
def rewriteRun : List (Lbl (Fin 3)) := fillLog ++ [.bread 0 100, .logWrite 0 0]

theorem rewriteRun_within : ∀ m ∈ (sys (Fin 3) 2).moves idle3 rewriteRun, WithinBudget m.1 m.2 := by
  decide +kernel

/-- The rewrite, free by log absorption, panics. -/
theorem rewriteRun_panics :
    ¬ ∀ ls : List (Lbl (Fin 3)), (∀ m ∈ (sys (Fin 3) 2).moves idle3 ls, WithinBudget m.1 m.2) →
      ∀ s ∈ (sys (Fin 3) 2).visits idle3 ls,
        s.lh.length ≤ LOGBLOCKS ∧ s.panic ≠ some .tooBigTransaction := by
  intro hall
  have hfine := hall rewriteRun rewriteRun_within
  have hbad : ∃ s ∈ (sys (Fin 3) 2).visits idle3 rewriteRun,
      s.panic = some .tooBigTransaction := by decide +kernel
  obtain ⟨s, hs, hpanic⟩ := hbad
  exact (hfine s hs).2 hpanic

/-- The characterisation at that run. -/
theorem log_capacity_iff_rewriteRun :
    Init idle3 ∧ (∀ m ∈ (sys (Fin 3) 2).moves idle3 rewriteRun, WithinBudget m.1 m.2) ∧
    ((∀ s ∈ (sys (Fin 3) 2).visits idle3 rewriteRun,
        s.lh.length ≤ LOGBLOCKS ∧ s.panic ≠ some .tooBigTransaction) ↔
      ∀ m ∈ (sys (Fin 3) 2).moves idle3 rewriteRun, ¬ RewritesFullLog m.1 m.2) :=
  ⟨idle3_init, rewriteRun_within, log_capacity_iff idle3_init rewriteRun rewriteRun_within⟩

end Xv6.Log
