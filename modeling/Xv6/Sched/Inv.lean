import Xv6.Lib.Holding
import Xv6.Sched.Basic

/-!
# Xv6.Sched.Inv — where the process locks are

What each thread has in hand of the process locks follows from where it is, on either side
of `swtch` (`Thread.locked`), and so does the state of a process: one that runs has set its
state only between its own `acquire(&p->lock)` and `sched` (`Active`), one that does not run
is where `swtch` left it (`Parked`). `Inv` says so of a state, and the rules after it give
what has to be checked of a step: `Inv.run` and its cases `move`, `goto`, `visit` and
`refill` for a thread that goes on, `Inv.switch` for a CPU that changes threads.
-/

namespace Xv6.Sched

open Lib Function

variable {P : Protocol} {C : Type} {n : Nat}

/-! ## Reading a thread -/

/-- The process a CPU has as `c->proc`. -/
def Thread.proc : Thread n → Option (Fin n)
  | .run p | .back p => some p
  | .scan _ | .hold _ => none

/-- The process lock that the thread of `p` holds. -/
def Pc.locked (p : Fin n) : Pc n → Option (Fin n)
  | .forkret | .yieldSet _ | .yieldSched _ | .yieldBack _ | .sleepRel .. | .sleepSet ..
  | .sleepSched _ | .sleepBack _ | .exitZombie | .exitSched | .exitBack => some p
  | .wakeHold _ k _ | .killHold _ k | .forkHold k | .forkRun k | .waitHold k => some k
  | _ => none

/-- The process lock that a CPU holds. -/
def Thread.locked (pc : Fin n → Pc n) : Thread n → Option (Fin n)
  | .scan _ => none
  | .hold k | .back k => some k
  | .run p => (pc p).locked p

/-- The slot a `kfork` under way has taken, also while the process that forks is preempted. -/
def Pc.target : Pc n → Option (Fin n)
  | .forkParent np | .forkAcq np | .forkRun np => some np
  | .yieldAcq pc | .yieldSet pc | .yieldSched pc | .yieldBack pc => pc.target
  | _ => none

/-- `yield` interrupts code that holds no lock. -/
def Pc.Nested : Pc n → Prop
  | .yieldAcq pc | .yieldSet pc | .yieldSched pc | .yieldBack pc => pc.interruptible = true
  | _ => True

/-- The state of a process that a CPU is executing. -/
def Active : ProcState → Pc n → Prop
  | st, .yieldSched _ => st = .runnable
  | st, .sleepSched _ => st = .sleeping
  | st, .exitSched => st = .zombie
  | _, .dead | _, .exitBack => False
  | st, _ => st = .running

/-- Where a process is that no CPU is executing. -/
def Parked : ProcState → Pc n → Prop
  | .unused, pc => pc = .dead
  | .used, pc => pc = .forkret
  | .sleeping, pc => ∃ lk, pc = .sleepBack lk
  | .runnable, pc => pc = .forkret ∨ (∃ pc', pc = .yieldBack pc') ∨ ∃ lk, pc = .sleepBack lk
  | .running, _ => False
  | .zombie, pc => pc = .exitBack

variable {pc : Pc n} {st : ProcState}

theorem Active.eq_running (h : Active st pc) (hy : ∀ pc', pc ≠ .yieldSched pc')
    (hs : ∀ lk, pc ≠ .sleepSched lk) (he : pc ≠ .exitSched) :
    st = .running := by
  cases pc <;> simp_all [Active]

/-- A process that a CPU executes in another state than `RUNNING` has its own lock. -/
theorem Active.locked_self (h : Active st pc) (hst : st ≠ .running) (p : Fin n) :
    pc.locked p = some p := by
  cases pc <;> simp_all [Active, Pc.locked]

theorem Active.ne_used (h : Active st pc) : st ≠ .used := by
  cases pc <;> simp_all [Active]

/-- A process that may be chosen continues with its lock, which the scheduler took. -/
theorem Parked.resume (h : Parked .runnable pc) (p : Fin n) :
    Active .running pc ∧ pc.locked p = some p := by
  rcases h with rfl | ⟨pc', rfl⟩ | ⟨lk, rfl⟩ <;> exact ⟨rfl, rfl⟩

theorem interruptible_spec (h : pc.interruptible = true) (p : Fin n) :
    Active .running pc ∧ pc.locked p = none ∧ pc.Nested := by
  cases pc <;> simp_all [Pc.interruptible, Active, Pc.locked, Pc.Nested]

theorem Proc.woken_state (chan : Option (Chan n)) (q : Proc n) :
    (q.woken chan).state = q.state ∨ (q.state = .sleeping ∧ (q.woken chan).state = .runnable) := by
  unfold Proc.woken
  split
  case isTrue h => exact .inr ⟨h.1, rfl⟩
  case isFalse => exact .inl rfl

theorem Proc.kill_state (q : Proc n) :
    q.kill.state = q.state ∨ (q.state = .sleeping ∧ q.kill.state = .runnable) := by
  unfold Proc.kill
  by_cases h : q.state = .sleeping
  · exact .inr ⟨h, by simp [h]⟩
  · exact .inl (by simp [h])

/-! ## The invariant -/

def owns (s : St P C n) (c : C) : Option (Fin n) := (s.cpu c).thread.locked s.pc

structure Inv (s : St P C n) : Prop where
  cur : ∀ c, (s.cpu c).proc = (s.cpu c).thread.proc
  alone : ∀ c c' p, (s.cpu c).thread.proc = some p → (s.cpu c').thread.proc = some p → c = c'
  locks : Holding s.plock (owns s)
  active : ∀ c p, (s.cpu c).thread = .run p → Active (s.proc p).state (s.pc p)
  parked : ∀ p, (∀ c, (s.cpu c).thread ≠ .run p) → Parked (s.proc p).state (s.pc p)
  nested : ∀ p, (s.pc p).Nested
  -- the slot a fork has taken stays USED, and no other fork has it
  target : ∀ q np, (s.pc q).target = some np → (s.proc np).state = .used
  apart : ∀ q q' np, (s.pc q).target = some np → (s.pc q').target = some np → q = q'
  quiet : s.panicked = none ∨ s.panicked = some .initExiting

theorem Inv.init [DecidableEq C] {init : Fin n} {s : St P C n} (h : Init init s) : Inv s := by
  rcases h with ⟨hproc, hpc, hplock, hcpu, -, -, -, hpanic⟩
  have hthread : ∀ c, (s.cpu c).thread = .scan 0 := fun c => by rw [hcpu c]
  have htarget : ∀ q, (s.pc q).target = none := by
    intro q
    rw [hpc q]
    split <;> rfl
  refine ⟨fun c => by rw [hcpu c]; rfl, ?_, ?_, ?_, ?_, ?_, ?_, ?_, .inl hpanic⟩
  · intro c c' p hc
    rw [hthread c] at hc
    cases hc
  · intro k c
    unfold owns
    rw [hplock k, hthread c]
    exact ⟨nofun, nofun⟩
  · intro c p hc
    rw [hthread c] at hc
    cases hc
  · intro p _
    rw [hproc p, hpc p]
    split
    · exact .inl rfl
    · rfl
  · intro p
    rw [hpc p]
    split <;> exact trivial
  · intro q np hq
    rw [htarget q] at hq
    cases hq
  · intro q q' np hq
    rw [htarget q] at hq
    cases hq

section Steps

variable {s t : St P C n} {c : C} {p : Fin n}

theorem Inv.run_inj (h : Inv s) (hc : (s.cpu c).thread = .run p) {c' : C}
    (hc' : (s.cpu c').thread = .run p) : c' = c :=
  h.alone c' c p (by rw [hc']; rfl) (by rw [hc]; rfl)

variable {k : Fin n} (h : Inv s)
include h

/-- A process whose lock another thread holds, and which is not `RUNNING`, is not executed. -/
theorem Inv.parked_of_locked (hlock : s.plock k = some c) (hc : (s.cpu c).thread ≠ .run k)
    (hst : (s.proc k).state ≠ .running) :
    ∀ c', (s.cpu c').thread ≠ .run k := by
  intro c' hc'
  have hown : owns s c' = some k := by
    unfold owns
    rw [hc']
    exact (h.active c' k hc').locked_self hst k
  have := (h.locks k c').mpr hown
  rw [hlock] at this
  cases this
  exact hc hc'

section
variable (hc : (s.cpu c).thread = .run p)
include hc

/-- The rule for a step of the thread of `p`: it moves, in hand at most one lock more or
less, and the slots whose state it changes are its own or are not executed. -/
theorem Inv.run [DecidableEq C] (hcpu : t.cpu = s.cpu)
    (hhand : Handle c ((s.pc p).locked p) ((t.pc p).locked p) s.plock t.plock)
    (hself : Active (t.proc p).state (t.pc p)) (hnest : (t.pc p).Nested)
    (hother : ∀ q ≠ p, (t.pc q = s.pc q ∧ (t.proc q).state = (s.proc q).state) ∨
      ((∀ c', (s.cpu c').thread ≠ .run q) ∧ Parked (t.proc q).state (t.pc q) ∧
        (t.pc q).Nested ∧ ((t.pc q).target = (s.pc q).target ∨ (t.pc q).target = none)))
    (hkeep : ∀ q np, q ≠ p → (s.pc q).target = some np → (t.proc np).state = .used)
    (htarget : ∀ np, (t.pc p).target = some np → (t.proc np).state = .used ∧
      ∀ q ≠ p, (s.pc q).target ≠ some np)
    (hquiet : t.panicked = none ∨ t.panicked = some .initExiting) : Inv t := by
  -- what another thread waits to do is what it waited to do before
  have hold : ∀ q np, q ≠ p → (t.pc q).target = some np → (s.pc q).target = some np := by
    intro q np hq ht
    rcases hother q hq with ⟨hpc, -⟩ | ⟨-, -, -, heq | hnone⟩
    · rwa [← hpc]
    · rwa [← heq]
    · rw [hnone] at ht
      cases ht
  refine ⟨by rw [hcpu]; exact h.cur, by rw [hcpu]; exact h.alone, ?_, ?_, ?_, ?_, ?_, ?_, hquiet⟩
  · refine h.locks.handle (c := c) ?_ ?_
    · unfold owns
      rw [hcpu, hc]
      exact hhand
    intro c' hne
    unfold owns
    rw [hcpu]
    match hth : (s.cpu c').thread with
    | .scan _ | .hold _ | .back _ => rfl
    | .run q =>
      have hq : q ≠ p := fun e => hne (h.run_inj hc (e ▸ hth))
      rcases hother q hq with ⟨hpc, -⟩ | ⟨hidle, -⟩
      · show (t.pc q).locked q = (s.pc q).locked q
        rw [hpc]
      · exact absurd hth (hidle c')
  · intro c' q hth
    rw [hcpu] at hth
    by_cases hq : q = p
    · subst hq
      exact hself
    · rcases hother q hq with ⟨hpc, hst⟩ | ⟨hidle, -⟩
      · rw [hpc, hst]
        exact h.active c' q hth
      · exact absurd hth (hidle c')
  · intro q hidle
    rw [hcpu] at hidle
    have hq : q ≠ p := fun e => hidle c (e ▸ hc)
    rcases hother q hq with ⟨hpc, hst⟩ | ⟨-, hparked, -⟩
    · rw [hpc, hst]
      exact h.parked q hidle
    · exact hparked
  · intro q
    by_cases hq : q = p
    · subst hq
      exact hnest
    · rcases hother q hq with ⟨hpc, -⟩ | ⟨-, -, hn, -⟩
      · rw [hpc]
        exact h.nested q
      · exact hn
  · intro q np hq
    by_cases hqp : q = p
    · subst hqp
      exact (htarget np hq).1
    · exact hkeep q np hqp (hold q np hqp hq)
  · intro q q' np hq hq'
    by_cases hqp : q = p
    · subst hqp
      by_contra hne
      exact (htarget np hq).2 q' (Ne.symm hne) (hold q' np (Ne.symm hne) hq')
    · by_cases hqp' : q' = p
      · subst hqp'
        exact absurd (hold q np hqp hq) ((htarget np hq').2 q hqp)
      · exact h.apart q q' np (hold q np hqp hq) (hold q' np hqp' hq')

theorem Inv.hand (hk : (s.pc p).locked p = some k) :
    s.plock k = some c := by
  apply (h.locks k c).mpr
  unfold owns
  rw [hc]
  exact hk

/-- A slot that a fork has taken is not executed. -/
theorem Inv.target_ne {q : Fin n} (hq : (s.pc q).target = some p) :
    False :=
  (h.active c p hc).ne_used (h.target q p hq)

/-- A step that changes nothing but the pc, the lock in hand and the own state. -/
theorem Inv.move [DecidableEq C] (hcpu : t.cpu = s.cpu) (hpc : t.pc = update s.pc p pc)
    (hhand : Handle c ((s.pc p).locked p) (pc.locked p) s.plock t.plock)
    (hact : Active (t.proc p).state pc) (hstate : ∀ q ≠ p, (t.proc q).state = (s.proc q).state)
    (hnest : pc.Nested) (htgt : pc.target = (s.pc p).target ∨ pc.target = none)
    (hpanic : t.panicked = s.panicked) : Inv t := by
  have hpcp : t.pc p = pc := by rw [hpc, update_self]
  have hkeep : ∀ q np, (s.pc q).target = some np → (t.proc np).state = .used := by
    intro q np hq
    have hne : np ≠ p := fun e => h.target_ne hc (e ▸ hq)
    rw [hstate np hne]
    exact h.target q np hq
  refine h.run hc hcpu (hpcp ▸ hhand) (hpcp ▸ hact) (hpcp ▸ hnest) ?_ (fun q np _ => hkeep q np) ?_
    (hpanic ▸ h.quiet)
  · intro q hq
    exact .inl ⟨by rw [hpc, update_of_ne hq], hstate q hq⟩
  · intro np hnp
    rw [hpcp] at hnp
    rcases htgt with heq | hnone
    · rw [heq] at hnp
      exact ⟨hkeep p np hnp, fun q hq hq' => hq (h.apart q p np hq' hnp)⟩
    · rw [hnone] at hnp
      cases hnp

/-- A step that ends a visit to slot `k`, which it may have woken. -/
theorem Inv.visit [DecidableEq C] {d : Pc n} (hrun : (s.proc p).state = .running)
    (hk : (s.pc p).locked p = some k) (hcpu : t.cpu = s.cpu) (hpc : t.pc = update s.pc p d)
    (hhand : Handle c ((s.pc p).locked p) (d.locked p) s.plock t.plock)
    (hstate : ∀ q ≠ k, (t.proc q).state = (s.proc q).state)
    (hwoken : (t.proc k).state = (s.proc k).state ∨
      ((s.proc k).state = .sleeping ∧ (t.proc k).state = .runnable)) (hact : Active .running d)
    (hnest : d.Nested) (htgt : d.target = none) (hpanic : t.panicked = s.panicked) :
    Inv t := by
  have hpcp : t.pc p = d := by rw [hpc, update_self]
  have hsame : ∀ q, (s.proc q).state ≠ .sleeping → (t.proc q).state = (s.proc q).state := by
    intro q hq
    by_cases hqk : q = k
    · subst hqk
      rcases hwoken with heq | ⟨hsleep, -⟩
      · exact heq
      · exact absurd hsleep hq
    · exact hstate q hqk
  have hself : (t.proc p).state = .running := by
    rw [hsame p (by rw [hrun]; decide), hrun]
  refine h.run hc hcpu (hpcp ▸ hhand) (by rw [hpcp, hself]; exact hact) (hpcp ▸ hnest) ?_ ?_ ?_
    (hpanic ▸ h.quiet)
  · intro q hq
    have hpcq : t.pc q = s.pc q := by rw [hpc, update_of_ne hq]
    by_cases hsleep : (s.proc q).state = .sleeping
    · by_cases hqk : q = k
      · subst hqk
        -- the sleeper is not executed, since its lock is in the hand of p
        have hidle := h.parked_of_locked (h.hand hc hk)
          (fun e => hq (by rw [hc] at e; cases e; rfl)) (by rw [hsleep]; decide)
        rcases hwoken with heq | ⟨-, hw⟩
        · exact .inl ⟨hpcq, heq⟩
        · have hparked := h.parked q hidle
          rw [hsleep] at hparked
          exact .inr ⟨hidle, by rw [hw, hpcq]; exact .inr (.inr hparked), hpcq ▸ h.nested q,
            .inl (by rw [hpcq])⟩
      · exact .inl ⟨hpcq, hstate q hqk⟩
    · exact .inl ⟨hpcq, hsame q hsleep⟩
  · intro q np _ hnp
    have := h.target q np hnp
    rw [hsame np (by rw [this]; decide), this]
  · intro np hnp
    rw [hpcp, htgt] at hnp
    cases hnp

/-- A step that moves on, changing locks and data other than the process locks. -/
theorem Inv.goto [DecidableEq C] (hpc : t.pc = update s.pc p pc)
    (hlock : pc.locked p = (s.pc p).locked p) (hact : Active (s.proc p).state pc)
    (hnest : pc.Nested) (htgt : pc.target = (s.pc p).target ∨ pc.target = none)
    (hrest : t.cpu = s.cpu ∧ t.plock = s.plock ∧ t.panicked = s.panicked ∧
      ∀ q, (t.proc q).state = (s.proc q).state) : Inv t := by
  rcases hrest with ⟨hcpu, hplock, hpanic, hstate⟩
  exact h.move hc hcpu hpc (.keep hlock hplock) (by rw [hstate p]; exact hact)
    (fun q _ => hstate q) hnest htgt hpanic

/-- A step that ends a visit to slot `k` by starting the life of its process or ending it. -/
theorem Inv.refill [DecidableEq C] {d e : Pc n} (hrun : (s.proc p).state = .running)
    (hk : (s.pc p).locked p = some k) (hst : (s.proc k).state ≠ .running ∧ (s.proc k).state ≠ .used)
    (hcpu : t.cpu = s.cpu) (hpc : t.pc = update (update s.pc p d) k e)
    (hplock : t.plock = update s.plock k none)
    (hstate : ∀ q ≠ k, (t.proc q).state = (s.proc q).state) (hpark : Parked (t.proc k).state e)
    (hnest' : e.Nested) (htgt' : e.target = none) (hact : Active .running d)
    (hout : d.locked p = none) (hnest : d.Nested)
    (htgt : d.target = none ∨ d.target = some k ∧ (t.proc k).state = .used)
    (hpanic : t.panicked = s.panicked) : Inv t := by
  have hne : p ≠ k := fun e => hst.1 (e ▸ hrun)
  have hpcp : t.pc p = d := by rw [hpc, update_of_ne hne, update_self]
  have hpck : t.pc k = e := by rw [hpc, update_self]
  have hfree : ∀ q, (s.pc q).target ≠ some k := fun q hq => hst.2 (h.target q k hq)
  have hidle := h.parked_of_locked (h.hand hc hk)
    (fun e => hne (by rw [hc] at e; cases e; rfl)) hst.1
  refine h.run hc hcpu ?_ ?_ (hpcp ▸ hnest) ?_ ?_ ?_ (hpanic ▸ h.quiet)
  · exact .put k hk (by rw [hpcp, hout]) hplock
  · rw [hpcp, hstate p hne, hrun]
    exact hact
  · intro q hq
    by_cases hqk : q = k
    · subst hqk
      exact .inr ⟨hidle, by rw [hpck]; exact hpark, hpck ▸ hnest', .inr (by rw [hpck, htgt'])⟩
    · refine .inl ⟨?_, hstate q hqk⟩
      rw [hpc, update_of_ne hqk, update_of_ne hq]
  · intro q np _ hnp
    have hnk : np ≠ k := fun e => hfree q (e ▸ hnp)
    rw [hstate np hnk]
    exact h.target q np hnp
  · intro np hnp
    rw [hpcp] at hnp
    rcases htgt with hnone | ⟨hsome, hused⟩
    · rw [hnone] at hnp
      cases hnp
    · rw [hsome] at hnp
      cases hnp
      exact ⟨hused, fun q _ => hfree q⟩

end

/-- The rule for a step after which CPU `c` executes something else. -/
theorem Inv.switch [DecidableEq C] {x : Cpu n} (hcpu : t.cpu = update s.cpu c x)
    (hcur : x.proc = x.thread.proc)
    (halone : ∀ q, x.thread.proc = some q → ∀ c' ≠ c, (s.cpu c').thread.proc ≠ some q)
    (hhand : Handle c (owns s c) (x.thread.locked t.pc) s.plock t.plock)
    (hsame : ∀ q, (t.pc q = s.pc q ∧ (t.proc q).state = (s.proc q).state) ∨
      ∀ c' ≠ c, (s.cpu c').thread ≠ .run q)
    (hact : ∀ q, x.thread = .run q → Active (t.proc q).state (t.pc q))
    (hpark : ∀ q, x.thread ≠ .run q → (∀ c' ≠ c, (s.cpu c').thread ≠ .run q) →
      Parked (t.proc q).state (t.pc q)) (hnest : ∀ q, (t.pc q).Nested)
    (htarget : ∀ q, (t.pc q).target = (s.pc q).target)
    (hused : ∀ q, (s.proc q).state = .used → (t.proc q).state = .used)
    (hpanic : t.panicked = s.panicked) : Inv t := by
  have hat : t.cpu c = x := by rw [hcpu, update_self]
  have hoff : ∀ c' ≠ c, t.cpu c' = s.cpu c' := fun c' hne => by
    rw [hcpu, update_of_ne hne]
  refine ⟨?_, ?_, ?_, ?_, ?_, hnest, ?_, ?_, hpanic ▸ h.quiet⟩
  · intro c'
    by_cases hc' : c' = c
    · subst hc'
      rw [hat]
      exact hcur
    · rw [hoff c' hc']
      exact h.cur c'
  · intro c₁ c₂ q h₁ h₂
    by_cases hc₁ : c₁ = c <;> by_cases hc₂ : c₂ = c
    · rw [hc₁, hc₂]
    · rw [hc₁, hat] at h₁
      rw [hoff c₂ hc₂] at h₂
      exact absurd h₂ (halone q h₁ c₂ hc₂)
    · rw [hc₂, hat] at h₂
      rw [hoff c₁ hc₁] at h₁
      exact absurd h₁ (halone q h₂ c₁ hc₁)
    · rw [hoff c₁ hc₁] at h₁
      rw [hoff c₂ hc₂] at h₂
      exact h.alone c₁ c₂ q h₁ h₂
  · refine h.locks.handle (c := c) ?_ ?_
    · show Handle c (owns s c) ((t.cpu c).thread.locked t.pc) s.plock t.plock
      rw [hat]
      exact hhand
    intro c' hne
    unfold owns
    rw [hoff c' hne]
    match hth : (s.cpu c').thread with
    | .scan _ | .hold _ | .back _ => rfl
    | .run q =>
      rcases hsame q with ⟨hpc, -⟩ | hidle
      · show (t.pc q).locked q = (s.pc q).locked q
        rw [hpc]
      · exact absurd hth (hidle c' hne)
  · intro c' q hth
    by_cases hc' : c' = c
    · subst hc'
      rw [hat] at hth
      exact hact q hth
    · rw [hoff c' hc'] at hth
      rcases hsame q with ⟨hpc, hst⟩ | hidle
      · rw [hpc, hst]
        exact h.active c' q hth
      · exact absurd hth (hidle c' hc')
  · intro q hidle
    refine hpark q ?_ ?_
    · rw [← hat]
      exact hidle c
    · intro c' hne
      rw [← hoff c' hne]
      exact hidle c'
  · intro q np hq
    rw [htarget q] at hq
    exact hused np (h.target q np hq)
  · intro q q' np hq hq'
    rw [htarget q] at hq
    rw [htarget q'] at hq'
    exact h.apart q q' np hq hq'

end Steps

end Xv6.Sched
