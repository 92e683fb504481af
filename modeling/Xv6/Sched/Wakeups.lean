import Xv6.Sched.Exclusive

/-!
# Xv6.Sched.Wakeups — no lost wakeup

A sleeper that found the condition false holds its own lock from before it drops `lk` until
it is off its CPU. So a waker, who changes the data with `lk` held, cannot get past the slot
of that sleeper before it is `SLEEPING` on the channel (`NoLost`): whoever waits, either the
condition is still false or the waker is yet to come to its slot.
-/

namespace Xv6.Sched

open Lib Function

variable {P : Protocol} {C : Type} {n : Nat}

/-! ## Sleepers and wakers -/

/-- The slot that a waker of the condition comes to next. -/
def Pc.waking : Pc n → Option Nat
  | .wake (some .cond) k .cond => some k
  | .wakeHold (some .cond) k .cond => some k
  | _ => none

/-- `p` has given up `lk` to sleep, and has not been woken. -/
def Waits (s : St P C n) (p : Fin n) : Prop :=
  (s.proc p).asleep ∨ (s.pc p).setting = true

/-- Where the process is that a CPU executes. -/
def task (s : St P C n) (c : C) : Pc n :=
  match (s.cpu c).thread with
  | .run p => s.pc p
  | _ => .dead

variable {pc : Pc n}

theorem waking_hand {j : Nat} (h : pc.waking = some j) : pc.hand = some () := by
  unfold Pc.waking at h
  split at h
  · rfl
  · rfl
  · cases h

theorem Pc.Plain.waking (h : pc.Plain) : pc.waking = none := by
  by_contra hne
  rcases Option.ne_none_iff_exists'.mp hne with ⟨j, hj⟩
  have := waking_hand hj
  rw [h.1] at this
  cases this

structure NoLost (s : St P C n) : Prop where
  lk : Holding (fun _ : Unit => s.lk) fun c => (task s c).hand
  tested : ∀ c lk, (task s c).tested = some lk → lk = .cond ∧ P.cond s.data = false
  waits : ∀ p, Waits s p → P.cond s.data = false ∨
    ∃ c j, (task s c).waking = some j ∧ j ≤ p.val

/-! ## The rules -/

variable {k : Fin n}

section Rules

variable {s t : St P C n} {c : C} {p : Fin n}

theorem NoLost.init [DecidableEq C] {init : Fin n} (h : Init init s) : NoLost s := by
  rcases h with ⟨hproc, hpc, -, hcpu, -, hlk, -, -⟩
  have htask : ∀ c, task s c = .dead := fun c => by
    unfold task
    rw [hcpu c]
  refine ⟨?_, ?_, ?_⟩
  · intro _ c
    show s.lk = some c ↔ (task s c).hand = some ()
    rw [hlk, htask c]
    exact ⟨nofun, nofun⟩
  · intro c lk ht
    rw [htask c] at ht
    cases ht
  · intro p hw
    rcases hw with ⟨hst, -⟩ | hset
    · rw [hproc p] at hst
      split at hst <;> cases hst
    · rw [hpc p] at hset
      split at hset <;> cases hset

/-- A step of CPU `c` that leaves the data alone. -/
theorem NoLost.go [DecidableEq C] (h : NoLost s) (hother : ∀ c' ≠ c, task t c' = task s c')
    (hlk : Handle c (task s c).hand (task t c).hand (fun _ => s.lk) fun _ => t.lk)
    (hdata : t.data = s.data) (hwaits : ∀ q, Waits t q → Waits s q ∨ P.cond s.data = false)
    (htested : ∀ lk, (task t c).tested = some lk → lk = .cond ∧ P.cond s.data = false)
    (hwaker : ∀ q j, Waits t q → (task s c).waking = some j → j ≤ q.val →
      ∃ j', (task t c).waking = some j' ∧ j' ≤ q.val) : NoLost t := by
  refine ⟨h.lk.handle hlk fun c' hne => by rw [hother c' hne], ?_, ?_⟩
  · intro c' lk ht
    rw [hdata]
    by_cases hc : c' = c
    · subst hc
      exact htested lk ht
    · rw [hother c' hc] at ht
      exact h.tested c' lk ht
  · intro q hq
    rw [hdata]
    rcases hwaits q hq with hq' | hfalse
    · rcases h.waits q hq' with hfalse | ⟨c', j, hj, hle⟩
      · exact .inl hfalse
      · by_cases hc : c' = c
        · subst hc
          rcases hwaker q j hq hj hle with ⟨j', hj', hle'⟩
          exact .inr ⟨c', j', hj', hle'⟩
        · exact .inr ⟨c', j, by rw [hother c' hc, hj], hle⟩
    · exact .inl hfalse

/-- A step of CPU `c` between places that have nothing to do with the condition. -/
theorem NoLost.plain [DecidableEq C] (h : NoLost s) (hother : ∀ c' ≠ c, task t c' = task s c')
    (hs : (task s c).Plain) (ht : (task t c).Plain) (hlk : t.lk = s.lk) (hdata : t.data = s.data)
    (hwaits : ∀ q, Waits t q → Waits s q) : NoLost t := by
  refine h.go hother (.keep (by rw [hs.1, ht.1]) (by rw [hlk])) hdata
    (fun q hq => .inl (hwaits q hq)) ?_ ?_
  · intro lk hlk
    rw [ht.2.1] at hlk
    cases hlk
  · intro q j _ hj
    rw [hs.waking] at hj
    cases hj

/-- A step that writes the data, with `lk` held: those who still wait lie ahead. -/
theorem NoLost.write [DecidableEq C] (h : NoLost s) (hother : ∀ c' ≠ c, task t c' = task s c')
    (hs : (task s c).hand = some ()) (ht : (task t c).hand = some ()) (hlk : t.lk = s.lk)
    (htested : (task t c).tested = none)
    (hwaits : ∀ q, Waits t q → ∃ j, (task t c).waking = some j ∧ j ≤ q.val) : NoLost t := by
  refine ⟨h.lk.handle (.keep (by rw [hs, ht]) (by rw [hlk])) fun c' hne => by rw [hother c' hne],
    ?_, ?_⟩
  · intro c' lk hc'
    by_cases hc : c' = c
    · subst hc
      rw [htested] at hc'
      cases hc'
    -- nobody else has lk, so nobody else has just tested
    rw [hother c' hc] at hc'
    have hhand : (task s c').hand = some () := by
      rcases h.tested c' lk hc' with ⟨rfl, -⟩
      revert hc'
      generalize task s c' = pc
      intro hpc
      unfold Pc.tested at hpc
      split at hpc <;> cases hpc <;> rfl
    have h₁ : s.lk = some c := (h.lk () c).mpr hs
    have h₂ : s.lk = some c' := (h.lk () c').mpr hhand
    rw [h₁] at h₂
    cases h₂
    exact absurd rfl hc
  · intro q hq
    rcases hwaits q hq with ⟨j, hj, hle⟩
    exact .inr ⟨c, j, hj, hle⟩

variable {q : Fin n}

/-- While `lk` is held by a thread that is not waking others, waiting means that the
condition is false. -/
theorem NoLost.waits_false (h : NoLost s) (hs : (task s c).hand = some ())
    (hw : (task s c).waking = none) (hq : Waits s q) : P.cond s.data = false := by
  rcases h.waits q hq with hfalse | ⟨c', j, hj, -⟩
  · exact hfalse
  · have h₁ : s.lk = some c := (h.lk () c).mpr hs
    have h₂ : s.lk = some c' := (h.lk () c').mpr (waking_hand hj)
    rw [h₁] at h₂
    cases h₂
    rw [hw] at hj
    cases hj

theorem task_run (hc : (s.cpu c).thread = .run p) : task s c = s.pc p := by
  unfold task
  rw [hc]

/-- Other CPUs do not notice a step that changes the pc of no process they execute. -/
theorem task_other (hcpu : ∀ c' ≠ c, t.cpu c' = s.cpu c')
    (hpc : ∀ q, t.pc q = s.pc q ∨ ∀ c' ≠ c, (s.cpu c').thread ≠ .run q) :
    ∀ c' ≠ c, task t c' = task s c' := by
  intro c' hne
  unfold task
  rw [hcpu c' hne]
  match hth : (s.cpu c').thread with
  | .scan _ | .hold _ | .back _ => rfl
  | .run q =>
    rcases hpc q with heq | hidle
    · exact heq
    · exact absurd hth (hidle c' hne)

/-- The rule for a thread that goes on to `pc`. -/
theorem Inv.task_goto [DecidableEq C] (hi : Inv s) (hc : (s.cpu c).thread = .run p)
    (hcpu : t.cpu = s.cpu) (hpc : t.pc = update s.pc p pc) :
    task t c = pc ∧ ∀ c' ≠ c, task t c' = task s c' := by
  refine ⟨?_, task_other (fun c' _ => by rw [hcpu]) fun q => ?_⟩
  · rw [task_run (by rw [hcpu]; exact hc), hpc, update_self]
  · by_cases hq : q = p
    · exact .inr fun c' hne hc' => hne (hi.run_inj hc (hq ▸ hc'))
    · exact .inl (by rw [hpc, update_of_ne hq])

theorem asleep_update {x : Proc n} (hx : x.asleep → (s.proc k).asleep) (q : Fin n)
    (hq : (update s.proc k x q).asleep) : (s.proc q).asleep := by
  by_cases hqk : q = k
  · subst hqk
    rw [update_self] at hq
    exact hx hq
  · rwa [update_of_ne hqk] at hq

theorem waits_goto (hq : Waits t q) (hpc : t.pc = update s.pc p pc) (hset : pc.setting = false)
    (hproc : ∀ q, (t.proc q).asleep → (s.proc q).asleep) :
    Waits s q := by
  rcases hq with hq | hq
  · exact .inl (hproc q hq)
  · by_cases hqp : q = p
    · rw [hpc, hqp, update_self, hset] at hq
      cases hq
    · rw [hpc, update_of_ne hqp] at hq
      exact .inr hq

/-- A thread that goes on, away from the condition. -/
theorem NoLost.move [DecidableEq C] {d : Pc n} (h : NoLost s) (hi : Inv s)
    (hc : (s.cpu c).thread = .run p) (hs : (s.pc p).Plain) (ht : d.Plain)
    (hcpu : t.cpu = s.cpu) (hpc : t.pc = update s.pc p d) (hlk : t.lk = s.lk)
    (hdata : t.data = s.data) (hproc : ∀ q, (t.proc q).asleep → (s.proc q).asleep) :
    NoLost t := by
  rcases hi.task_goto hc hcpu hpc with ⟨hat, hother⟩
  exact h.plain hother (by rw [task_run hc]; exact hs) (by rw [hat]; exact ht) hlk hdata
    fun _ hq => waits_goto hq hpc ht.2.2 hproc

/-- A process that runs, and is not about to set its state, does not wait. -/
theorem not_waits (hst : (s.proc p).state = .running) (hset : (s.pc p).setting = false) :
    ¬ Waits s p := by
  rintro (⟨hs, -⟩ | hs)
  · rw [hst] at hs
    cases hs
  · rw [hset] at hs
    cases hs

/-- A process on the way to sleep on the condition is executed, with its lock. -/
theorem Inv.setting_locked (hi : Inv s) (hq : (s.pc q).setting = true) :
    ∃ c, (s.cpu c).thread = .run q ∧ s.plock q = some c := by
  have hlocked : (s.pc q).locked q = some q ∧ ¬ Parked (s.proc q).state (s.pc q) := by
    revert hq
    cases s.pc q <;> cases (s.proc q).state <;> simp [Pc.setting, Pc.locked, Parked]
  by_contra hno
  apply hlocked.2
  apply hi.parked q
  intro c hth
  exact hno ⟨c, hth, hi.hand hth hlocked.1⟩

end Rules

/-! ## Every step -/

section Steps

variable [DecidableEq C] {s t : St P C n} {c : C} {p : Fin n} (h : NoLost s) (hi : Inv s)
  (hc : (s.cpu c).thread = .run p)
include h hi hc

/-- The rule for a thread that goes on and leaves the data alone. -/
theorem NoLost.turn (hcpu : t.cpu = s.cpu) (hpc : t.pc = update s.pc p pc)
    (hlk : Handle c (s.pc p).hand pc.hand (fun _ => s.lk) fun _ => t.lk) (hdata : t.data = s.data)
    (hwaits : ∀ q, Waits t q → Waits s q ∨ P.cond s.data = false)
    (htested : ∀ lk, pc.tested = some lk → lk = .cond ∧ P.cond s.data = false)
    (hwaker : ∀ q j, Waits t q → (s.pc p).waking = some j → j ≤ q.val →
      ∃ j', pc.waking = some j' ∧ j' ≤ q.val) : NoLost t := by
  rcases hi.task_goto hc hcpu hpc with ⟨hat, hother⟩
  rw [← task_run hc] at hlk hwaker
  rw [← hat] at hlk htested hwaker
  exact h.go hother hlk hdata hwaits htested hwaker

theorem acquireLk_noLost (hr : acquireLk s c p pc = some t) (hs : (s.pc p).Plain)
    (hhand : pc.hand = some ()) (htested : pc.tested = none) (hset : pc.setting = false) :
    NoLost t := by
  rcases of_ite_eq_some hr with ⟨hfree, rfl⟩
  refine h.turn hi hc rfl rfl (.take () hfree hs.1 hhand (update_unit ..)) rfl
    (fun _ hq => .inl (waits_goto hq rfl hset fun _ => id)) (by rw [htested]; exact nofun) ?_
  rw [hs.waking]
  exact nofun

theorem sched_noLost (hk : (s.pc p).locked p = some p) (hst : (s.proc p).state ≠ .running)
    (hs : (s.pc p).Plain) (ht : pc.Plain) : NoLost (sched s c p pc) := by
  rw [sched_eq hi hc hk hst]
  refine h.plain (c := c) ?_ (by rw [task_run hc]; exact hs) ?_ rfl rfl ?_
  · apply task_other
    · intro c' hne
      exact update_of_ne hne ..
    · intro q
      by_cases hq : q = p
      · exact .inr fun c' hne hc' => hne (hi.run_inj hc (hq ▸ hc'))
      · exact .inl (update_of_ne hq ..)
  · have : task ((s.goto p pc).setCpu c { s.cpu c with thread := .back p }) c = .dead := by
      simp [task, St.setCpu]
    rw [this]
    exact ⟨rfl, rfl, rfl⟩
  · intro q hq
    exact waits_goto hq rfl ht.2.2 fun _ => id

variable {ok : Bool}

/-- `wakeup` on its way, between two slots. -/
theorem wake_noLost {chan : Option (Chan n)} {k : Nat} {ret : Ret} {init : Fin n}
    (hpc : s.pc p = .wake chan k ret) (hr : runPc init s c p ok (.wake chan k ret) = some t) :
    NoLost t := by
  have hrun : (s.proc p).state = .running := by
    have := hi.active c p hc
    rwa [hpc] at this
  have hwake : ∀ pc : Pc n, pc.hand = (s.pc p).hand → pc.tested = none → pc.setting = false →
      t.cpu = s.cpu → t.pc = update s.pc p pc → t.lk = s.lk → t.data = s.data →
      t.proc = s.proc →
      (∀ q j, Waits s q → (s.pc p).waking = some j → j ≤ q.val →
        ∃ j', pc.waking = some j' ∧ j' ≤ q.val) → NoLost t := by
    intro pc hhand htested hset hcpu hpcs hlk hdata hproc hwaker
    have hw : ∀ q, Waits t q → Waits s q := fun q hq =>
      waits_goto hq hpcs hset fun _ => by rw [hproc]; exact id
    exact h.turn hi hc hcpu hpcs (.keep hhand (by rw [hlk])) hdata (fun q hq => .inl (hw q hq))
      (by rw [htested]; exact nofun) fun q j hq => hwaker q j (hw q hq)
  have hpass : ∀ j, (s.pc p).waking = some j → j = k ∧ chan = some .cond ∧ ret = .cond := by
    intro j hj
    rw [hpc] at hj
    unfold Pc.waking at hj
    split at hj
    case h_1 heq =>
      cases heq
      cases hj
      exact ⟨rfl, rfl, rfl⟩
    case h_2 heq => cases heq
    case h_3 => cases hj
  simp only [runPc] at hr
  split at hr
  case isTrue hk =>
    split at hr
    case isTrue hself =>
      -- the waker passes over its own slot: it does not wait itself
      cases hr
      refine hwake (.wake chan (k + 1) ret) (by rw [hpc]; cases ret <;> rfl) rfl rfl rfl rfl rfl rfl
        rfl ?_
      intro q j hq hj hle
      rcases hpass j hj with ⟨rfl, rfl, rfl⟩
      refine ⟨j + 1, rfl, ?_⟩
      have hne : q ≠ p := by
        intro e
        rw [e] at hq
        exact not_waits hrun (by rw [hpc]; rfl) hq
      have : q.val ≠ p.val := fun e => hne (Fin.ext e)
      omega
    case isFalse =>
      unfold acquire at hr
      split at hr
      case isFalse => cases hr
      case isTrue =>
        cases hr
        refine hwake (.wakeHold chan ⟨k, hk⟩ ret) (by rw [hpc]; cases ret <;> rfl) rfl rfl rfl rfl
          rfl rfl rfl ?_
        intro q j _ hj hle
        rcases hpass j hj with ⟨rfl, rfl, rfl⟩
        exact ⟨j, rfl, hle⟩
  case isFalse hk =>
    -- the scan is over: no slot lies ahead
    cases hr
    refine hwake ret.pc (by rw [hpc]; cases ret <;> rfl) (by cases ret <;> rfl)
      (by cases ret <;> rfl) rfl rfl rfl rfl rfl ?_
    intro q j _ hj hle
    rcases hpass j hj with ⟨rfl, -, -⟩
    have := q.isLt
    omega

/-- `wakeup` with the lock of a slot. -/
theorem wakeHold_noLost {chan : Option (Chan n)} {ret : Ret} (hpc : s.pc p = .wakeHold chan k ret) :
    NoLost ((release s p k (.wake chan (k + 1) ret)).modify k (Proc.woken chan)) := by
  generalize ht : (release s p k (.wake chan (k + 1) ret)).modify k (Proc.woken chan) = t
  have hpcs : t.pc = update s.pc p (.wake chan (k + 1) ret) := by subst ht; rfl
  have hprocs : t.proc = update s.proc k ((s.proc k).woken chan) := by subst ht; rfl
  have hw : ∀ q, Waits t q → Waits s q := by
    intro q hq
    apply waits_goto hq hpcs rfl
    intro q' hq'
    rw [hprocs] at hq'
    refine asleep_update (s := s) ?_ q' hq'
    unfold Proc.woken
    split
    · rintro ⟨hs, -⟩
      cases hs
    · exact id
  refine h.turn hi hc (by subst ht; rfl) hpcs (.keep ?_ (by subst ht; rfl)) (by subst ht; rfl)
    (fun q hq => .inl (hw q hq)) nofun ?_
  · rw [hpc]
    cases ret <;> rfl
  intro q j hq hj hle
  rw [hpc] at hj
  have hcond : chan = some .cond ∧ ret = .cond ∧ j = k.val := by
    unfold Pc.waking at hj
    split at hj
    case h_1 heq => cases heq
    case h_2 heq =>
      cases heq
      cases hj
      exact ⟨rfl, rfl, rfl⟩
    case h_3 => cases hj
  rcases hcond with ⟨rfl, rfl, rfl⟩
  refine ⟨k.val + 1, rfl, ?_⟩
  -- the slot just visited does not wait: it was woken, or its lock was in its own hand
  have hne : q ≠ k := by
    rintro rfl
    rcases hq with hasleep | hset
    · rw [hprocs, update_self] at hasleep
      unfold Proc.woken at hasleep
      split at hasleep
      case isTrue =>
        rcases hasleep with ⟨hs, -⟩
        cases hs
      case isFalse hno => exact hno hasleep
    · by_cases hqp : q = p
      · rw [hpcs, hqp, update_self] at hset
        cases hset
      · rw [hpcs, update_of_ne hqp] at hset
        rcases hi.setting_locked hset with ⟨c', hth, hlock⟩
        rw [hi.hand hc (by rw [hpc]; rfl)] at hlock
        cases hlock
        rw [hc] at hth
        cases hth
        exact hqp rfl
  have : q.val ≠ k.val := fun e => hne (Fin.ext e)
  omega

variable {chan : Chan n} {lk : Lk}

/-- `sleep`, with `lk` dropped once the own lock is held. -/
theorem sleepRel_noLost (hpc : s.pc p = .sleepRel chan lk) :
    NoLost (sleepRel s p chan lk) := by
  generalize ht : sleepRel s p chan lk = t
  have hpcs : t.pc = update s.pc p (.sleepSet chan lk) := by
    subst ht
    cases lk <;> rfl
  have hproc : t.proc = s.proc := by
    subst ht
    cases lk <;> rfl
  refine h.turn hi hc (by subst ht; cases lk <;> rfl) hpcs ?_ (by subst ht; cases lk <;> rfl) ?_
    nofun ?_
  · rw [hpc]
    subst ht
    cases lk with
    | wait => exact .keep rfl rfl
    | other => exact .keep rfl rfl
    | cond => exact .put () rfl rfl (update_unit ..)
  · -- the one that now waits has just found the condition false
    rintro q (hq | hq)
    · rw [hproc] at hq
      exact .inl (.inl hq)
    by_cases hqp : q = p
    · rw [hqp, hpcs, update_self] at hq
      cases chan with
      | cond => exact .inr (h.tested c lk (by rw [task_run hc, hpc]; rfl)).2
      | proc i => cases hq
      | other ch => cases hq
    · rw [hpcs, update_of_ne hqp] at hq
      exact .inl (.inr hq)
  · rw [hpc]
    exact nofun

/-- `sleep` sets the state: the process waited already. -/
theorem sleepSet_noLost (hpc : s.pc p = .sleepSet chan lk) :
    NoLost ((s.modify p fun q => { q with chan := some chan, state := .sleeping }).goto p
      (.sleepSched lk)) := by
  refine h.turn hi hc rfl rfl (.keep (by rw [hpc]; rfl) rfl) rfl ?_ nofun (by rw [hpc]; exact nofun)
  intro q hq
  left
  by_cases hqp : q = p
  · subst hqp
    right
    rw [hpc]
    simp only [Waits, St.goto, St.modify, update_self, Proc.asleep, Option.some.injEq] at hq
    rcases hq with hq | hq
    · rw [hq.2]
      rfl
    · cases hq
  · simp only [Waits, St.goto, St.modify, update_of_ne hqp] at hq
    exact hq

/-- The test of a sleeper: with the condition true nobody waits, so it may change the data. -/
theorem condTest_noLost {init : Fin n} (hpc : s.pc p = .condTest)
    (hr : runPc init s c p ok .condTest = some t) : NoLost t := by
  have hhand : (task s c).hand = some () := by rw [task_run hc, hpc]; rfl
  have hwaking : (task s c).waking = none := by rw [task_run hc, hpc]; rfl
  simp only [runPc] at hr
  split at hr
  case isTrue htrue =>
    cases hr
    rcases hi.task_goto (t := { s.goto p .condRel with data := P.pass (s.proc p).pid s.data }) hc
      rfl rfl with ⟨hat, hother⟩
    refine h.write hother hhand (by rw [hat]; rfl) rfl (by rw [hat]; rfl) ?_
    intro q hq
    have hq' : Waits s q := waits_goto hq rfl rfl fun _ => id
    rw [h.waits_false hhand hwaking hq'] at htrue
    cases htrue
  case isFalse hfalse =>
    cases hr
    refine h.turn hi hc rfl rfl (.keep (by rw [hpc]; rfl) rfl) rfl
      (fun _ hq => .inl (waits_goto hq rfl rfl fun _ => id)) ?_ (by rw [hpc]; rintro _ _ _ ⟨⟩)
    intro lk hlk
    cases hlk
    exact ⟨rfl, by simpa using hfalse⟩

/-- The waker changes the data, and has the whole table ahead of it. -/
theorem makeSet_noLost {a : Nat} (hpc : s.pc p = .makeSet a) :
    NoLost { s.goto p (.wake (some .cond) 0 .cond) with data := P.make a s.data } := by
  rcases hi.task_goto
    (t := { s.goto p (.wake (some .cond) 0 .cond) with data := P.make a s.data }) hc rfl rfl
    with ⟨hat, hother⟩
  refine h.write hother (by rw [task_run hc, hpc]; rfl) (by rw [hat]; rfl) rfl (by rw [hat]; rfl) ?_
  intro q _
  exact ⟨0, by rw [hat]; rfl, Nat.zero_le _⟩

theorem condRel_noLost (hpc : s.pc p = .condRel) : NoLost { s.goto p .user with lk := none } :=
  h.turn hi hc rfl rfl (by rw [hpc]; exact .put () rfl rfl (update_unit ..)) rfl
    (fun _ hq => .inl (waits_goto hq rfl rfl fun _ => id)) nofun (by rw [hpc]; exact nofun)

/-- A step that ends a visit to slot `k` by starting the life of its process or ending it. -/
theorem NoLost.refill {d e : Pc n} (hk : s.plock k = some c) (hst : (s.proc k).state ≠ .running)
    (hrun : (s.proc p).state = .running) (hs : (s.pc p).Plain) (ht : d.Plain)
    (ht' : e.setting = false) (hcpu : t.cpu = s.cpu) (hpc : t.pc = update (update s.pc p d) k e)
    (hlk : t.lk = s.lk) (hdata : t.data = s.data)
    (hproc : ∀ q, (t.proc q).asleep → (s.proc q).asleep) :
    NoLost t := by
  have hne : p ≠ k := fun e => hst (e ▸ hrun)
  have hidle := hi.parked_of_locked hk (fun e => hne (by rw [hc] at e; cases e; rfl)) hst
  refine h.plain (c := c) ?_ (by rw [task_run hc]; exact hs) ?_ hlk hdata ?_
  · apply task_other
    · intro c' _
      rw [hcpu]
    · intro q
      by_cases hqk : q = k
      · exact .inr fun c' _ => hqk ▸ hidle c'
      · by_cases hqp : q = p
        · exact .inr fun c' hne' hc' => hne' (hi.run_inj hc (hqp ▸ hc'))
        · exact .inl (by rw [hpc, update_of_ne hqk, update_of_ne hqp])
  · rw [task_run (by rw [hcpu]; exact hc), hpc, update_of_ne hne, update_self]
    exact ht
  · rintro q (hq | hq)
    · exact .inl (hproc q hq)
    by_cases hqk : q = k
    · rw [hpc, hqk, update_self, ht'] at hq
      cases hq
    · by_cases hqp : q = p
      · rw [hpc, update_of_ne hqk, hqp, update_self, ht.2.2] at hq
        cases hq
      · rw [hpc, update_of_ne hqk, update_of_ne hqp] at hq
        exact .inr hq

theorem sleepAcq_noLost (hpc : s.pc p = .sleepAcq chan lk)
    (hr : acquire s c p p (.sleepRel chan lk) = some t) : NoLost t := by
  rcases of_ite_eq_some hr with ⟨-, rfl⟩
  refine h.turn hi hc rfl rfl (.keep (by rw [hpc]; cases lk <;> rfl) rfl) rfl
    (fun _ hq => .inl (waits_goto hq rfl rfl fun _ => id)) ?_ (by rw [hpc]; rintro _ _ _ ⟨⟩)
  intro lk' ht
  apply h.tested c
  rw [task_run hc, hpc]
  cases chan <;> exact ht

/-- A step away from the condition. -/
theorem act_noLost (hact : Act s t c p (s.pc p)) (hplace : (s.pc p).special = false) : NoLost t := by
  have hs := Pc.plain_of_not_special hplace
  cases hact with
  | go pc k x hpc hproc hrest hhand hslot hnest htgt hcond =>
    rcases hcond with hspecial | haside
    · rw [hplace] at hspecial
      cases hspecial
    · exact h.move hi hc hs haside.plain hrest.1 hpc haside.lk haside.data fun q hq =>
        asleep_update haside.asleep q (hproc ▸ hq)
  | alloc k ha hrun hk ht =>
    subst ht
    unfold forkHold
    rw [if_pos hk]
    exact h.refill hi hc (hi.hand hc (by rw [ha]; rfl)) (by rw [hk]; decide) hrun hs
      (d := .forkParent k) (e := .forkret) ⟨rfl, rfl, rfl⟩ rfl rfl rfl rfl rfl
      (asleep_update fun hx => nomatch hx.1)
  | reap k ha hrun hk ht =>
    subst ht
    unfold waitHold
    rw [if_pos hk]
    exact h.refill hi hc (hi.hand hc (by rw [ha]; rfl)) (by rw [hk]; decide) hrun hs
      (d := .user) (e := .dead) ⟨rfl, rfl, rfl⟩ rfl rfl rfl rfl rfl
      (asleep_update fun hx => nomatch hx.1)
  | start np ha hrun ht =>
    subst ht
    exact h.move hi hc hs (d := .user) ⟨rfl, rfl, rfl⟩ rfl rfl rfl rfl
      (asleep_update fun hx => nomatch hx.1)
  | sched pc ht hk hst hpark hnest htgt hplain =>
    subst ht
    exact sched_noLost h hi hc hk hst hs hplain.2

theorem runPc_noLost {init : Fin n} (hr : runPc init s c p ok (s.pc p) = some t) :
    NoLost t := by
  have hact := runPc_act (hi.active c p hc) (hi.nested p) hr
  by_cases hplace : (s.pc p).special = false
  · exact act_noLost h hi hc hact hplace
  generalize hpc : s.pc p = pc at hr
  cases pc with
  | sleepAcq chan lk =>
    exact sleepAcq_noLost h hi hc hpc hr
  | sleepRel chan lk =>
    cases hr
    exact sleepRel_noLost h hi hc hpc
  | sleepSet chan lk =>
    cases hr
    exact sleepSet_noLost h hi hc hpc
  | sleepReacq lk =>
    cases lk with
    | cond =>
      exact acquireLk_noLost h hi hc hr (by rw [hpc]; exact ⟨rfl, rfl, rfl⟩) rfl rfl rfl
    | _ => exact absurd (by rw [hpc]; rfl) hplace
  | wake chan k ret =>
    exact wake_noLost h hi hc hpc hr
  | wakeHold chan k ret =>
    cases hr
    exact wakeHold_noLost h hi hc hpc
  | condAcq | makeAcq _ =>
    exact acquireLk_noLost h hi hc hr (by rw [hpc]; exact ⟨rfl, rfl, rfl⟩) rfl rfl rfl
  | condTest =>
    exact condTest_noLost h hi hc hpc hr
  | condRel =>
    cases hr
    exact condRel_noLost h hi hc hpc
  | makeSet a =>
    cases hr
    exact makeSet_noLost h hi hc hpc
  | _ => exact absurd (by rw [hpc]; rfl) hplace

omit hc in
/-- A step of a scheduler: what it resumes has nothing to do with the condition. -/
theorem runCpu_noLost {init : Fin n} (hr : runCpu init s c ok (s.cpu c).thread = some t) :
    NoLost t := by
  have hsched : ∀ x : Cpu n, t.cpu = update s.cpu c x → t.pc = s.pc →
      (∀ q, (s.cpu c).thread ≠ .run q) → (∀ q, x.thread = .run q → (s.pc q).Plain) →
      t.lk = s.lk → t.data = s.data → (∀ q, (t.proc q).asleep → (s.proc q).asleep) →
      NoLost t := by
    intro x hcpu hpc hidle hx hlk hdata hproc
    have hoff : ∀ y : Thread n, (∀ q, y = .run q → (s.pc q).Plain) →
        (match y with | .run p => s.pc p | _ => .dead : Pc n).Plain := by
      intro y hy
      cases y with
      | run q => exact hy q rfl
      | _ => exact ⟨rfl, rfl, rfl⟩
    refine h.plain (c := c) ?_ ?_ ?_ hlk hdata ?_
    · exact task_other (fun c' hne => by rw [hcpu, update_of_ne hne]) fun q => by
        rw [hpc]
        exact .inl rfl
    · exact hoff _ fun q hq => absurd hq (hidle q)
    · unfold task
      rw [hcpu, update_self, hpc]
      exact hoff _ hx
    · rintro q (hq | hq)
      · exact .inl (hproc q hq)
      · rw [hpc] at hq
        exact .inr hq
  generalize hth : (s.cpu c).thread = th at hr
  cases th with
  | run p =>
    exact runPc_noLost h hi hth hr
  | scan k =>
    simp only [runCpu] at hr
    split at hr
    · split at hr
      · cases hr
        exact hsched _ rfl rfl (by simp [hth]) (by simp) rfl rfl fun _ => id
      · cases hr
    · cases hr
      exact hsched _ rfl rfl (by simp [hth]) (by simp) rfl rfl fun _ => id
  | hold k =>
    simp only [runCpu] at hr
    split at hr
    case isTrue hrun =>
      cases hr
      refine hsched _ rfl rfl (by simp [hth]) ?_ rfl rfl
        (asleep_update fun hx => by cases hx.1)
      intro q hq
      cases hq
      -- the process chosen is parked where swtch left it
      have hlock := (hi.locks k c).mpr (by unfold owns; rw [hth]; rfl)
      have hpark := hi.parked k
        (hi.parked_of_locked hlock (by simp [hth]) (by rw [hrun]; decide))
      rw [hrun] at hpark
      rcases hpark with heq | ⟨pc, heq⟩ | ⟨lk, heq⟩ <;> rw [heq] <;> exact ⟨rfl, rfl, rfl⟩
    case isFalse =>
      cases hr
      exact hsched _ rfl rfl (by simp [hth]) (by simp) rfl rfl fun _ => id
  | back k =>
    cases hr
    exact hsched _ rfl rfl (by simp [hth]) (by simp) rfl rfl fun _ => id

omit hc in
theorem step_noLost {init : Fin n} {l : Lbl C n} (hstep : step init s l = some t) : NoLost t := by
  cases step_took hstep with
  | cpu hr => exact runCpu_noLost h hi hr
  | enter hl hth hpc =>
    exact h.move hi hth (interruptible_plain hpc.here) hpc.plain rfl rfl rfl rfl fun _ => id
  | panic => exact ⟨h.lk, h.tested, h.waits⟩
  | intr hfree =>
    refine ⟨h.lk, h.tested, fun q hq => h.waits q ?_⟩
    rcases hq with hq | hq
    · refine .inl (asleep_update ?_ q hq)
      unfold Proc.woken
      split
      · exact fun hx => nomatch hx.1
      · exact id
    · exact .inr hq

omit h hi hc in
theorem reachable_noLost {init : Fin n} (h : (sys P C init).Reachable s) : Inv s ∧ NoLost s :=
  h.invariant (fun s => Inv s ∧ NoLost s) (fun _ h₀ => ⟨.init h₀, .init h₀⟩)
    fun _ _ _ hs hstep => ⟨step_inv hs.1 hstep, step_noLost hs.2 hs.1 hstep⟩

omit h hi hc [DecidableEq C] in
/-- With `lk` free and the condition true, nobody is asleep on the channel. -/
theorem NoLost.awake (hn : NoLost s) (hfree : s.lk = none) (htrue : P.cond s.data = true)
    (p : Fin n) : ¬ ((s.proc p).state = .sleeping ∧ (s.proc p).chan = some .cond) := by
  intro hp
  rcases hn.waits p (.inl hp) with hfalse | ⟨c, j, hj, -⟩
  · rw [htrue] at hfalse
    cases hfalse
  · have : s.lk = some c := (hn.lk () c).mpr (waking_hand hj)
    rw [hfree] at this
    cases this

end Steps

/-! ## No lost wakeup -/

/-- Nobody sleeps through a condition that holds; and so nobody is asleep on a sleeplock that is
unlocked, its spin lock free. -/
theorem no_lost_wakeup (C : Type) [DecidableEq C] (n : Nat) (init : Fin n) :
    (∀ (P : Protocol) (s : St P C n), (sys P C init).Reachable s → s.lk = none →
      P.cond s.data = true →
      ∀ p, ¬ ((s.proc p).state = .sleeping ∧ (s.proc p).chan = some .cond)) ∧
    (∀ s : St sleeplock C n, (sys sleeplock C init).Reachable s → s.lk = none →
      Sleeplock.locked s.data = false →
      ∀ p, ¬ ((s.proc p).state = .sleeping ∧ (s.proc p).chan = some .cond)) := by
  refine ⟨fun P s h hfree htrue => (reachable_noLost h).2.awake hfree htrue,
    fun s h hfree hopen => (reachable_noLost h).2.awake hfree ?_⟩
  show (!Sleeplock.locked s.data) = true
  rw [hopen]
  rfl

/-- The first process forks and takes the sleeplock, its child goes to sleep on it, and the
first process releases it. -/
def handoverRun : List (Lbl Bool 2) :=
  List.flatten [
    List.replicate 3 (.cpu false true), .call false .fork :: List.replicate 7 (.cpu false true),
    .call false .await :: List.replicate 3 (.cpu false true), List.replicate 5 (.cpu true true),
    .call true .await :: List.replicate 7 (.cpu true true),
    .call false (.make 0) :: List.replicate 7 (.cpu false true)]

theorem no_lost_wakeup_handoverRun :
    ∃ s, (sys sleeplock Bool (0 : Fin 2)).Reachable s ∧ s.lk = none ∧
      Sleeplock.locked s.data = false ∧ (s.proc 1).chan = some .cond ∧
      ∀ p, ¬ ((s.proc p).state = .sleeping ∧ (s.proc p).chan = some .cond) := by
  obtain ⟨s, hreach, hfree, hopen, hchan⟩ : ∃ s, (sys sleeplock Bool (0 : Fin 2)).Reachable s ∧
      s.lk = none ∧ Sleeplock.locked s.data = false ∧ (s.proc 1).chan = some .cond :=
    System.reaches (boot_init (P := sleeplock) 0 ⟨false, 0⟩) handoverRun (by decide +kernel)
  exact ⟨s, hreach, hfree, hopen, hchan, (no_lost_wakeup Bool 2 0).2 s hreach hfree hopen⟩

end Xv6.Sched
