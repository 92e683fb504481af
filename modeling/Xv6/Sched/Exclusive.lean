import Xv6.Sched.Act

/-!
# Xv6.Sched.Exclusive — a process runs on one CPU

Each piece of kernel/proc.c keeps `Inv`, so that no step puts a process on a second CPU and
none of the checks of `sched` fails.
-/

namespace Xv6.Sched

open Lib Function

variable {P : Protocol} {C : Type} {n : Nat}

section Steps

variable {s t : St P C n} {c : C} {p : Fin n}

/-! ## The pieces of the code -/

/-- `sched` passes its checks. -/
theorem sched_eq [DecidableEq C] (h : Inv s) (hc : (s.cpu c).thread = .run p)
    (hk : (s.pc p).locked p = some p) (hst : (s.proc p).state ≠ .running) (pc : Pc n) :
    sched s c p pc = (s.goto p pc).setCpu c { s.cpu c with thread := .back p } := by
  have hcur : (s.cpu c).proc = some p := by rw [h.cur c, hc]; rfl
  simp only [sched, hcur, h.hand hc hk, hst, ne_eq, not_true_eq_false, if_false]

/-- It parks the process where `swtch` will return to. -/
theorem sched_inv [DecidableEq C] {pc : Pc n} (h : Inv s) (hc : (s.cpu c).thread = .run p)
    (hk : (s.pc p).locked p = some p) (hst : (s.proc p).state ≠ .running)
    (hpark : Parked (s.proc p).state pc) (hnest : pc.Nested) (htgt : pc.target = (s.pc p).target) :
    Inv (sched s c p pc) := by
  have hcur : (s.cpu c).proc = some p := by rw [h.cur c, hc]; rfl
  rw [sched_eq h hc hk hst]
  have hupd : ∀ q ≠ p, update s.pc p pc q = s.pc q :=
    fun q hq => update_of_ne hq ..
  refine h.switch rfl hcur ?_ ?_ ?_ ?_ ?_ ?_ ?_ (fun _ hq => hq) rfl
  · intro q hq c' hne hc'
    cases hq
    exact hne (h.alone c' c p hc' (by rw [hc]; rfl))
  · -- the lock goes with the CPU to its scheduler
    refine .keep ?_ rfl
    unfold owns
    rw [hc]
    exact hk.symm
  · intro q
    by_cases hq : q = p
    · right
      intro c' hne hc'
      exact hne (h.run_inj hc (hq ▸ hc'))
    · exact .inl ⟨hupd q hq, rfl⟩
  · intro q hq
    cases hq
  · intro q _ hidle
    show Parked (s.proc q).state (update s.pc p pc q)
    by_cases hq : q = p
    · subst hq
      rw [update_self]
      exact hpark
    rw [hupd q hq]
    apply h.parked q
    intro c' hc'
    by_cases hcc : c' = c
    · rw [hcc, hc] at hc'
      cases hc'
      exact hq rfl
    · exact hidle c' hcc hc'
  · intro q
    show (update s.pc p pc q).Nested
    by_cases hq : q = p
    · subst hq
      rw [update_self]
      exact hnest
    · rw [hupd q hq]
      exact h.nested q
  · intro q
    show (update s.pc p pc q).target = _
    by_cases hq : q = p
    · subst hq
      rw [update_self]
      exact htgt
    · rw [hupd q hq]

/-- The last step of `kfork`: the new process is not executed before it. -/
theorem forkRun_inv [DecidableEq C] {k : Fin n} (h : Inv s) (hc : (s.cpu c).thread = .run p)
    (hpc : s.pc p = .forkRun k) (hrun : (s.proc p).state = .running) :
    Inv ((release s p k .user).modify k fun q => { q with state := .runnable }) := by
  have hk : (s.pc p).locked p = some k := by rw [hpc]; rfl
  have htgt : (s.pc p).target = some k := by rw [hpc]; rfl
  have hused := h.target p k htgt
  have hne : p ≠ k := fun e => by rw [← e, hrun] at hused; cases hused
  have hidle := h.parked_of_locked (h.hand hc hk)
    (fun e => hne (by rw [hc] at e; cases e; rfl)) (by rw [hused]; decide)
  have hpark := h.parked k hidle
  rw [hused] at hpark
  have hpcp : update s.pc p .user p = (.user : Pc n) := update_self ..
  have hst : ∀ q ≠ k, (update s.proc k { s.proc k with state := .runnable } q).state
      = (s.proc q).state := fun q hq => congrArg Proc.state (update_of_ne hq ..)
  refine h.run hc rfl ?_ ?_ ?_ ?_ ?_ ?_ h.quiet
  · exact .put k hk (congrArg (Pc.locked p) hpcp) rfl
  · show Active (update s.proc k _ p).state (update s.pc p .user p)
    rw [hpcp]
    exact (hst p hne).trans hrun
  · show (update s.pc p .user p).Nested
    rw [hpcp]
    trivial
  · intro q hq
    have hpcq : update s.pc p .user q = s.pc q := update_of_ne hq ..
    by_cases hqk : q = k
    · subst hqk
      refine .inr ⟨hidle, ?_, ?_, .inl (congrArg Pc.target hpcq)⟩
      · show Parked (update s.proc q _ q).state (update s.pc p .user q)
        rw [hpcq, update_self]
        exact .inl hpark
      · show (update s.pc p .user q).Nested
        rw [hpcq]
        exact h.nested q
    · exact .inl ⟨hpcq, hst q hqk⟩
  · intro q np hq hnp
    have hnk : np ≠ k := fun e => hq (h.apart q p k (e ▸ hnp) htgt)
    exact (hst np hnk).trans (h.target q np hnp)
  · intro np hnp
    have hnp : (update s.pc p .user p).target = some np := hnp
    rw [hpcp] at hnp
    cases hnp

/-! ## Every step -/

theorem act_inv [DecidableEq C] (h : Inv s) (hc : (s.cpu c).thread = .run p)
    (hact : Act s t c p (s.pc p)) : Inv t := by
  have hoff : ∀ k x q, q ≠ k → (update s.proc k x q).state = (s.proc q).state :=
    fun k x q hq => congrArg Proc.state (update_of_ne hq ..)
  cases hact with
  | go pc k x hpc hproc hrest hhand hslot hnest htgt =>
    have hother : ∀ q ≠ k, (t.proc q).state = (s.proc q).state := hproc ▸ hoff k x
    have hat : t.proc k = x := by rw [hproc, update_self]
    rcases hslot with ⟨rfl, hact⟩ | ⟨hact, heq | ⟨hsleep, hwoken, hk, hrun, hnone⟩⟩
    · exact h.move hc hrest.1 hpc hhand (by rw [hat]; exact hact) hother hnest htgt hrest.2
    · have hsame : ∀ q, (t.proc q).state = (s.proc q).state := by
        intro q
        by_cases hq : q = k
        · rw [hq, hat, heq]
        · exact hother q hq
      exact h.move hc hrest.1 hpc hhand (by rw [hsame p]; exact hact) (fun q _ => hsame q) hnest
        htgt hrest.2
    · exact h.visit hc hrun hk hrest.1 hpc hhand hother (.inr ⟨hsleep, by rw [hat]; exact hwoken⟩)
        (hrun ▸ hact) hnest hnone hrest.2
  | alloc k ha hrun hk ht =>
    subst ht
    unfold forkHold
    rw [if_pos hk]
    refine h.refill (k := k) (d := .forkParent k) (e := .forkret) hc hrun (by rw [ha]; rfl)
      (by rw [hk]; decide) rfl rfl rfl (hoff k _) ?_ trivial rfl rfl rfl trivial ?_ rfl
    · simp [St.modify, Parked]
    · simp [St.modify, Pc.target]
  | reap k ha hrun hk ht =>
    subst ht
    unfold waitHold
    rw [if_pos hk]
    refine h.refill (k := k) (d := .user) (e := .dead) hc hrun (by rw [ha]; rfl)
      (by rw [hk]; decide) rfl rfl rfl (hoff k _) ?_ trivial rfl rfl rfl trivial (.inl rfl) rfl
    simp [St.modify, freeproc, Parked]
  | start np ha hrun ht =>
    subst ht
    exact forkRun_inv h hc ha hrun
  | sched pc ht hk hst hpark hnest htgt =>
    subst ht
    exact sched_inv h hc hk hst hpark hnest htgt

variable {init : Fin n}

section
variable (h : Inv s)
include h

theorem runPc_inv [DecidableEq C] {ok : Bool} (hc : (s.cpu c).thread = .run p)
    (hr : runPc init s c p ok (s.pc p) = some t) : Inv t :=
  act_inv h hc (runPc_act (h.active c p hc) (h.nested p) hr)

/-- With CPU `c` in its scheduler, only the others execute processes. -/
theorem Inv.parked_except (hth : ∀ q, (s.cpu c).thread ≠ .run q) (q : Fin n)
    (hidle : ∀ c' ≠ c, (s.cpu c').thread ≠ .run q) : Parked (s.proc q).state (s.pc q) := by
  apply h.parked q
  intro c' hc'
  by_cases hcc : c' = c
  · exact hth q (hcc ▸ hc')
  · exact hidle c' hcc hc'

theorem runCpu_inv [DecidableEq C] {ok : Bool} (hr : runCpu init s c ok (s.cpu c).thread = some t) :
    Inv t := by
  generalize hth : (s.cpu c).thread = th at hr
  cases th with
  | run p =>
    exact runPc_inv h hth hr
  | scan k =>
    have hown : owns s c = none := by unfold owns; rw [hth]; rfl
    have hcur : (s.cpu c).proc = none := by rw [h.cur c, hth]; rfl
    have hpark := h.parked_except (c := c) (by rw [hth]; exact nofun)
    simp only [runCpu] at hr
    split at hr
    · split at hr
      case isFalse => cases hr
      case isTrue hfree =>
        cases hr
        exact h.switch rfl hcur nofun (.take _ hfree hown rfl rfl) (fun _ => .inl ⟨rfl, rfl⟩)
          nofun (fun q _ => hpark q) h.nested (fun _ => rfl) (fun _ hq => hq) rfl
    · cases hr
      exact h.switch rfl hcur nofun (.keep hown.symm rfl) (fun _ => .inl ⟨rfl, rfl⟩) nofun
        (fun q _ => hpark q) h.nested (fun _ => rfl) (fun _ hq => hq) rfl
  | hold k =>
    have hown : owns s c = some k := by unfold owns; rw [hth]; rfl
    have hcur : (s.cpu c).proc = none := by rw [h.cur c, hth]; rfl
    have hlock := (h.locks k c).mpr hown
    have hpark := h.parked_except (c := c) (by rw [hth]; exact nofun)
    simp only [runCpu] at hr
    split at hr
    case isTrue hrun =>
      cases hr
      -- the process chosen is executed nowhere, and continues with the lock just taken
      have hidle := h.parked_of_locked hlock (by rw [hth]; exact nofun) (by rw [hrun]; decide)
      have hk := h.parked k hidle
      rw [hrun] at hk
      rcases hk.resume k with ⟨hact, hlk⟩
      have hback : ∀ c' ≠ c, (s.cpu c').thread.proc ≠ some k := by
        intro c' hne hc'
        match hth' : (s.cpu c').thread with
        | .run q =>
          rw [hth'] at hc'
          cases hc'
          exact hidle c' hth'
        | .back q =>
          rw [hth'] at hc'
          cases hc'
          have := (h.locks k c').mpr (by unfold owns; rw [hth']; rfl)
          rw [hlock] at this
          cases this
          exact hne rfl
        | .scan _ | .hold _ =>
          rw [hth'] at hc'
          cases hc'
      refine h.switch rfl rfl ?_ (.keep (hlk.trans hown.symm) rfl) ?_ ?_ ?_ h.nested
        (fun _ => rfl) ?_ rfl
      · intro q hq
        cases hq
        exact hback
      · intro q
        by_cases hq : q = k
        · exact .inr fun c' _ => hq ▸ hidle c'
        · exact .inl ⟨rfl, congrArg Proc.state (update_of_ne hq ..)⟩
      · intro q hq
        cases hq
        show Active (update s.proc k _ k).state (s.pc k)
        rw [update_self]
        exact hact
      · intro q hq hidle'
        have hqk : q ≠ k := fun e => hq (e ▸ rfl)
        show Parked (update s.proc k _ q).state (s.pc q)
        rw [update_of_ne hqk]
        exact hpark q hidle'
      · intro q hq
        have hqk : q ≠ k := fun e => by rw [e, hrun] at hq; cases hq
        exact (congrArg Proc.state (update_of_ne hqk ..)).trans hq
    case isFalse =>
      cases hr
      exact h.switch rfl hcur nofun (.put k hown rfl rfl) (fun _ => .inl ⟨rfl, rfl⟩) nofun
        (fun q _ => hpark q) h.nested (fun _ => rfl) (fun _ hq => hq) rfl
  | back k =>
    have hown : owns s c = some k := by unfold owns; rw [hth]; rfl
    cases hr
    exact h.switch rfl rfl nofun (.put k hown rfl rfl) (fun _ => .inl ⟨rfl, rfl⟩) nofun
      (fun q _ => h.parked_except (c := c) (by rw [hth]; exact nofun) q) h.nested (fun _ => rfl)
      (fun _ hq => hq) rfl

/-- A device interrupt's visit to a slot whose lock is free. -/
theorem intr_inv [DecidableEq C] {k : Fin n} {chan : Option (Chan n)} (hfree : s.plock k = none) :
    Inv (s.modify k (Proc.woken chan)) := by
  have hoff : ∀ q ≠ k, ((s.modify k (Proc.woken chan)).proc q).state = (s.proc q).state :=
    fun q hq => congrArg Proc.state (update_of_ne hq ..)
  have hat : ((s.modify k (Proc.woken chan)).proc k).state = ((s.proc k).woken chan).state :=
    congrArg Proc.state (update_self ..)
  have hcases : ∀ q, ((s.modify k (Proc.woken chan)).proc q).state = (s.proc q).state ∨
      ((s.proc q).state = .sleeping ∧ q = k ∧
        ((s.modify k (Proc.woken chan)).proc q).state = .runnable) := by
    intro q
    by_cases hq : q = k
    · subst hq
      rw [hat]
      rcases Proc.woken_state chan (s.proc q) with heq | ⟨hs, hw⟩
      · exact .inl heq
      · exact .inr ⟨hs, rfl, hw⟩
    · exact .inl (hoff q hq)
  refine ⟨h.cur, h.alone, h.locks, ?_, ?_, h.nested, ?_, h.apart, h.quiet⟩
  · intro c q (hth : (s.cpu c).thread = .run q)
    rcases hcases q with heq | ⟨hs, rfl, -⟩
    · rw [heq]
      exact h.active c q hth
    -- executed and asleep, it would hold its lock
    have hown : owns s c = some q := by
      unfold owns
      rw [hth]
      exact (h.active c q hth).locked_self (by rw [hs]; decide) q
    have := (h.locks q c).mpr hown
    rw [hfree] at this
    cases this
  · intro q hidle
    have hq := h.parked q hidle
    rcases hcases q with heq | ⟨hs, -, hw⟩
    · rw [heq]
      exact hq
    · rw [hs] at hq
      rw [hw]
      exact .inr (.inr hq)
  · intro q np hnp
    have hused := h.target q np hnp
    rcases hcases np with heq | ⟨hs, -, -⟩
    · rw [heq, hused]
    · rw [hs] at hused
      cases hused

theorem step_inv [DecidableEq C] {l : Lbl C n} (hstep : step init s l = some t) :
    Inv t := by
  cases step_took hstep with
  | cpu hr => exact runCpu_inv h hr
  | @enter _ c p pc hl hth hpc =>
    have hst : (s.proc p).state = .running := by
      refine (h.active c p hth).eq_running ?_ ?_ ?_ <;> intros <;> intro heq <;>
        have hhere := hpc.here <;> rw [heq] at hhere <;> cases hhere
    exact h.goto hth rfl (by rw [hpc.unlocked, (interruptible_spec hpc.here p).2.1])
      (by rw [hst]; exact hpc.active) hpc.nested hpc.target ⟨rfl, rfl, rfl, fun _ => rfl⟩
  | panic =>
    exact ⟨h.cur, h.alone, h.locks, h.active, h.parked, h.nested, h.target, h.apart, .inr rfl⟩
  | intr hfree => exact intr_inv h hfree

end

theorem reachable_inv [DecidableEq C] (h : (sys P C init).Reachable s) : Inv s :=
  h.invariant Inv (fun _ h₀ => .init h₀) fun _ _ _ hs hstep => step_inv hs hstep

end Steps

/-! ## Exclusive scheduling -/

/-- Exclusive scheduling, for any number of CPUs and processes and any interleaving. -/
theorem exclusive_scheduling [DecidableEq C] (init : Fin n) (s : St P C n)
    (h : (sys P C init).Reachable s) :
    (∀ c c' p, (s.cpu c).proc = some p → (s.cpu c').proc = some p → c = c') ∧
    (∀ p, (s.proc p).state = .running → ∃! c, (s.cpu c).proc = some p) ∧
    (∀ p, s.plock p = none → (s.proc p).state ≠ .running → ∀ c, (s.cpu c).proc ≠ some p) ∧
    s.panicked ≠ some .schedLock ∧ s.panicked ≠ some .schedRunning ∧
    s.panicked ≠ some .zombieExit := by
  have hi := reachable_inv h
  have halone : ∀ c c' p, (s.cpu c).proc = some p → (s.cpu c').proc = some p → c = c' := by
    intro c c' p hc hc'
    rw [hi.cur] at hc hc'
    exact hi.alone c c' p hc hc'
  have hpanic : ∀ x, x ≠ .initExiting → s.panicked ≠ some x := by
    intro x hx he
    rcases hi.quiet with hq | hq <;> rw [hq] at he <;> cases he
    exact hx rfl
  refine ⟨halone, ?_, ?_, hpanic _ nofun, hpanic _ nofun, hpanic _ nofun⟩
  · intro p hrun
    by_contra hno
    have hidle : ∀ c, (s.cpu c).thread ≠ .run p := by
      intro c hth
      have hcur : (s.cpu c).proc = some p := by rw [hi.cur c, hth]; rfl
      exact hno ⟨c, hcur, fun c' hc' => halone c' c p hc' hcur⟩
    have := hi.parked p hidle
    rw [hrun] at this
    exact this
  · intro p hfree hst c hcur
    -- on either side of swtch the CPU would hold the lock
    have hown : owns s c = some p := by
      rw [hi.cur c] at hcur
      unfold owns
      match hth : (s.cpu c).thread with
      | .run q =>
        rw [hth] at hcur
        cases hcur
        exact (hi.active c p hth).locked_self hst p
      | .back q =>
        rw [hth] at hcur
        exact hcur
      | .scan _ | .hold _ =>
        rw [hth] at hcur
        cases hcur
    have := (hi.locks p c).mpr hown
    rw [hfree] at this
    cases this

/-- The first process is preempted on CPU `false` and continues on CPU `true`. -/
def migrateRun : List (Lbl Bool 2) :=
  [.cpu false true, .cpu false true, .cpu false true, .timer false, .cpu false true,
   .cpu false true, .cpu false true, .cpu false true, .cpu true true, .cpu true true]

theorem exclusive_scheduling_migrateRun :
    ∃ s, (sys sleeplock Bool (0 : Fin 2)).Reachable s ∧ (s.proc 0).state = .running ∧
      (s.cpu true).proc = some 0 ∧ (s.cpu false).proc ≠ some 0 ∧
      ∃! c, (s.cpu c).proc = some 0 := by
  obtain ⟨s, hreach, hrun, hcur, hidle⟩ : ∃ s, (sys sleeplock Bool (0 : Fin 2)).Reachable s ∧
      (s.proc 0).state = .running ∧ (s.cpu true).proc = some 0 ∧ (s.cpu false).proc = none :=
    System.reaches (boot_init (P := sleeplock) 0 ⟨false, 0⟩) migrateRun (by decide +kernel)
  exact ⟨s, hreach, hrun, hcur, by rw [hidle]; exact nofun,
    (exclusive_scheduling 0 s hreach).2.1 0 hrun⟩

end Xv6.Sched
