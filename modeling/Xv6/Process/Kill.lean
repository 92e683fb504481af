import Xv6.Process.Act

/-!
# Xv6.Process.Kill — kkill and the slots that are free

`kkill` looks for the pid only, not at the state of the slot. A free slot has pid 0, which
`freeproc` leaves there, so that `kkill(0)` marks the first free slot as killed, and
`allocproc` does not clear the mark. With any other pid it meets live processes only, and in
a run without `kkill(0)` a new process is not killed.
-/

namespace Xv6.Process

open Lib Function List

variable {n : Nat} {init : Fin n}

/-! ## One call -/

/-- The victim of `kkill`. -/
def Proc.marked (q : Proc n) : Proc n :=
  { q with
    killed := true
    state := if q.state = .sleeping then .runnable else q.state }

/-- The loop of `kkill` over the slots that are left. -/
def kkill.scan (t : Fin n → Proc n) (pid : BitVec 32) : List (Fin n) → Int × (Fin n → Proc n)
  | [] => (-1, t)
  | k :: ks =>
    if (t k).pid = pid then (0, update t k (t k).marked) else kkill.scan t pid ks

/-- `kkill`: what it returns, and the table after it. -/
def kkill (t : Fin n → Proc n) (pid : BitVec 32) : Int × (Fin n → Proc n) :=
  kkill.scan t pid (List.finRange n)

/-- The call reaches a process that is there, and nothing else. -/
structure KillsLive (t : Fin n → Proc n) (pid : BitVec 32) : Prop where
  hit : (∃ k, (t k).state ≠ .unused ∧ (t k).pid = pid) → ∃ k, (t k).state ≠ .unused ∧
    (t k).pid = pid ∧ kkill t pid = (0, update t k (t k).marked)
  miss : (∀ k, (t k).pid = pid → (t k).state = .unused) → kkill t pid = (-1, t)

/-- The slot at which `kkill` stops. -/
def first (t : Fin n → Proc n) (pid : BitVec 32) : Option (Fin n) :=
  (List.finRange n).find? fun k => (t k).pid = pid

/-- This slot is in use, or it has the mark already and so has a process with the pid. -/
def Hits (t : Fin n → Proc n) (pid : BitVec 32) : Prop :=
  ∀ k, first t pid = some k → (t k).state ≠ .unused ∨
    (t k).marked = t k ∧ ∃ j, (t j).state ≠ .unused ∧ (t j).pid = pid ∧ (t j).marked = t j

section
variable {t : Fin n → Proc n} {pid : BitVec 32}

/-- The scan stops at the first slot with the pid. -/
theorem kkill_scan_spec (l : List (Fin n)) :
    kkill.scan t pid l = (l.find? fun k => (t k).pid = pid).elim (-1, t)
      fun k => (0, update t k (t k).marked) := by
  induction l with
  | nil => rfl
  | cons k l ih =>
    rw [kkill.scan]
    by_cases hk : (t k).pid = pid
    · simp [hk]
    · simp [hk, ih]

theorem pid_of_first {k : Fin n} (h : first t pid = some k) : (t k).pid = pid :=
  of_decide_eq_true (find?_some (p := fun k => decide ((t k).pid = pid)) h)

/-- `kkill` is right exactly if the slot it stops at is. -/
theorem killsLive_iff : KillsLive t pid ↔ Hits t pid := by
  have heq : kkill t pid = (first t pid).elim (-1, t) fun k => (0, update t k (t k).marked) :=
    kkill_scan_spec _
  cases hf : first t pid with
  | none =>
    rw [hf] at heq
    refine iff_of_true ⟨?_, fun _ => heq⟩ fun k hk => by cases hf.symm.trans hk
    rintro ⟨k, -, hk⟩
    exact absurd (decide_eq_true hk) (find?_eq_none.mp hf k (mem_finRange k))
  | some k =>
    rw [hf] at heq
    constructor
    · intro h i hi
      cases hf.symm.trans hi
      by_cases hlive : ∃ j, (t j).state ≠ .unused ∧ (t j).pid = pid
      · -- the process that the call should mark is marked, and so is slot k
        rcases h.hit hlive with ⟨j, hj, hjpid, hret⟩
        have htab : update t k (t k).marked = update t j (t j).marked :=
          congrArg Prod.snd (heq.symm.trans hret)
        by_cases hkj : k = j
        · exact .inl (hkj ▸ hj)
        have hk := congrFun htab k
        have hj' := congrFun htab j
        rw [update_self, update_of_ne hkj] at hk
        rw [update_self, update_of_ne (Ne.symm hkj)] at hj'
        exact .inr ⟨hk, j, hj, hjpid, hj'.symm⟩
      · push Not at hlive
        have hmiss := h.miss fun j hj => by_contra fun hne => hlive j hne hj
        cases congrArg Prod.fst (heq.symm.trans hmiss)
    · intro h
      rcases h k hf with hlive | ⟨hmark, j, hj, hjpid, hjmark⟩
      · exact ⟨fun _ => ⟨k, hlive, pid_of_first hf, heq⟩,
          fun hall => absurd (hall k (pid_of_first hf)) hlive⟩
      · refine ⟨fun _ => ⟨j, hj, hjpid, ?_⟩, fun hall => absurd (hall j hjpid) hj⟩
        rw [heq, hjmark, Option.elim_some, hmark, update_eq_self, update_eq_self]

end

/-! ## The call in the kernel -/

/-- A `kkill` that is not interrupted does this. -/
theorem kill_run (m : Nat) {s : St n} {p : Fin n} {pid : BitVec 32} {j : Nat} (hj : j + m = n)
    (hs : s.panicked = false) (hrun : (s.proc p).state = .running) (hp : s.pc p = .killScan pid j) :
    ∃ c s', (sys init).exec s (List.replicate c (.run p true)) = some s' ∧ s'.pc p = .user ∧
      s'.proc = (kkill.scan s.proc pid ((List.finRange n).drop j)).2 := by
  induction m generalizing s j with
  | zero =>
    have hend : (List.finRange n).drop j = [] :=
      drop_eq_nil_of_le (by rw [length_finRange]; omega)
    refine ⟨1, s.goto p .user, ?_, update_self _ _ _, ?_⟩
    · have hstep : step init s (.run p true) = some (s.goto p .user) := by
        simp only [step, hs, Bool.false_eq_true, if_false, hrun, if_true, hp, runPc]
        rw [dif_neg (by omega)]
      simp only [replicate_one, System.exec, sys, hstep, Option.bind_some]
    · rw [hend]
      rfl
  | succ m ih =>
    have hjn : j < n := by omega
    have hdrop : (List.finRange n).drop j = ⟨j, hjn⟩ :: (List.finRange n).drop (j + 1) := by
      rw [drop_eq_getElem_cons (by rwa [length_finRange])]
      simp
    have hstep : step init s (.run p true) = some (killVisit s p pid ⟨j, hjn⟩) := by
      simp only [step, hs, Bool.false_eq_true, if_false, hrun, if_true, hp, runPc, dif_pos hjn]
    rw [hdrop, kkill.scan]
    by_cases hpid : (s.proc ⟨j, hjn⟩).pid = pid
    · rw [if_pos hpid]
      refine ⟨1, killVisit s p pid ⟨j, hjn⟩, ?_, ?_, ?_⟩
      · simp only [replicate_one, System.exec, sys, hstep, Option.bind_some]
      · rw [killVisit, if_pos hpid]
        exact update_self _ _ _
      · rw [killVisit, if_pos hpid]
        rfl
    · -- the slot has another pid, and the scan goes on
      have hgo : killVisit s p pid ⟨j, hjn⟩ = s.goto p (.killScan pid (j + 1)) := if_neg hpid
      rw [if_neg hpid]
      rcases ih (s := s.goto p (.killScan pid (j + 1))) (j := j + 1) (by omega) hs hrun
        (update_self _ _ _) with ⟨c, s', hexec, hpc, hproc⟩
      refine ⟨c + 1, s', ?_, hpc, hproc⟩
      rw [replicate_succ, System.exec]
      show (step init s (.run p true)).bind _ = _
      rw [hstep, hgo]
      exact hexec

/-! ## Free slots -/

/-- The label starts no `kkill(0)`. -/
def Lbl.NotZero (l : Lbl n) : Prop := ∀ p, l ≠ .kill p 0

/-- A free slot has pid 0, and in runs without `kkill(0)`, which are those with `K`, it is not
marked. -/
def Proc.Vacant (K : Prop) (q : Proc n) : Prop :=
  q.state = .unused → q.pid = 0 ∧ (K → q.killed = false)

structure Vacancies (K : Prop) (s : St n) : Prop where
  slots : ∀ k, (s.proc k).Vacant K
  scan : K → ∀ p k, s.pc p ≠ .killScan 0 k

section
variable {K : Prop} {s s' : St n} {p i : Fin n}

/-- A section under one lock, by a process that does not begin a `kkill(0)`. -/
theorem Vacancies.modify {x : Proc n} {y : Pc n} (h : Vacancies K s)
    (hproc : s'.proc = update s.proc i x) (hpc : ∀ q, s'.pc q = s.pc q ∨ s'.pc q = y)
    (hx : x.Vacant K) (hscan : K → ∀ k, y ≠ .killScan 0 k) : Vacancies K s' := by
  refine ⟨fun k => ?_, fun hK q k hq => ?_⟩
  · rw [hproc]
    by_cases hk : k = i
    · rw [hk, update_self]
      exact hx
    · rw [update_of_ne hk]
      exact h.slots k
  · rcases hpc q with heq | heq
    · exact h.scan hK q k (heq.symm.trans hq)
    · exact hscan hK k (heq.symm.trans hq)

theorem update_cases {f g : Fin n → Pc n} {p : Fin n} {x : Pc n} (h : g = update f p x)
    (q : Fin n) : g q = f q ∨ g q = x := by
  subst h
  rw [update_apply]
  split
  · exact .inr rfl
  · exact .inl rfl

/-- A slot that `kkill` marks is not free, unless the pid is 0. -/
theorem Vacancies.kept {l : Lbl n} {x : Proc n} (h : Vacancies K s) (hx : Kept (s.proc i) x)
    (hkilled : x.killed = (s.proc i).killed ∨ x.state.live = true ∨
      ∃ j, s.pc l.actor = .killScan (s.proc i).pid j) : x.Vacant K := by
  intro hunused
  have hdead : x.state.live = false := by rw [hunused]; rfl
  have hold : (s.proc i).state = .unused := by
    rcases hx.state with heq | ⟨-, hlive⟩
    · rw [← heq, hunused]
    · rw [hdead] at hlive
      cases hlive
  rcases h.slots i hold with ⟨hzero, hmark⟩
  refine ⟨hx.pid.trans hzero, fun hK => ?_⟩
  rcases hkilled with heq | hlive | ⟨j, hj⟩
  · rw [heq]
    exact hmark hK
  · rw [hdead] at hlive
    cases hlive
  · rw [hzero] at hj
    exact absurd hj (h.scan hK l.actor j)

theorem step_vacancies {l : Lbl n} (h : Vacancies K s) (hl : K → l.NotZero)
    (hs : step init s l = some s') : Vacancies K s' := by
  cases step_act hs with
  | touch i x hproc hx hkilled hpc =>
    have hvac := h.kept hx hkilled
    rcases hpc with hpc | ⟨pc, hgo, hpc⟩
    · exact h.modify (y := .user) hproc (fun q => .inl (congrFun hpc q)) hvac nofun
    · refine h.modify hproc (update_cases hpc) hvac fun hK k hk => ?_
      rcases hgo.kill 0 k hk with ⟨j, hj⟩ | hzero
      · exact h.scan hK l.actor j hj
      · exact hl hK l.actor hzero
  | alloc k _ _ hproc hpc => exact h.modify hproc (update_cases hpc) nofun nofun
  | giveUp k _ _ _ hproc hpc =>
    exact h.modify hproc (update_cases hpc) (fun _ => ⟨rfl, fun _ => rfl⟩) nofun
  | reap addr k _ _ _ hproc hpc =>
    exact h.modify hproc (update_cases hpc) (fun _ => ⟨rfl, fun _ => rfl⟩) nofun
  | adopt k _ hproc hpc => exact h.modify hproc (update_cases hpc) (h.slots k) nofun
  | handOver k _ _ _ hproc hpc => exact h.modify hproc (update_cases hpc) (h.slots k) nofun
  | exit status _ _ hproc hpc => exact h.modify hproc (update_cases hpc) nofun nofun
  | start np _ hproc hpc =>
    refine h.modify (y := .user) hproc (fun q => ?_) nofun nofun
    -- the child starts in user space, and the parent returns to it
    rcases update_cases hpc q with heq | heq
    · exact (update_cases rfl q).imp heq.trans heq.trans
    · exact .inr heq

theorem boot_vacancies (init : Fin n) : Vacancies K (boot init) := by
  refine ⟨fun k => ?_, fun _ p k => ?_⟩
  · simp only [boot]
    split
    · rintro ⟨⟩
    · exact fun _ => ⟨rfl, fun _ => rfl⟩
  · simp only [boot]
    split <;> rintro ⟨⟩

/-- Free slots, in every run and in runs without `kkill(0)`. -/
theorem reachableBy_vacancies (init : Fin n) (h : (sys init).ReachableBy (fun _ l => K → l.NotZero) s) :
    Vacancies K s := by
  refine System.ReachableBy.invariant (Vacancies K) ?_ ?_ h
  · rintro s rfl
    exact boot_vacancies init
  · exact fun s l s' hi hl hs => step_vacancies hi hl hs

/-- `allocproc` returns a slot that was free. -/
theorem forkVisit_allocates {k np : Fin n} {ok : Bool}
    (hnp : (forkVisit s p k ok).pc p = .forkParent np) :
    (s.proc np).state = .unused ∧ ((forkVisit s p k ok).proc np).killed = (s.proc np).killed := by
  unfold forkVisit at *
  split at hnp
  · next hk =>
    split at hnp
    · next hok =>
      simp only [update_self, Pc.forkParent.injEq] at hnp
      subst hnp
      refine ⟨hk, ?_⟩
      simp only [if_pos hk, if_pos hok, St.modify, update_self]
    · simp only [update_self] at hnp
      cases hnp
  · simp only [St.goto, update_self] at hnp
    cases hnp

end

/-! ## The result -/

/-- In every reachable table `kkill` changes just the process it finds, and fails without a
change if there is none, exactly if the pid is not 0 or the first slot with pid 0 is in use. In
a run without `kkill(0)` a process that `allocproc` has just returned is not killed. -/
theorem kkill_live {s : St n} (h : (sys init).Reachable s) :
    (∀ pid, KillsLive s.proc pid ↔ pid ≠ 0 ∨ Hits s.proc 0) ∧
    ((sys init).ReachableBy (fun _ l => l.NotZero) s → ∀ p ok s' k np, s.pc p = .forkScan k →
      step init s (.run p ok) = some s' → s'.pc p = .forkParent np →
      (s'.proc np).killed = false) := by
  have hall : Vacancies False s := by
    refine reachableBy_vacancies init ?_
    have heq : (fun (_ : St n) (l : Lbl n) => False → l.NotZero) = fun _ _ => True :=
      funext fun _ => funext fun _ => propext ⟨fun _ => trivial, fun _ hf => hf.elim⟩
    rw [heq]
    exact h
  refine ⟨fun pid => ?_, fun hrun p ok s' k np hp hs hnp => ?_⟩
  · rw [killsLive_iff]
    by_cases hpid : pid = 0
    · rw [hpid]
      exact ⟨.inr, fun h => h.resolve_left fun hne => hne rfl⟩
    · -- free slots have pid 0
      refine iff_of_true (fun k hk => .inl fun hunused => hpid ?_) (.inl hpid)
      exact (pid_of_first hk).symm.trans (hall.slots k hunused).1
  · have hvac : Vacancies True s := by
      refine reachableBy_vacancies init ?_
      have heq : (fun (_ : St n) (l : Lbl n) => True → l.NotZero) = fun _ l => l.NotZero :=
        funext fun _ => funext fun l => propext ⟨fun hl => hl trivial, fun hl _ => hl⟩
      rw [heq]
      exact hrun
    unfold step at hs
    split at hs
    · cases hs
    simp only [Option.ite_none_right_eq_some, hp, runPc, Option.some.injEq] at hs
    rcases hs with ⟨-, rfl⟩
    split at hnp
    · next hk =>
      rcases forkVisit_allocates (k := ⟨k, hk⟩) hnp with ⟨hunused, hsame⟩
      rw [dif_pos hk, hsame]
      exact (hvac.slots np hunused).2 trivial
    · simp only [St.goto, update_self] at hnp
      cases hnp

/-- Two slots. The first process forks, and its child gets the free slot. -/
def forkRun : List (Lbl 2) := [.schedule 0, .fork 0, .run 0 true]

/-- `kkill` in the first table, and a new process that is not killed. -/
theorem kkill_live_forkRun :
    KillsLive (boot (0 : Fin 2)).proc 1 ∧
    ∃ s s', (sys 0).exec (boot 0) forkRun = some s ∧ step 0 s (.run 0 true) = some s' ∧
      s'.pc 0 = .forkParent 1 ∧ (s'.proc 1).killed = false := by
  have hboot : (sys (0 : Fin 2)).Reachable (boot 0) := System.Reachable.init rfl
  refine ⟨((kkill_live hboot).1 1).mpr (.inl (by decide)), ?_⟩
  have hany : ((sys (0 : Fin 2)).exec (boot 0) forkRun).any (fun s =>
      decide (s.pc 0 = .forkScan 1) && (step 0 s (.run 0 true)).any fun s' =>
        decide (s'.pc 0 = .forkParent 1)) = true := by decide +kernel
  rcases (Option.any_eq_true _ _).mp hany with ⟨s, hs, hrest⟩
  rw [Bool.and_eq_true] at hrest
  rcases (Option.any_eq_true _ _).mp hrest.2 with ⟨s', hs', hpc'⟩
  have hpc' := of_decide_eq_true hpc'
  have hok : ∀ m ∈ (sys (0 : Fin 2)).moves (boot 0) forkRun, m.2.NotZero := by
    intro m hm p heq
    have hmem := System.mem_of_mem_moves hm
    rw [heq] at hmem
    simp [forkRun] at hmem
  have hrun : (sys (0 : Fin 2)).ReachableBy (fun _ l => l.NotZero) s :=
    System.ReachableBy.exec (.init rfl) hok hs
  exact ⟨s, s', hs, hs', hpc', (kkill_live hrun.reachable).2 hrun 0 true s' 1 1
    (of_decide_eq_true hrest.1) hs' hpc'⟩

/-- The same after a `kkill(0)`. -/
def killedRun : List (Lbl 2) :=
  [.schedule 0, .kill 0 0, .run 0 true, .run 0 true, .fork 0, .run 0 true]

/-- `kkill(0)` returns 0 though no process has this pid, and marks a free slot; the next process
in the slot is killed from the start. -/
theorem kkill_zero_free :
    kkill (boot (0 : Fin 2)).proc 0 = (0, update (boot (0 : Fin 2)).proc 1
      ((boot (0 : Fin 2)).proc 1).marked) ∧
    ¬ KillsLive (boot (0 : Fin 2)).proc 0 ∧
    ∃ s s', (sys 0).exec (boot 0) killedRun = some s ∧ step 0 s (.run 0 true) = some s' ∧
      s.pc 0 = .forkScan 1 ∧ s'.pc 0 = .forkParent 1 ∧ (s'.proc 1).killed = true := by
  refine ⟨rfl, ?_, ?_⟩
  · exact fun h => absurd (congrArg Prod.fst (h.miss (by decide))) (by decide)
  have hany : ((sys (0 : Fin 2)).exec (boot 0) killedRun).any (fun s =>
      decide (s.pc 0 = .forkScan 1) && (step 0 s (.run 0 true)).any fun s' =>
        decide (s'.pc 0 = .forkParent 1 ∧ (s'.proc 1).killed = true)) = true := by
    decide +kernel
  rcases (Option.any_eq_true _ _).mp hany with ⟨s, hs, hrest⟩
  rw [Bool.and_eq_true] at hrest
  rcases (Option.any_eq_true _ _).mp hrest.2 with ⟨s', hs', hend⟩
  exact ⟨s, s', hs, hs', of_decide_eq_true hrest.1, of_decide_eq_true hend⟩

end Xv6.Process
