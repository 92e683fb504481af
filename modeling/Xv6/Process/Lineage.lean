import Xv6.Process.Act

/-!
# Xv6.Process.Lineage — what one action does to a parent field

The `parent` field of a slot changes in three ways: a fork sets it for a new process, an
exiting parent hands it to `init`, and the slot is freed, which takes the slot's lock
(`Lbl.needs`). The processes that are alive keep their pids through every action.
-/

namespace Xv6.Process

open Lib Function

variable {n : Nat} {init : Fin n}

/-! ## What changes -/

/-- The ways a `parent` field changes. -/
inductive Reparents (init : Fin n) (s t : St n) (l : Lbl n) (c : Fin n) : Prop where
  | same (h : (t.proc c).parent = (s.proc c).parent)
  | fork (p : Fin n) (hpc : s.pc p = .forkParent c) (hnext : t.pc p = .forkRun c)
      (h : (t.proc c).parent = some p)
  | exit (p : Fin n) (status : BitVec 32) (hpc : s.pc p = .exitReparent status c)
      (hold : (s.proc c).parent = some p) (h : (t.proc c).parent = some init)
      (hnext : t.pc p = .exitWakeInit status c 0)
  | freed (h : (t.proc c).parent = none) (hneeds : l.needs s = some c)

variable {s t : St n} {l : Lbl n}

theorem step_reparents (hs : step init s l = some t) (c : Fin n) :
    Reparents init s t l c := by
  -- what an action does to slot `i` is all that matters
  have hsame : ∀ i x, t.proc = update s.proc i x → (c = i → Reparents init s t l c) →
      Reparents init s t l c := by
    intro i x hproc hi
    by_cases hc : c = i
    · exact hi hc
    · exact .same (by rw [hproc, update_of_ne hc])
  cases step_act hs with
  | touch i x hproc hx =>
    refine hsame i x hproc ?_
    rintro rfl
    exact .same (by rw [hproc, update_self, hx.parent])
  | alloc k _ _ hproc =>
    refine hsame k _ hproc ?_
    rintro rfl
    exact .same (by rw [hproc, update_self])
  | giveUp k _ _ hneeds hproc =>
    refine hsame k _ hproc ?_
    rintro rfl
    exact .freed (by rw [hproc, update_self]; rfl) hneeds
  | adopt np hp hproc hpc =>
    refine hsame np _ hproc ?_
    rintro rfl
    exact .fork l.actor hp (by rw [hpc, update_self]) (by rw [hproc, update_self])
  | start np _ hproc =>
    refine hsame np _ hproc ?_
    rintro rfl
    exact .same (by rw [hproc, update_self])
  | handOver k status hp hk hproc hpc =>
    refine hsame k _ hproc ?_
    rintro rfl
    exact .exit l.actor status hp hk (by rw [hproc, update_self]) (by rw [hpc, update_self])
  | exit status _ _ hproc =>
    refine hsame l.actor _ hproc ?_
    rintro rfl
    exact .same (by rw [hproc, update_self])
  | reap addr k _ _ hneeds hproc =>
    refine hsame k _ hproc ?_
    rintro rfl
    exact .freed (by rw [hproc, update_self]; rfl) hneeds

/-! ## The living keep their names -/

theorem ids_update (s : St n) (i q : Fin n) {x : Proc n}
    (hx : q = i → x.uid = (s.proc i).uid ∧ x.pid = (s.proc i).pid) :
    (update s.proc i x q).uid = (s.proc q).uid ∧
      (update s.proc i x q).pid = (s.proc q).pid := by
  by_cases hq : q = i
  · subst hq
    rw [update_self]
    exact hx rfl
  · rw [update_of_ne hq]
    exact ⟨rfl, rfl⟩

/-- A slot that is not alive is not the slot of a living process. -/
theorem Inv.ne_of_not_live (hi : Inv init s) {q k : Fin n} (hq : s.pc q ≠ .dead)
    (hk : (s.proc k).state.live = false) : q ≠ k := by
  rintro rfl
  rw [(hi.live q).mpr hq] at hk
  cases hk

theorem step_ids (hi : Inv init s) (hs : step init s l = some t) {q : Fin n} (hq : s.pc q ≠ .dead) :
    (t.proc q).uid = (s.proc q).uid ∧ (t.proc q).pid = (s.proc q).pid := by
  have hne : ∀ k, (s.proc k).state.live = false → q ≠ k := fun k => hi.ne_of_not_live hq
  cases step_act hs with
  | touch i x hproc hx =>
    rw [hproc]
    exact ids_update s i q fun _ => ⟨hx.uid, hx.pid⟩
  | alloc k _ hk hproc | giveUp k _ hk _ hproc =>
    rw [hproc]
    exact ids_update s k q fun e => absurd e (hne k (by rw [hk]; rfl))
  | reap addr k _ hk _ hproc =>
    rw [hproc]
    exact ids_update s k q fun e => absurd e (hne k (by rw [hk]; rfl))
  | adopt k _ hproc | start k _ hproc | handOver k _ _ _ hproc =>
    rw [hproc]
    exact ids_update s k q fun _ => ⟨rfl, rfl⟩
  | exit status _ _ hproc =>
    rw [hproc]
    exact ids_update s l.actor q fun _ => ⟨rfl, rfl⟩

/-! ## Places -/

/-- A process in the middle of `wakeup(initproc)` stays there, one slot at a time, and a fork
comes to the place after its allocation by nothing else. -/
structure Places (s t : St n) (p : Fin n) : Prop where
  wake : ∀ q status k j, s.pc q = .exitWakeInit status k j → t.pc q = .exitWakeInit status k j ∨
    (p = q ∧ (t.pc q = .exitWakeInit status k (j + 1) ∨ n ≤ j))
  fork : ∀ q np, t.pc q = .forkParent np → s.pc q = .forkParent np ∨ (s.proc np).state = .unused

theorem Places.same {p : Fin n} (h : t.pc = s.pc) : Places s t p :=
  ⟨fun q status k j hq => .inl (by rw [h]; exact hq), fun q np hq => .inl (by rwa [h] at hq)⟩

theorem Places.go {p : Fin n} {pc : Pc n} (hpc : t.pc = update s.pc p pc)
    (hwake : ∀ status k j, s.pc p = .exitWakeInit status k j →
      pc = .exitWakeInit status k (j + 1) ∨ n ≤ j)
    (hfork : ∀ np, pc = .forkParent np → (s.proc np).state = .unused) : Places s t p := by
  refine ⟨?_, ?_⟩
  · intro q status k j hq
    by_cases hqp : q = p
    · subst hqp
      rw [hpc, update_self]
      exact .inr ⟨rfl, hwake status k j hq⟩
    · rw [hpc, update_of_ne hqp]
      exact .inl hq
  · intro q np hq
    by_cases hqp : q = p
    · rw [hpc, hqp, update_self] at hq
      exact .inr (hfork np hq)
    · rw [hpc, update_of_ne hqp] at hq
      exact .inl hq

theorem step_places (hi : Inv init s) (hs : step init s l = some t) :
    Places s t l.actor := by
  cases step_act hs with
  | touch i x _ _ _ hpc =>
    rcases hpc with hpc | ⟨pc, hgo, hpc⟩
    · exact .same hpc
    · exact .go hpc hgo.wake fun np h => absurd h (hgo.fork np)
  | alloc k hp hk _ hpc =>
    refine .go hpc (by simp [hp]) ?_
    intro np hnp
    cases hnp
    exact hk
  | giveUp k hp _ _ _ hpc => exact .go hpc (by simp [hp]) nofun
  | adopt np hp _ hpc => exact .go hpc (by simp [hp]) nofun
  | handOver k status hp _ _ hpc => exact .go hpc (by simp [hp]) nofun
  | exit status hp _ _ hpc => exact .go hpc (by simp [hp]) nofun
  | reap addr k hp _ _ _ hpc => exact .go hpc (by simp [hp]) nofun
  | start np hp _ hpc =>
    -- the new process starts in a slot where none was running
    have hdead : s.pc np = .dead := by
      by_contra hne
      have := (hi.live np).mpr hne
      rw [hi.target l.actor np (by rw [hp]; rfl)] at this
      cases this
    refine ⟨?_, ?_⟩
    · intro q status k j hq
      left
      have hqp : q ≠ l.actor := fun e => by rw [e, hp] at hq; cases hq
      have hqn : q ≠ np := fun e => by rw [e, hdead] at hq; cases hq
      rw [hpc, update_of_ne hqp, update_of_ne hqn, hq]
    · intro q np' hq
      left
      have hqp : q ≠ l.actor := fun e => by simp [hpc, e] at hq
      have hqn : q ≠ np := fun e => by simp [hpc, e, update_apply] at hq
      rwa [hpc, update_of_ne hqp, update_of_ne hqn] at hq

/-- The walk of `wakeup(initproc)` takes the lock of each slot but the walker's own. -/
theorem wake_needs {c : Fin n} {status : BitVec 32} {k : Nat} (hs : step init s l = some t)
    (hpc : s.pc l.actor = .exitWakeInit status k c)
    (hnext : t.pc l.actor = .exitWakeInit status k (c + 1)) (hne : l.actor ≠ c) :
    l.needs s = some c := by
  unfold step at hs
  split at hs
  · cases hs
  cases l with
  | run p ok =>
    have hval : ¬ c.val = p.val := fun e => hne (Fin.ext e.symm)
    simp only [Lbl.actor] at hpc
    simp only [Lbl.needs, hpc, Pc.slot, c.isLt, hval, dite_true, if_false]
  | fork p | exit p status | wait p addr | kill p pid | setkilled p | sleep p ch =>
    simp only [Option.ite_none_right_eq_some] at hs
    rw [Lbl.actor, hs.1.2] at hpc
    cases hpc
  | schedule p | yield p | wakeOther p ch =>
    rcases of_ite_eq_some hs with ⟨-, rfl⟩
    rw [show (s.modify p _).pc = s.pc from rfl, hpc] at hnext
    simp at hnext

/-! ## Parents -/

/-- Nobody is its own parent, `init` has none, and neither has a slot a fork has just taken. -/
structure Lineage (init : Fin n) (s : St n) : Prop where
  init_parent : (s.proc init).parent = none
  ne_self : ∀ c, (s.proc c).parent ≠ some c
  fresh : ∀ p np, s.pc p = .forkParent np → (s.proc np).parent = none

theorem Lineage.step (h : Lineage init s) (hi : Inv init s) (hs : step init s l = some t) :
    Lineage init t := by
  have hused : ∀ p c, s.pc p = .forkParent c → (s.proc c).state = .used :=
    fun p c hp => hi.target p c (by rw [hp]; rfl)
  have hinit_live := (hi.live init).mpr hi.init_pc
  refine ⟨?_, ?_, ?_⟩
  · rcases step_reparents hs init with heq | ⟨p, hp, -, -⟩ | ⟨p, status, -, hold, -⟩ | ⟨hnone, -⟩
    · rw [heq]
      exact h.init_parent
    · rw [hused p init hp] at hinit_live
      cases hinit_live
    · rw [h.init_parent] at hold
      cases hold
    · exact hnone
  · intro c hc
    rcases step_reparents hs c with heq | ⟨p, hp, -, hnew⟩ | ⟨p, status, -, hold, hnew, -⟩ | ⟨hnone, -⟩
    · rw [heq] at hc
      exact h.ne_self c hc
    · -- the process that forks is alive, its new slot is not
      rw [hnew] at hc
      cases hc
      have hlive := (hi.live c).mpr (by rw [hp]; exact nofun)
      rw [hused c c hp] at hlive
      cases hlive
    · rw [hnew] at hc
      cases hc
      rw [h.init_parent] at hold
      cases hold
    · rw [hnone] at hc
      cases hc
  · intro p np hp
    have hold : (s.proc np).parent = none := by
      rcases (step_places hi hs).fork p np hp with hp' | hunused
      · exact h.fresh p np hp'
      · exact hi.unused np hunused
    rcases step_reparents hs np with heq | ⟨p', hp', hnext, -⟩ | ⟨p', status, -, hold', -⟩ | ⟨hnone, -⟩
    · rw [heq, hold]
    · -- the fork that sets the field leaves this place
      rcases (step_places hi hs).fork p np hp with hp'' | hunused
      · have hsame := hi.target_inj p p' np (by rw [hp'']; rfl) (by rw [hp']; rfl)
        rw [hsame, hnext] at hp
        cases hp
      · rw [hused p' np hp'] at hunused
        cases hunused
    · rw [hold] at hold'
      cases hold'
    · exact hnone

theorem boot_lineage (init : Fin n) : Lineage init (boot init) := by
  have hparent : ∀ c, ((boot init).proc c).parent = none := by
    intro c
    simp only [boot]
    split <;> rfl
  refine ⟨hparent init, fun c hc => ?_, fun _ np _ => hparent np⟩
  rw [hparent c] at hc
  cases hc

end Xv6.Process
