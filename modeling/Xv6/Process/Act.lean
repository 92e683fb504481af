import Xv6.Process.Family

/-!
# Xv6.Process.Act — what one action does to the table

`Act` lists what an action can change, whatever code it belongs to: it moves its actor and
touches one slot whose process goes on as before, or it is one of the seven actions that begin,
hand over or end a process. `step_act` reads every action so; invariants of the table and of its
history are proved by cases of `Act` instead of cases of the code.
-/

namespace Xv6.Process

open Lib Function

variable {n : Nat} {init : Fin n}

/-! ## Actor and slot lock -/

/-- The slot whose lock a process takes with its next action. -/
def Pc.slot (p : Fin n) : Pc n → Option (Fin n)
  | .slept | .exitZombie _ | .waitEnd .. | .waitSleep _ | .waitSlept _ => some p
  | .forkScan k | .killScan _ k => if h : k < n then some ⟨k, h⟩ else none
  | .exitWakeInit _ _ j | .exitWakeParent _ _ j =>
    -- wakeup passes over the slot of its caller
    if h : j < n then if j = p.val then none else some ⟨j, h⟩ else none
  | .forkRun k | .waitChild _ k => some k
  | .user | .forkParent _ | .exitAcquire _ | .exitReparent .. | .waitAcquire _ | .waitScan ..
  | .dead => none

/-- The slot whose lock an action takes. -/
def Lbl.needs (s : St n) : Lbl n → Option (Fin n)
  | .run p _ => (s.pc p).slot p
  | .fork _ | .exit .. | .wait .. | .kill .. => none
  | .setkilled p | .schedule p | .yield p | .sleep p _ | .wakeOther p _ => some p

/-- The process that acts. -/
def Lbl.actor : Lbl n → Fin n
  | .run p _ | .fork p | .exit p _ | .wait p _ | .kill p _ | .setkilled p | .schedule p | .yield p
  | .sleep p _ | .wakeOther p _ => p

/-! ## Actions -/

/-- Where the actor may go. A `wakeup(initproc)` goes on slot by slot, and a `kkill` looks for
the pid it was called with. -/
structure Goes (s : St n) (l : Lbl n) (pc : Pc n) : Prop where
  wake : ∀ status k j, s.pc l.actor = .exitWakeInit status k j →
    pc = .exitWakeInit status k (j + 1) ∨ n ≤ j
  fork : ∀ np, pc ≠ .forkParent np
  kill : ∀ pid k, pc = .killScan pid k →
    (∃ j, s.pc l.actor = .killScan pid j) ∨ l = .kill l.actor pid

/-- At most the actor moves. -/
def Moves (s t : St n) (l : Lbl n) : Prop :=
  t.pc = s.pc ∨ ∃ pc, Goes s l pc ∧ t.pc = update s.pc l.actor pc

/-- The process in a slot goes on as before. -/
structure Kept (q x : Proc n) : Prop where
  state : x.state = q.state ∨ q.state.live = true ∧ x.state.live = true
  parent : x.parent = q.parent
  uid : x.uid = q.uid
  pid : x.pid = q.pid
  xstate : x.xstate = q.xstate

/-- No process is numbered, exits or is reaped. -/
structure Unrecorded (s t : St n) : Prop where
  nextuid : t.nextuid = s.nextuid
  nextpid : t.nextpid = s.nextpid
  exits : t.exits = s.exits
  reaps : t.reaps = s.reaps

inductive Act (init : Fin n) (s t : St n) (l : Lbl n) : Prop where
  | touch (i : Fin n) (x : Proc n) (hproc : t.proc = update s.proc i x) (hx : Kept (s.proc i) x)
      (hkilled : x.killed = (s.proc i).killed ∨ x.state.live = true ∨
        ∃ j, s.pc l.actor = .killScan (s.proc i).pid j)
      (hpc : Moves s t l) (hrec : Unrecorded s t)
  | alloc (k : Fin n) (hp : s.pc l.actor = .forkScan k) (hk : (s.proc k).state = .unused)
      (hproc : t.proc = update s.proc k
        { s.proc k with pid := s.nextpid, state := .used, uid := s.nextuid })
      (hpc : t.pc = update s.pc l.actor (.forkParent k)) (hnext : t.nextuid = s.nextuid + 1)
      (hpid : t.nextpid = s.nextpid + 1) (hexits : t.exits = s.exits) (hreaps : t.reaps = s.reaps)
  | giveUp (k : Fin n) (hp : s.pc l.actor = .forkScan k) (hk : (s.proc k).state = .unused)
      (hneeds : l.needs s = some k) (hproc : t.proc = update s.proc k (freeproc (s.proc k)))
      (hpc : t.pc = update s.pc l.actor .user) (hnext : t.nextuid = s.nextuid)
      (hpid : t.nextpid = s.nextpid + 1) (hexits : t.exits = s.exits) (hreaps : t.reaps = s.reaps)
  | adopt (np : Fin n) (hp : s.pc l.actor = .forkParent np)
      (hproc : t.proc = update s.proc np { s.proc np with parent := some l.actor })
      (hpc : t.pc = update s.pc l.actor (.forkRun np)) (hrec : Unrecorded s t)
  | start (np : Fin n) (hp : s.pc l.actor = .forkRun np)
      (hproc : t.proc = update s.proc np { s.proc np with state := .runnable })
      (hpc : t.pc = update (update s.pc np .user) l.actor .user) (hrec : Unrecorded s t)
  | handOver (k : Fin n) (status : BitVec 32) (hp : s.pc l.actor = .exitReparent status k)
      (hk : (s.proc k).parent = some l.actor)
      (hproc : t.proc = update s.proc k { s.proc k with parent := some init })
      (hpc : t.pc = update s.pc l.actor (.exitWakeInit status k 0)) (hrec : Unrecorded s t)
  | exit (status : BitVec 32) (hp : s.pc l.actor = .exitZombie status)
      (hrun : (s.proc l.actor).state = .running)
      (hproc : t.proc = update s.proc l.actor
        { s.proc l.actor with xstate := status, state := .zombie })
      (hpc : t.pc = update s.pc l.actor .dead) (hnext : t.nextuid = s.nextuid)
      (hpid : t.nextpid = s.nextpid)
      (hexits : t.exits = ⟨(s.proc l.actor).uid, (s.proc l.actor).pid, status⟩ :: s.exits)
      (hreaps : t.reaps = s.reaps)
  | reap (addr : Bool) (k : Fin n) (hp : s.pc l.actor = .waitChild addr k)
      (hk : (s.proc k).state = .zombie) (hneeds : l.needs s = some k)
      (hproc : t.proc = update s.proc k (freeproc (s.proc k)))
      (hpc : t.pc = update s.pc l.actor .user) (hnext : t.nextuid = s.nextuid)
      (hpid : t.nextpid = s.nextpid) (hexits : t.exits = s.exits)
      (hreaps : t.reaps = ⟨(s.proc k).uid, k, l.actor, (s.proc k).pid,
        if addr then some (s.proc k).xstate else none⟩ :: s.reaps)

/-! ## Reading the code -/

/-- A place in `wakeup(initproc)`. -/
def Pc.waking : Pc n → Bool
  | .exitWakeInit .. => true
  | _ => false

/-- A place that `allocproc` and `kkill` lead to. -/
def Pc.found : Pc n → Bool
  | .forkParent _ | .killScan .. => true
  | _ => false

section
variable {s t : St n} {l : Lbl n} {p i : Fin n} {k pc : Pc n}

theorem Kept.refl (q : Proc n) : Kept q q := ⟨.inl rfl, rfl, rfl, rfl, rfl⟩

theorem Goes.of_wake (hwake : ∀ status k j, s.pc l.actor = .exitWakeInit status k j →
    pc = .exitWakeInit status k (j + 1) ∨ n ≤ j) (hto : pc.found = false) : Goes s l pc := by
  refine ⟨hwake, ?_, ?_⟩
  · rintro np rfl
    cases hto
  · rintro pid k rfl
    cases hto

theorem Pc.ne_waking (hp : s.pc i = k) (hk : k.waking = false) (status : BitVec 32) (j m : Nat) :
    s.pc i ≠ .exitWakeInit status j m := by
  intro h
  rw [← hp, h] at hk
  cases hk

/-- A move from `k`, which is no place in `wakeup(initproc)`. -/
theorem Moves.go (hp : s.pc l.actor = k) (hpc : t.pc = update s.pc l.actor pc)
    (hk : k.waking = false) (hto : pc.found = false) : Moves s t l :=
  .inr ⟨pc, .of_wake (fun status j m h => absurd h (Pc.ne_waking hp hk status j m)) hto, hpc⟩

/-- A `kkill` begins or goes on. -/
theorem Moves.kill {pid : BitVec 32} {i : Nat} (hp : s.pc l.actor = k)
    (hpc : t.pc = update s.pc l.actor (.killScan pid i))
    (hk : k.waking = false) (hpid : (∃ j, s.pc l.actor = .killScan pid j) ∨ l = .kill l.actor pid) :
    Moves s t l := by
  refine .inr ⟨.killScan pid i,
    ⟨fun status j m h => absurd h (Pc.ne_waking hp hk status j m), ?_, ?_⟩, hpc⟩
  · rintro np ⟨⟩
  · rintro pid' j ⟨⟩
    exact hpid

/-- No slot changes. -/
theorem Act.turn (hproc : t.proc = s.proc) (hpc : Moves s t l) (hrec : Unrecorded s t) :
    Act init s t l :=
  .touch l.actor (s.proc l.actor) (by rw [hproc, update_eq_self]) (.refl _) (.inl rfl) hpc hrec

/-- One visit of a `wakeup`. -/
theorem Act.wakeVisit {chan : Option (Chan n)} {me j : Fin n}
    (ht : t = (s.wakeVisit me j chan).goto l.actor pc) (hgo : Goes s l pc) : Act init s t l := by
  unfold St.wakeVisit at ht
  subst ht
  split
  case isTrue hj =>
    refine .touch j _ rfl ⟨.inr ⟨?_, rfl⟩, rfl, rfl, rfl, rfl⟩ (.inr (.inl rfl))
      (.inr ⟨pc, hgo, rfl⟩) ⟨rfl, rfl, rfl, rfl⟩
    rw [hj.2.1]
    rfl
  case isFalse => exact .turn rfl (.inr ⟨pc, hgo, rfl⟩) ⟨rfl, rfl, rfl, rfl⟩

variable {ok : Bool}

theorem forkVisit_act {k : Fin n} (hp : s.pc p = .forkScan k) :
    Act init s (forkVisit s p k ok) (.run p ok) := by
  have hneeds : (Lbl.run p ok).needs s = some k := by
    show (s.pc p).slot p = some k
    rw [hp]
    exact dif_pos k.isLt
  unfold forkVisit
  split
  case isFalse => exact .turn rfl (.go hp rfl rfl rfl) ⟨rfl, rfl, rfl, rfl⟩
  case isTrue hk =>
    split
    · exact .alloc k hp hk rfl rfl rfl rfl rfl rfl
    · exact .giveUp k hp hk hneeds rfl rfl rfl rfl rfl rfl

theorem killVisit_act {k : Fin n} {pid : BitVec 32} (hp : s.pc p = .killScan pid k) :
    Act init s (killVisit s p pid k) (.run p ok) := by
  unfold killVisit
  split
  case isTrue hpid =>
    subst hpid
    refine .touch k _ rfl ⟨?_, rfl, rfl, rfl, rfl⟩ (.inr (.inr ⟨k, hp⟩))
      (.go hp rfl rfl rfl) ⟨rfl, rfl, rfl, rfl⟩
    by_cases hsl : (s.proc k).state = .sleeping
    · exact .inr (by simp [hsl, ProcState.live])
    · exact .inl (if_neg hsl)
  case isFalse =>
    exact .turn rfl (.kill hp rfl rfl (.inl ⟨k, hp⟩)) ⟨rfl, rfl, rfl, rfl⟩

theorem runPc_act (hrun : (s.proc p).state = .running) (hs : runPc init s p ok (s.pc p) = some t) :
    Act init s t (.run p ok) := by
  have hturn : ∀ {k pc} {o : Option (Fin n)}, s.pc p = k →
      k.waking = false → pc.found = false → Act init s { s.goto p pc with lock := o } (.run p ok) :=
    fun hp hk hto => .turn rfl (.go hp rfl hk hto) ⟨rfl, rfl, rfl, rfl⟩
  generalize hp : s.pc p = pc at hs
  cases pc with
  | user | dead => cases hs
  | slept | waitSlept addr =>
    cases hs
    exact .touch p _ rfl ⟨.inl rfl, rfl, rfl, rfl, rfl⟩ (.inl rfl) (.go hp rfl rfl rfl)
      ⟨rfl, rfl, rfl, rfl⟩
  | forkScan k =>
    cases hs
    split
    · exact forkVisit_act hp
    · exact hturn hp rfl rfl
  | forkParent np =>
    rcases of_ite_eq_some hs with ⟨-, rfl⟩
    exact .adopt np hp rfl rfl ⟨rfl, rfl, rfl, rfl⟩
  | forkRun np =>
    cases hs
    exact .start np hp rfl rfl ⟨rfl, rfl, rfl, rfl⟩
  | exitAcquire status | waitAcquire addr =>
    rcases of_ite_eq_some hs with ⟨-, rfl⟩
    exact hturn hp rfl rfl
  | exitReparent status k =>
    cases hs
    split
    case isTrue hk =>
      unfold reparentVisit
      split
      case isTrue hparent => exact .handOver ⟨k, hk⟩ status hp hparent rfl rfl ⟨rfl, rfl, rfl, rfl⟩
      case isFalse => exact hturn hp rfl rfl
    case isFalse => exact hturn hp rfl rfl
  | exitWakeInit status k j =>
    cases hs
    have hgo : ∀ pc : Pc n, pc = .exitWakeInit status k (j + 1) ∨ n ≤ j → pc.found = false →
        Goes s (.run p ok) pc := by
      intro pc hpc hto
      refine .of_wake (fun status' k' j' h => ?_) hto
      cases hp.symm.trans h
      exact hpc
    split
    case isTrue => exact .wakeVisit rfl (hgo _ (.inl rfl) rfl)
    case isFalse hj =>
      have hpc := hgo (.exitReparent status (k + 1)) (.inr (not_lt.mp hj)) rfl
      exact .turn rfl (.inr ⟨_, hpc, rfl⟩) ⟨rfl, rfl, rfl, rfl⟩
  | exitWakeParent status parent j =>
    cases hs
    split
    · refine .wakeVisit rfl (.of_wake (fun status' k' j' h => ?_) rfl)
      cases hp.symm.trans h
    · exact hturn hp rfl rfl
  | exitZombie status =>
    cases hs
    exact .exit status hp hrun rfl rfl rfl rfl rfl rfl
  | waitScan addr k havekids =>
    cases hs
    split
    · split <;> exact hturn hp rfl rfl
    · exact hturn hp rfl rfl
  | waitChild addr k =>
    cases hs
    unfold waitVisit
    split
    case isTrue hk =>
      split
      · exact hturn hp rfl rfl
      · refine .reap addr k hp hk ?_ rfl rfl rfl rfl rfl rfl
        show (s.pc p).slot p = some k
        rw [hp]
        rfl
    case isFalse => exact hturn hp rfl rfl
  | waitEnd addr havekids =>
    cases hs
    unfold waitTest
    split <;> exact hturn hp rfl rfl
  | waitSleep addr =>
    cases hs
    refine .touch p _ rfl ⟨.inr ⟨?_, rfl⟩, rfl, rfl, rfl, rfl⟩ (.inl rfl)
      (.go hp rfl rfl rfl) ⟨rfl, rfl, rfl, rfl⟩
    rw [hrun]
    rfl
  | killScan pid k =>
    cases hs
    split
    · exact killVisit_act hp
    · exact hturn hp rfl rfl

/-- Every action, read as what it changes. -/
theorem step_act (hs : step init s l = some t) : Act init s t l := by
  unfold step at hs
  split at hs
  · cases hs
  cases l with
  | run p ok =>
    simp only [Option.ite_none_right_eq_some] at hs
    exact runPc_act hs.1 hs.2
  | fork p | wait p addr =>
    rcases of_ite_eq_some hs with ⟨⟨-, hp⟩, rfl⟩
    exact .turn rfl (.go hp rfl rfl rfl) ⟨rfl, rfl, rfl, rfl⟩
  | kill p pid =>
    rcases of_ite_eq_some hs with ⟨⟨-, hp⟩, rfl⟩
    exact .turn rfl (.kill hp rfl rfl (.inr rfl)) ⟨rfl, rfl, rfl, rfl⟩
  | exit p status =>
    rcases of_ite_eq_some hs with ⟨⟨-, hp⟩, rfl⟩
    split
    · exact .turn rfl (.inl rfl) ⟨rfl, rfl, rfl, rfl⟩
    · exact .turn rfl (.go hp rfl rfl rfl) ⟨rfl, rfl, rfl, rfl⟩
  | setkilled p =>
    rcases of_ite_eq_some hs with ⟨⟨hst, -⟩, rfl⟩
    refine .touch p _ rfl ⟨.inl rfl, rfl, rfl, rfl, rfl⟩ (.inr (.inl ?_)) (.inl rfl)
      ⟨rfl, rfl, rfl, rfl⟩
    rw [hst]
    rfl
  | schedule p =>
    rcases of_ite_eq_some hs with ⟨hst, rfl⟩
    exact .touch p _ rfl ⟨.inr ⟨by rw [hst]; rfl, rfl⟩, rfl, rfl, rfl, rfl⟩ (.inl rfl) (.inl rfl)
      ⟨rfl, rfl, rfl, rfl⟩
  | yield p | wakeOther p ch =>
    rcases of_ite_eq_some hs with ⟨⟨hst, -⟩, rfl⟩
    exact .touch p _ rfl ⟨.inr ⟨by rw [hst]; rfl, rfl⟩, rfl, rfl, rfl, rfl⟩ (.inl rfl) (.inl rfl)
      ⟨rfl, rfl, rfl, rfl⟩
  | sleep p ch =>
    rcases of_ite_eq_some hs with ⟨⟨hst, hp⟩, rfl⟩
    exact .touch p _ rfl ⟨.inr ⟨by rw [hst]; rfl, rfl⟩, rfl, rfl, rfl, rfl⟩ (.inl rfl)
      (.go hp rfl rfl rfl) ⟨rfl, rfl, rfl, rfl⟩

end

end Xv6.Process
