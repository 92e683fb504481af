import Xv6.Sched.Inv

/-!
# Xv6.Sched.Act — what a thread does

`Act` lists what one step of the thread of a process can be: it goes on, with at most one process
lock more or less in hand and one slot written; it starts a process or frees one; or it calls
`sched`. `runPc_act` reads the code so, and the invariants are proved by cases of `Act`.
-/

namespace Xv6.Sched

open Lib Function

variable {P : Protocol} {C : Type} {n : Nat}

/-! ## Sleepers and wakers -/

/-- The thread has `lk` in hand. -/
def Pc.hand : Pc n → Option Unit
  | .condTest | .condRel | .makeSet _ | .sleepAcq _ .cond | .sleepRel _ .cond | .wake _ _ .cond
  | .wakeHold _ _ .cond => some ()
  | _ => none

/-- On the way to sleep on the condition, `lk` still held. -/
def Pc.tested : Pc n → Option Lk
  | .sleepAcq .cond lk | .sleepRel .cond lk => some lk
  | _ => none

def Pc.setting : Pc n → Bool
  | .sleepSet .cond _ => true
  | _ => false

/-- Nothing of the above. -/
def Pc.Plain (pc : Pc n) : Prop :=
  pc.hand = none ∧ pc.tested = none ∧ pc.setting = false

def Proc.asleep (q : Proc n) : Prop := q.state = .sleeping ∧ q.chan = some .cond

/-- The places at which a step may have to do with the condition. -/
def Pc.special : Pc n → Bool
  | .sleepAcq .. | .sleepRel .. | .sleepSet .. | .sleepReacq .cond | .wake .. | .wakeHold ..
  | .condAcq | .condTest | .condRel | .makeAcq _ | .makeSet _ => true
  | _ => false

theorem Pc.plain_of_not_special {a : Pc n} (h : a.special = false) : a.Plain := by
  cases a <;> first | exact ⟨rfl, rfl, rfl⟩ | cases h

theorem interruptible_plain {pc : Pc n} (h : pc.interruptible = true) : pc.Plain := by
  cases pc <;> simp_all [Pc.interruptible, Pc.Plain, Pc.hand, Pc.tested, Pc.setting]

/-! ## Steps of a thread -/

/-- A step to `pc` that writes `x` to slot `k` and has nothing to do with the condition. -/
structure Aside (s t : St P C n) (k : Fin n) (x : Proc n) (pc : Pc n) : Prop where
  plain : pc.Plain
  lk : t.lk = s.lk
  data : t.data = s.data
  asleep : x.asleep → (s.proc k).asleep

/-- What the thread of `p` does on CPU `c` at `a`. -/
inductive Act [DecidableEq C] (s t : St P C n) (c : C) (p : Fin n) (a : Pc n) : Prop where
  | go (pc : Pc n) (k : Fin n) (x : Proc n) (hpc : t.pc = update s.pc p pc)
      (hproc : t.proc = update s.proc k x) (hrest : t.cpu = s.cpu ∧ t.panicked = s.panicked)
      (hhand : Handle c (a.locked p) (pc.locked p) s.plock t.plock)
      (hslot : k = p ∧ Active x.state pc ∨ Active (s.proc p).state pc ∧
        (x.state = (s.proc k).state ∨ (s.proc k).state = .sleeping ∧ x.state = .runnable ∧
          a.locked p = some k ∧ (s.proc p).state = .running ∧ pc.target = none))
      (hnest : pc.Nested) (htgt : pc.target = a.target ∨ pc.target = none)
      (hcond : a.special = true ∨ Aside s t k x pc)
  | alloc (k : Fin n) (ha : a = .forkHold k) (hrun : (s.proc p).state = .running)
      (hk : (s.proc k).state = .unused) (ht : t = forkHold s p k true)
  | reap (k : Fin n) (ha : a = .waitHold k) (hrun : (s.proc p).state = .running)
      (hk : (s.proc k).state = .zombie) (ht : t = waitHold s p k true)
  | start (np : Fin n) (ha : a = .forkRun np) (hrun : (s.proc p).state = .running)
      (ht : t = (release s p np .user).modify np fun q => { q with state := .runnable })
  | sched (pc : Pc n) (ht : t = sched s c p pc) (hk : a.locked p = some p)
      (hst : (s.proc p).state ≠ .running) (hpark : Parked (s.proc p).state pc)
      (hnest : pc.Nested) (htgt : pc.target = a.target) (hplain : a.special = false ∧ pc.Plain)

section
variable [DecidableEq C] {init : Fin n} {s t : St P C n} {c : C} {p k : Fin n} {a pc : Pc n}

/-- No slot is written. -/
theorem Act.turn (hpc : t.pc = update s.pc p pc) (hproc : t.proc = s.proc)
    (hrest : t.cpu = s.cpu ∧ t.panicked = s.panicked)
    (hhand : Handle c (a.locked p) (pc.locked p) s.plock t.plock)
    (hact : Active (s.proc p).state pc) (hnest : pc.Nested)
    (htgt : pc.target = a.target ∨ pc.target = none)
    (hcond : a.special = true ∨ pc.Plain ∧ t.lk = s.lk ∧ t.data = s.data) : Act s t c p a :=
  .go pc p (s.proc p) hpc (hproc.trans (update_eq_self p s.proc).symm) hrest hhand
    (.inl ⟨rfl, hact⟩) hnest htgt (hcond.imp id fun h => ⟨h.1, h.2.1, h.2.2, id⟩)

theorem acquire_act (hr : acquire s c p k pc = some t) (hempty : a.locked p = none)
    (hout : pc.locked p = some k) (hact : Active (s.proc p).state pc) (hnest : pc.Nested)
    (htgt : pc.target = a.target ∨ pc.target = none) (hcond : a.special = true ∨ pc.Plain) :
    Act s t c p a := by
  rcases of_ite_eq_some hr with ⟨hfree, rfl⟩
  exact .turn rfl rfl ⟨rfl, rfl⟩ (.take k hfree hempty hout rfl) hact hnest htgt
    (hcond.imp id fun h => ⟨h, rfl, rfl⟩)

theorem release_act (hk : a.locked p = some k) (hout : pc.locked p = none)
    (hact : Active (s.proc p).state pc) (hnest : pc.Nested)
    (htgt : pc.target = a.target ∨ pc.target = none) (hplain : pc.Plain) :
    Act s (release s p k pc) c p a :=
  .turn rfl rfl ⟨rfl, rfl⟩ (.put k hk hout rfl) hact hnest htgt (.inr ⟨hplain, rfl, rfl⟩)

theorem acquireWait_act (hr : acquireWait s c p pc = some t) (hlock : pc.locked p = a.locked p)
    (hact : Active (s.proc p).state pc) (hnest : pc.Nested) (htgt : pc.target = none)
    (hplain : pc.Plain) : Act s t c p a := by
  rcases of_ite_eq_some hr with ⟨-, rfl⟩
  exact .turn rfl rfl ⟨rfl, rfl⟩ (.keep hlock rfl) hact hnest (.inr htgt) (.inr ⟨hplain, rfl, rfl⟩)

theorem acquireLk_act (hr : acquireLk s c p pc = some t) (hlock : pc.locked p = a.locked p)
    (hact : Active (s.proc p).state pc) (hnest : pc.Nested) (htgt : pc.target = none)
    (hcond : a.special = true) : Act s t c p a := by
  rcases of_ite_eq_some hr with ⟨-, rfl⟩
  exact .turn rfl rfl ⟨rfl, rfl⟩ (.keep hlock rfl) hact hnest (.inr htgt) (.inl hcond)

variable {ok : Bool}

section
variable (hrun : (s.proc p).state = .running)
include hrun

theorem forkHold_act : Act s (forkHold s p k ok) c p (.forkHold k) := by
  by_cases hk : (s.proc k).state = .unused
  · cases ok with
    | true => exact .alloc k rfl hrun hk rfl
    | false =>
      unfold forkHold
      rw [if_pos hk]
      exact .go .user k _ rfl rfl ⟨rfl, rfl⟩ (.put k rfl rfl rfl) (.inr ⟨hrun, .inl hk.symm⟩)
        trivial (.inr rfl) (.inr ⟨⟨rfl, rfl, rfl⟩, rfl, rfl, fun hx => nomatch hx.1⟩)
  · unfold forkHold
    rw [if_neg hk]
    exact release_act rfl rfl hrun trivial (.inr rfl) ⟨rfl, rfl, rfl⟩

theorem waitHold_act : Act s (waitHold s p k ok) c p (.waitHold k) := by
  by_cases hk : (s.proc k).state = .zombie
  · cases ok with
    | true => exact .reap k rfl hrun hk rfl
    | false =>
      unfold waitHold
      rw [if_pos hk]
      exact .turn rfl rfl ⟨rfl, rfl⟩ (.put k rfl rfl rfl) hrun trivial (.inr rfl)
        (.inr ⟨⟨rfl, rfl, rfl⟩, rfl, rfl⟩)
  · unfold waitHold
    rw [if_neg hk]
    exact release_act rfl rfl hrun trivial (.inr rfl) ⟨rfl, rfl, rfl⟩

theorem exitReparent_act {k : Nat} :
    Act s (exitReparent init s p k) c p (.exitReparent k) := by
  unfold exitReparent
  split
  case isTrue hk =>
    split
    · exact .go (.wake (some (.proc init)) 0 (.reparent k)) ⟨k, hk⟩ _ rfl rfl ⟨rfl, rfl⟩
        (.keep rfl rfl) (.inr ⟨hrun, .inl rfl⟩) trivial (.inr rfl)
        (.inr ⟨⟨rfl, rfl, rfl⟩, rfl, rfl, id⟩)
    · exact .turn rfl rfl ⟨rfl, rfl⟩ (.keep rfl rfl) hrun trivial
        (.inr rfl) (.inr ⟨⟨rfl, rfl, rfl⟩, rfl, rfl⟩)
  case isFalse =>
    exact .turn rfl rfl ⟨rfl, rfl⟩
      (.keep rfl rfl) hrun trivial (.inr rfl) (.inr ⟨⟨rfl, rfl, rfl⟩, rfl, rfl⟩)

end

/-- What a thread does, at each of its places. -/
theorem runPc_act (hact : Active (s.proc p).state a) (hnest : a.Nested)
    (hr : runPc init s c p ok a = some t) : Act s t c p a := by
  -- the places between which the thread goes without a lock and without a write
  have hgo : ∀ {a} (pc : Pc n), Active (s.proc p).state pc → a.locked p = none →
      pc.locked p = none → pc.Nested → pc.target = none → a.special = true ∨ pc.Plain →
      Act s (s.goto p pc) c p a :=
    fun pc hact ha hpc hnest htgt hcond => .turn rfl rfl ⟨rfl, rfl⟩ (.keep (hpc.trans ha.symm) rfl)
      hact hnest (.inr htgt) (hcond.imp id fun h => ⟨h, rfl, rfl⟩)
  cases a with
  | dead | exitBack => cases hact
  | user => cases hr
  | forkret =>
    cases hr
    exact release_act rfl rfl hact trivial (.inr rfl) ⟨rfl, rfl, rfl⟩
  | yieldAcq pc => exact acquire_act hr rfl rfl hact hnest (.inl rfl) (.inr ⟨rfl, rfl, rfl⟩)
  | yieldSet pc =>
    cases hr
    exact .go (.yieldSched pc) p _ rfl rfl ⟨rfl, rfl⟩ (.keep rfl rfl) (.inl ⟨rfl, rfl⟩) hnest
      (.inl rfl) (.inr ⟨⟨rfl, rfl, rfl⟩, rfl, rfl, fun hx => nomatch hx.1⟩)
  | yieldSched pc =>
    cases hr
    have hst : (s.proc p).state = .runnable := hact
    exact .sched (.yieldBack pc) rfl rfl (by rw [hst]; decide)
      (by rw [hst]; exact .inr (.inl ⟨pc, rfl⟩)) hnest rfl ⟨rfl, rfl, rfl, rfl⟩
  | yieldBack pc =>
    cases hr
    have hst : (s.proc p).state = .running := hact
    rcases interruptible_spec hnest p with ⟨hrun, hout, hnest'⟩
    exact release_act rfl hout (by rw [hst]; exact hrun) hnest' (.inl rfl)
      (interruptible_plain hnest)
  | sleepAcq chan lk => exact acquire_act hr rfl rfl hact trivial (.inr rfl) (.inl rfl)
  | sleepRel chan lk =>
    cases hr
    cases lk <;> exact .turn rfl rfl ⟨rfl, rfl⟩ (.keep rfl rfl) hact
      trivial (.inr rfl) (.inl rfl)
  | sleepSet chan lk =>
    cases hr
    exact .go (.sleepSched lk) p _ rfl rfl ⟨rfl, rfl⟩ (.keep rfl rfl) (.inl ⟨rfl, rfl⟩) trivial
      (.inr rfl) (.inl rfl)
  | sleepSched lk =>
    cases hr
    have hst : (s.proc p).state = .sleeping := hact
    exact .sched (.sleepBack lk) rfl rfl (by rw [hst]; decide) (by rw [hst]; exact ⟨lk, rfl⟩)
      trivial rfl ⟨rfl, rfl, rfl, rfl⟩
  | sleepBack lk =>
    cases hr
    exact .go (.sleepReacq lk) p _ rfl rfl ⟨rfl, rfl⟩ (.put p rfl rfl rfl) (.inl ⟨rfl, hact⟩)
      trivial (.inr rfl) (.inr ⟨⟨rfl, rfl, rfl⟩, rfl, rfl, fun hx => nomatch hx.2⟩)
  | sleepReacq lk =>
    cases lk with
    | wait => exact acquireWait_act hr rfl hact trivial rfl ⟨rfl, rfl, rfl⟩
    | cond => exact acquireLk_act hr rfl hact trivial rfl rfl
    | other =>
      cases hr
      exact hgo .user hact rfl rfl trivial rfl (.inr ⟨rfl, rfl, rfl⟩)
  | wake chan k ret =>
    simp only [runPc] at hr
    split at hr
    · split at hr
      · cases hr
        exact hgo (.wake chan (k + 1) ret) hact rfl rfl trivial rfl (.inl rfl)
      · exact acquire_act hr rfl rfl hact trivial (.inr rfl) (.inl rfl)
    · cases hr
      cases ret <;> exact hgo _ hact rfl rfl trivial rfl (.inl rfl)
  | wakeHold chan k ret =>
    cases hr
    refine .go (.wake chan (k + 1) ret) k _ rfl rfl ⟨rfl, rfl⟩ (.put k rfl rfl rfl)
      (.inr ⟨hact, ?_⟩) trivial (.inr rfl) (.inl rfl)
    exact (Proc.woken_state chan (s.proc k)).imp id fun h => ⟨h.1, h.2, rfl, hact, rfl⟩
  | killScan pid k | forkScan k =>
    simp only [runPc] at hr
    split at hr
    · exact acquire_act hr rfl rfl hact trivial (.inr rfl) (.inr ⟨rfl, rfl, rfl⟩)
    · cases hr
      exact hgo .user hact rfl rfl trivial rfl (.inr ⟨rfl, rfl, rfl⟩)
  | killHold pid k =>
    simp only [runPc] at hr
    split at hr
    · cases hr
      have hk := Proc.kill_state (s.proc k)
      refine .go .user k _ rfl rfl ⟨rfl, rfl⟩ (.put k rfl rfl rfl) (.inr ⟨hact, ?_⟩) trivial
        (.inr rfl) (.inr ⟨⟨rfl, rfl, rfl⟩, rfl, rfl, ?_⟩)
      · exact hk.imp id fun h => ⟨h.1, h.2, rfl, hact, rfl⟩
      · rintro ⟨hst, hchan⟩
        rcases hk with heq | ⟨-, hw⟩
        · exact ⟨heq.symm.trans hst, hchan⟩
        · cases hw.symm.trans hst
    · cases hr
      exact release_act rfl rfl hact trivial (.inr rfl) ⟨rfl, rfl, rfl⟩
  | forkHold k =>
    cases hr
    exact forkHold_act hact
  | forkParent np =>
    rcases of_ite_eq_some hr with ⟨-, rfl⟩
    exact .go (.forkAcq np) np _ rfl rfl ⟨rfl, rfl⟩ (.keep rfl rfl) (.inr ⟨hact, .inl rfl⟩) trivial
      (.inl rfl) (.inr ⟨⟨rfl, rfl, rfl⟩, rfl, rfl, id⟩)
  | forkAcq np => exact acquire_act hr rfl rfl hact trivial (.inl rfl) (.inr ⟨rfl, rfl, rfl⟩)
  | forkRun np =>
    cases hr
    exact .start np rfl hact rfl
  | exitAcq | waitAcq => exact acquireWait_act hr rfl hact trivial rfl ⟨rfl, rfl, rfl⟩
  | exitReparent k =>
    cases hr
    exact exitReparent_act hact
  | exitOwn => exact acquire_act hr rfl rfl hact trivial (.inr rfl) (.inr ⟨rfl, rfl, rfl⟩)
  | exitZombie =>
    cases hr
    exact .go .exitSched p _ rfl rfl ⟨rfl, rfl⟩ (.keep rfl rfl) (.inl ⟨rfl, rfl⟩) trivial
      (.inr rfl) (.inr ⟨⟨rfl, rfl, rfl⟩, rfl, rfl, fun hx => nomatch hx.1⟩)
  | exitSched =>
    cases hr
    have hst : (s.proc p).state = .zombie := hact
    exact .sched .exitBack rfl rfl (by rw [hst]; decide) (by rw [hst]; rfl) trivial rfl
      ⟨rfl, rfl, rfl, rfl⟩
  | waitScan k havekids =>
    simp only [runPc] at hr
    split at hr
    · split at hr
      · exact acquire_act hr rfl rfl hact trivial (.inr rfl) (.inr ⟨rfl, rfl, rfl⟩)
      · cases hr
        exact hgo (.waitScan (k + 1) havekids) hact rfl rfl trivial rfl (.inr ⟨rfl, rfl, rfl⟩)
    · cases hr
      exact hgo (.waitEnd havekids) hact rfl rfl trivial rfl (.inr ⟨rfl, rfl, rfl⟩)
  | waitHold k =>
    cases hr
    exact waitHold_act hact
  | waitEnd havekids =>
    simp only [runPc] at hr
    split at hr
    · split at hr
      · cases hr
        exact .turn rfl rfl ⟨rfl, rfl⟩ (.keep rfl rfl) hact trivial (.inr rfl)
          (.inr ⟨⟨rfl, rfl, rfl⟩, rfl, rfl⟩)
      · cases hr
        exact hgo (.sleepAcq (.proc p) .wait) hact rfl rfl trivial rfl (.inr ⟨rfl, rfl, rfl⟩)
    · cases hr
  | condAcq | makeAcq _ => exact acquireLk_act hr rfl hact trivial rfl rfl
  | condTest =>
    simp only [runPc] at hr
    split at hr
    · cases hr
      exact .turn rfl rfl ⟨rfl, rfl⟩ (.keep rfl rfl) hact trivial (.inr rfl)
        (.inl rfl)
    · cases hr
      exact hgo (.sleepAcq .cond .cond) hact rfl rfl trivial rfl (.inl rfl)
  | condRel =>
    cases hr
    exact .turn rfl rfl ⟨rfl, rfl⟩ (.keep rfl rfl) hact trivial (.inr rfl) (.inl rfl)
  | makeSet a =>
    cases hr
    exact .turn rfl rfl ⟨rfl, rfl⟩ (.keep rfl rfl) hact trivial
      (.inr rfl) (.inl rfl)

end

/-! ## Steps of the system -/

/-- The CPU on which kernel code of a process begins something. -/
def Lbl.entry : Lbl C n → Option C
  | .call c _ | .timer c => some c
  | .cpu .. | .intr .. => none

/-- The thread of `p` leaves its place for `pc`, through a call or the timer. -/
structure Enters (s : St P C n) (p : Fin n) (pc : Pc n) : Prop where
  here : (s.pc p).interruptible = true
  active : Active .running pc
  unlocked : pc.locked p = none
  nested : pc.Nested
  target : pc.target = (s.pc p).target ∨ pc.target = none
  plain : pc.Plain

/-- What a step can be. -/
inductive Took [DecidableEq C] (init : Fin n) (s : St P C n) : Lbl C n → St P C n → Prop where
  | cpu {c : C} {ok : Bool} {t : St P C n} (hr : runCpu init s c ok (s.cpu c).thread = some t) :
      Took init s (.cpu c ok) t
  | enter {l : Lbl C n} {c : C} {p : Fin n} {pc : Pc n} (hl : l.entry = some c)
      (hth : (s.cpu c).thread = .run p) (hpc : Enters s p pc) : Took init s l (s.goto p pc)
  | panic {l : Lbl C n} : Took init s l { s with panicked := some .initExiting }
  | intr {k : Fin n} {ch : Nat} (hfree : s.plock k = none) :
      Took init s (.intr k ch) (s.modify k (Proc.woken (some (.other ch))))

theorem startCall_took [DecidableEq C] {init p : Fin n} {s : St P C n} {c : C} {k : Call n}
    (hth : (s.cpu c).thread = .run p) (hpc : s.pc p = .user) :
    Took init s (.call c k) (startCall init s p k) := by
  have hgo : ∀ pc : Pc n, Active .running pc → pc.locked p = none → pc.Nested →
      pc.target = none → pc.Plain → Took init s (.call c k) (s.goto p pc) :=
    fun pc hact hout hnest htgt hplain =>
      .enter rfl hth ⟨by rw [hpc]; rfl, hact, hout, hnest, .inr htgt, hplain⟩
  cases k with
  | exit =>
    simp only [startCall]
    split
    · exact .panic
    · exact hgo .exitAcq rfl rfl trivial rfl ⟨rfl, rfl, rfl⟩
  | _ => exact hgo _ rfl rfl trivial rfl ⟨rfl, rfl, rfl⟩

/-- What a step of the system is. -/
theorem step_took [DecidableEq C] {init : Fin n} {s t : St P C n} {l : Lbl C n}
    (hs : step init s l = some t) : Took init s l t := by
  unfold step at hs
  split at hs
  case isTrue => cases hs
  cases l with
  | cpu c ok => exact .cpu hs
  | call c k =>
    simp only at hs
    split at hs
    case h_1 p hth =>
      rcases of_ite_eq_some hs with ⟨hpc, rfl⟩
      exact startCall_took hth hpc
    case h_2 => cases hs
  | timer c =>
    simp only at hs
    split at hs
    case h_1 p hth =>
      rcases of_ite_eq_some hs with ⟨hint, rfl⟩
      exact .enter rfl hth ⟨hint, rfl, rfl, hint, .inl rfl, ⟨rfl, rfl, rfl⟩⟩
    case h_2 => cases hs
  | intr k ch =>
    rcases of_ite_eq_some hs with ⟨hfree, rfl⟩
    exact .intr hfree

end Xv6.Sched
