import Xv6.Process.Basic

/-!
# Xv6.Process.Family — parents, children and the holder of `wait_lock`

`Inv` is what holds of the process table in every reachable state: who holds `wait_lock`,
which slots a process runs in, that a `parent` field always names such a slot, and what the
holder of `wait_lock` has already established at its place (`Pc.knows`): which children an
exiting process has handed over, which children of a waiting one were seen alive.

The lost exit is excluded by `Inv.waiting`: a process asleep in `kwait` has no zombie child,
except `init` while some `reparent` is on its way to wake it, with `wait_lock` held.
-/

namespace Xv6.Process

open Lib Function

variable {n : Nat} {init : Fin n}

/-! ## Places -/

/-- The places at which `wait_lock` is held. -/
def Pc.holds : Pc n → Bool
  | .exitReparent .. | .exitWakeInit .. | .exitWakeParent .. | .exitZombie _
  | .waitScan .. | .waitChild .. | .waitEnd .. | .waitSleep _ => true
  | _ => false

/-- The places of `kexit`. -/
def Pc.exiting : Pc n → Bool
  | .exitAcquire _ | .exitReparent .. | .exitWakeInit .. | .exitWakeParent ..
  | .exitZombie _ => true
  | _ => false

/-- The slot a fork has allocated and not yet made runnable. -/
def Pc.target : Pc n → Option (Fin n)
  | .forkParent np | .forkRun np => some np
  | _ => none

/-- In `wakeup(initproc)`, before the visit of `init`'s slot. -/
def Pc.wakingInit (init : Fin n) : Pc n → Prop
  | .exitWakeInit _ _ j => j ≤ init
  | _ => False

/-- Asleep inside `kwait`. -/
def Waiting (s : St n) (i : Fin n) : Prop :=
  (s.proc i).state = .sleeping ∧ ∃ addr, s.pc i = .waitSlept addr

/-- What the holder `p` of `wait_lock` has established. -/
def Pc.knows (s : St n) (p : Fin n) : Pc n → Prop
  | .exitReparent _ k => ∀ c : Fin n, c < k → (s.proc c).parent ≠ some p
  | .exitWakeInit _ k _ => ∀ c : Fin n, c ≤ k → (s.proc c).parent ≠ some p
  | .exitWakeParent _ parent j =>
    (∀ c, (s.proc c).parent ≠ some p) ∧ (s.proc p).parent = parent ∧
      ∀ q : Fin n, parent = some q → q < j → ¬ Waiting s q
  | .exitZombie _ =>
    (∀ c, (s.proc c).parent ≠ some p) ∧ ∀ q, (s.proc p).parent = some q → ¬ Waiting s q
  | .waitScan _ k _ =>
    ∀ c : Fin n, c < k → (s.proc c).parent = some p → (s.proc c).state ≠ .zombie
  | .waitChild _ k =>
    (s.proc k).parent = some p ∧
      ∀ c : Fin n, c < k.val → (s.proc c).parent = some p → (s.proc c).state ≠ .zombie
  | .waitEnd .. | .waitSleep _ =>
    ∀ c : Fin n, (s.proc c).parent = some p → (s.proc c).state ≠ .zombie
  | _ => True

structure Inv (init : Fin n) (s : St n) : Prop where
  lock : ∀ q, s.lock = some q ↔ (s.pc q).holds = true
  live : ∀ q, (s.proc q).state.live = true ↔ s.pc q ≠ .dead
  init_pc : s.pc init ≠ .dead
  exiting : ∀ q, (s.pc q).exiting = true → q ≠ init
  parent_live : ∀ c q, (s.proc c).parent = some q → s.pc q ≠ .dead
  unused : ∀ c, (s.proc c).state = .unused → (s.proc c).parent = none
  target : ∀ q np, (s.pc q).target = some np → (s.proc np).state = .used
  target_inj : ∀ q q' np, (s.pc q).target = some np → (s.pc q').target = some np → q = q'
  chan : ∀ i, Waiting s i → (s.proc i).chan = some (.proc i)
  knows : ∀ q, (s.pc q).knows s q
  waiting : ∀ i c, Waiting s i → (s.proc c).parent = some i → (s.proc c).state = .zombie →
    i = init ∧ ∃ q, (s.pc q).wakingInit init

theorem boot_inv (init : Fin n) : Inv init (boot init) := by
  have hpc : ∀ q, (boot init).pc q = .user ∨ (boot init).pc q = .dead := by
    intro q
    simp only [boot]
    split <;> simp
  have hparent : ∀ c, ((boot init).proc c).parent = none := by
    intro c
    simp only [boot]
    split <;> rfl
  have hwait : ∀ i, ¬ Waiting (boot init) i := by
    rintro i ⟨-, addr, hi⟩
    rcases hpc i with h | h <;> simp [h] at hi
  refine ⟨?_, ?_, by simp [boot], ?_, by simp [hparent], fun c _ => hparent c, ?_, ?_,
    fun i hi => absurd hi (hwait i), ?_, fun i c hi => absurd hi (hwait i)⟩
  · intro q
    have hlock : (boot init).lock = none := rfl
    rcases hpc q with h | h <;> simp [hlock, h, Pc.holds]
  · intro q
    by_cases hq : q = init <;> simp [boot, hq, ProcState.live]
  · intro q
    rcases hpc q with h | h <;> simp [h, Pc.exiting]
  · intro q np
    rcases hpc q with h | h <;> simp [h, Pc.target]
  · intro q q' np
    rcases hpc q with h | h <;> simp [h, Pc.target]
  · intro q
    rcases hpc q with h | h <;> rw [h] <;> exact trivial

/-! ## What follows from the invariant -/

variable {s : St n} {pc : Pc n} {q : Fin n}

theorem knows_of_not_holds (h : pc.holds = false) :
    pc.knows s q := by
  cases pc <;> first | exact trivial | cases h

theorem holds_of_wakingInit (h : pc.wakingInit init) : pc.holds = true := by
  cases pc <;> first | rfl | exact absurd h id

variable {p : Fin n}

section
variable (h : Inv init s)
include h

/-- Only the holder of `wait_lock` knows anything. -/
theorem Inv.not_holds (hp : s.lock = some p) (hqp : q ≠ p) :
    (s.pc q).holds = false := by
  rw [Bool.eq_false_iff]
  intro hq
  rw [(h.lock q).mpr hq] at hp
  exact hqp (Option.some.inj hp)

theorem Inv.held (hp : s.pc p = pc) (hholds : pc.holds = true) : s.lock = some p :=
  (h.lock p).mpr (hp ▸ hholds)

theorem Inv.knows_at (hp : s.pc p = pc) : pc.knows s p :=
  hp ▸ h.knows p

theorem Inv.free (hfree : s.lock = none) (q : Fin n) :
    (s.pc q).holds = false := by
  rw [Bool.eq_false_iff]
  intro hq
  rw [(h.lock q).mpr hq] at hfree
  cases hfree

variable {i c : Fin n} (hi : Waiting s i) (hc : (s.proc c).parent = some i)
include hi hc

/-- While `p` holds `wait_lock` and is not waking `init`, no sleeper in `kwait` has a zombie
child. -/
theorem Inv.no_lost (hp : s.lock = some p) (hwake : ¬ (s.pc p).wakingInit init) :
    (s.proc c).state ≠ .zombie := by
  intro hz
  rcases h.waiting i c hi hc hz with ⟨-, q, hq⟩
  have hlock := (h.lock q).mpr (holds_of_wakingInit hq)
  rw [hp] at hlock
  obtain rfl := Option.some.inj hlock
  exact hwake hq

end

variable {s' : St n}

theorem knows_mono (h : pc.knows s q) (hparent : ∀ c, (s'.proc c).parent = (s.proc c).parent)
    (hzombie : ∀ c, (s'.proc c).state = .zombie → (s.proc c).state = .zombie)
    (hwait : ∀ i, Waiting s' i → Waiting s i) : pc.knows s' q := by
  cases pc with
  | exitReparent status k => exact fun c hc => hparent c ▸ h c hc
  | exitWakeInit status k j => exact fun c hc => hparent c ▸ h c hc
  | exitWakeParent status parent j =>
    refine ⟨fun c => hparent c ▸ h.1 c, (hparent q).trans h.2.1, fun i hi hj hw => ?_⟩
    exact h.2.2 i hi hj (hwait i hw)
  | exitZombie status =>
    refine ⟨fun c => hparent c ▸ h.1 c, fun i hi hw => ?_⟩
    exact h.2 i (hparent q ▸ hi) (hwait i hw)
  | waitScan addr k havekids => exact fun c hc hp hz => h c hc (hparent c ▸ hp) (hzombie c hz)
  | waitChild addr k =>
    exact ⟨(hparent k).trans h.1, fun c hc hp hz => h.2 c hc (hparent c ▸ hp) (hzombie c hz)⟩
  | waitEnd addr havekids => exact fun c hp hz => h c (hparent c ▸ hp) (hzombie c hz)
  | waitSleep addr => exact fun c hp hz => h c (hparent c ▸ hp) (hzombie c hz)
  | _ => exact trivial

/-! ## What one action changes -/

/-- The places that are neither in the middle of a fork nor `dead`. -/
def Pc.plain : Pc n → Bool
  | .forkParent _ | .forkRun _ | .dead => false
  | _ => true

theorem Pc.target_of_plain (h : pc.plain = true) : pc.target = none := by
  cases pc <;> first | rfl | cases h

theorem Pc.ne_dead_of_plain (h : pc.plain = true) : pc ≠ .dead := by
  rintro rfl
  cases h

/-- Asleep in `kwait`, as a test on the place. -/
def Pc.inWaitSleep : Pc n → Bool
  | .waitSlept _ => true
  | _ => false

/-- `wait_lock` as `p` moves from `k` to `pc`: it stays as it is, is taken or is put down. -/
def LockMoves (s t : St n) (p : Fin n) (k pc : Pc n) : Prop :=
  t.lock = s.lock ∧ pc.holds = k.holds ∨ s.lock = none ∧ t.lock = some p ∧ pc.holds = true ∨
    s.lock = some p ∧ t.lock = none ∧ pc.holds = false

/-- `p` moves to `pc`, and slot `i` becomes `x`. -/
structure Change (init : Fin n) (s t : St n) (p i : Fin n) (pc : Pc n) (x : Proc n) : Prop where
  moves : t.pc = update s.pc p pc
  writes : t.proc = update s.proc i x
  lock : LockMoves s t p (s.pc p) pc
  live : x.state.live = (s.proc i).state.live ∧ pc ≠ .dead ∧ s.pc p ≠ .dead ∨
    i = p ∧ (x.state.live = true ↔ pc ≠ .dead)
  exiting : pc.exiting = true → p ≠ init
  dead : pc = .dead → p ≠ init ∧ ∀ c, (s.proc c).parent ≠ some p
  parent : ∀ q, x.parent = some q → (s.proc i).parent = some q ∨ s.pc q ≠ .dead ∧ pc ≠ .dead
  unused : x.state = .unused → x.parent = none
  used : ∀ q, (s.pc q).target = some i → x.state = .used
  target : ∀ np, pc.target = some np →
    (s.pc p).target = some np ∨ np = i ∧ x.state = .used ∧ (s.proc i).state ≠ .used

section Change

variable {s t : St n} {p i j q c np : Fin n} {k pc : Pc n} {x : Proc n}

section
variable (hc : Change init s t p i pc x)
include hc

theorem Change.here : t.pc p = pc := by
  rw [hc.moves, update_self]

theorem Change.there (hq : q ≠ p) : t.pc q = s.pc q := by
  rw [hc.moves, update_of_ne hq]

theorem Change.new : t.proc i = x := by
  rw [hc.writes, update_self]

theorem Change.old (hne : c ≠ i) : t.proc c = s.proc c := by
  rw [hc.writes, update_of_ne hne]

theorem Change.target_cases (hq : (t.pc q).target = some np) :
    (s.pc q).target = some np ∨ q = p ∧ np = i ∧ x.state = .used ∧ (s.proc i).state ≠ .used := by
  by_cases hqp : q = p
  · subst hqp
    rw [hc.here] at hq
    exact (hc.target np hq).imp id fun hnew => ⟨rfl, hnew⟩
  · rw [hc.there hqp] at hq
    exact .inl hq

end

/-- The fields about locks, places and parents. -/
theorem Inv.change (h : Inv init s) (hc : Change init s t p i pc x)
    (hchan : ∀ j, Waiting t j → (t.proc j).chan = some (.proc j)) (hknows : ∀ q, (t.pc q).knows t q)
    (hwaiting : ∀ j c, Waiting t j → (t.proc c).parent = some j → (t.proc c).state = .zombie →
      j = init ∧ ∃ q, (t.pc q).wakingInit init) : Inv init t := by
  refine ⟨fun q => ?_, fun q => ?_, ?_, fun q hq => ?_, fun c q hparent => ?_, fun c hunused => ?_,
    fun q np hq => ?_, fun q q' np hq hq' => ?_, hchan, hknows, hwaiting⟩
  · by_cases hq : q = p
    · subst hq
      rw [hc.here]
      rcases hc.lock with ⟨hl, hh⟩ | ⟨-, hl, hh⟩ | ⟨-, hl, hh⟩
      · rw [hl, hh]; exact h.lock q
      · simp [hl, hh]
      · simp [hl, hh]
    · rw [hc.there hq]
      rcases hc.lock with ⟨hl, -⟩ | ⟨hl, hl', -⟩ | ⟨hl, hl', -⟩
      · rw [hl]; exact h.lock q
      · simp [hl', Ne.symm hq, h.free hl q]
      · simp [hl', h.not_holds hl hq]
  · rcases hc.live with ⟨hlive, hto, hfrom⟩ | ⟨rfl, hlive⟩
    · have hsame : (t.proc q).state.live = (s.proc q).state.live := by
        by_cases hqi : q = i
        · rw [hqi, hc.new, hlive]
        · rw [hc.old hqi]
      rw [hsame, h.live q]
      by_cases hq : q = p
      · rw [hq, hc.here]
        exact iff_of_true hfrom hto
      · rw [hc.there hq]
    · by_cases hq : q = i
      · rw [hq, hc.new, hc.here]; exact hlive
      · rw [hc.old hq, hc.there hq]; exact h.live q
  · by_cases hp : init = p
    · rw [hp, hc.here]
      exact fun hd => (hc.dead hd).1 hp.symm
    · rw [hc.there hp]; exact h.init_pc
  · by_cases hqp : q = p
    · subst hqp
      rw [hc.here] at hq
      exact hc.exiting hq
    · rw [hc.there hqp] at hq
      exact h.exiting q hq
  · have hold : (s.proc c).parent = some q ∨ s.pc q ≠ .dead ∧ pc ≠ .dead := by
      by_cases hci : c = i
      · subst hci
        rw [hc.new] at hparent
        exact hc.parent q hparent
      · rw [hc.old hci] at hparent
        exact .inl hparent
    by_cases hqp : q = p
    · subst hqp
      rw [hc.here]
      exact hold.elim (fun hp hd => (hc.dead hd).2 c hp) And.right
    · rw [hc.there hqp]
      exact hold.elim (h.parent_live c q) And.left
  · by_cases hci : c = i
    · subst hci
      rw [hc.new] at hunused ⊢
      exact hc.unused hunused
    · rw [hc.old hci] at hunused ⊢
      exact h.unused c hunused
  · rcases hc.target_cases hq with hold | ⟨-, rfl, hused, -⟩
    · by_cases hnp : np = i
      · subst hnp
        rw [hc.new]
        exact hc.used q hold
      · rw [hc.old hnp]
        exact h.target q np hold
    · rw [hc.new]; exact hused
  · -- a slot just allocated was in use by no other fork
    rcases hc.target_cases hq with hold | ⟨rfl, rfl, -, hfresh⟩
    · rcases hc.target_cases hq' with hold' | ⟨rfl, rfl, -, hfresh⟩
      · exact h.target_inj q q' np hold hold'
      · exact absurd (h.target q _ hold) hfresh
    · rcases hc.target_cases hq' with hold' | ⟨rfl, -, -, -⟩
      · exact absurd (h.target q' _ hold') hfresh
      · rfl

section
variable (hc : Change init s t p i pc x) (hplace : pc.inWaitSleep = false ∨ pc = s.pc p)
  (hsleep : x.state = .sleeping → i = p ∧ pc.inWaitSleep = false ∨
    (s.proc i).state = .sleeping ∧ x.chan = (s.proc i).chan)
include hc hplace hsleep

/-- Nobody falls asleep in `kwait`. -/
theorem Change.waiting (hw : Waiting t j) :
    Waiting s j ∧ (t.proc j).chan = (s.proc j).chan := by
  rcases hw with ⟨hst, addr, hslept⟩
  have hpc : s.pc j = .waitSlept addr := by
    by_cases hjp : j = p
    · subst hjp
      rw [hc.here] at hslept
      rcases hplace with hno | hsame
      · rw [hslept] at hno
        cases hno
      · rw [← hsame, hslept]
    · rwa [hc.there hjp] at hslept
  by_cases hji : j = i
  · subst hji
    rw [hc.new] at hst ⊢
    rcases hsleep hst with ⟨rfl, hno⟩ | ⟨hst', hchan⟩
    · rw [← hc.here, hslept] at hno
      cases hno
    · exact ⟨⟨hst', addr, hpc⟩, hchan⟩
  · rw [hc.old hji] at hst ⊢
    exact ⟨⟨hst, addr, hpc⟩, rfl⟩

/-- An action with which nobody falls asleep in `kwait`. Holders of `wait_lock` other than `p`
know the same as before, and a zombie that comes to a sleeper is announced. -/
theorem Inv.act (h : Inv init s) (hknows : pc.knows t p)
    (hothers : s.lock = none ∨ s.lock = some p ∨
      x.parent = (s.proc i).parent ∧ (x.state = .zombie → (s.proc i).state = .zombie))
    (hlost : x.state = .zombie → ∀ j, x.parent = some j → Waiting s j →
      (s.proc i).parent = some j ∧ (s.proc i).state = .zombie ∨ j = init ∧ pc.wakingInit init)
    (hinit : (s.pc p).wakingInit init → pc.wakingInit init ∨ ¬ Waiting t init) : Inv init t := by
  have hwait : ∀ j, Waiting t j → Waiting s j ∧ (t.proc j).chan = (s.proc j).chan :=
    fun j => hc.waiting hplace hsleep
  refine h.change hc (fun j hj => ?_) (fun q => ?_) fun j c hj hparent hz => ?_
  · rw [(hwait j hj).2]
    exact h.chan j (hwait j hj).1
  · by_cases hq : q = p
    · subst hq
      rw [hc.here]
      exact hknows
    rw [hc.there hq]
    rcases hothers with hl | hl | ⟨hpar, hzom⟩
    · exact knows_of_not_holds (h.free hl q)
    · exact knows_of_not_holds (h.not_holds hl hq)
    refine knows_mono (h.knows q) (fun c => ?_) (fun c => ?_) fun j hj => (hwait j hj).1
    · by_cases hci : c = i
      · rw [hci, hc.new, hpar]
      · rw [hc.old hci]
    · by_cases hci : c = i
      · rw [hci, hc.new]; exact hzom
      · rw [hc.old hci]; exact id
  · have hold : (s.proc c).parent = some j ∧ (s.proc c).state = .zombie ∨
        j = init ∧ pc.wakingInit init := by
      by_cases hci : c = i
      · subst hci
        rw [hc.new] at hparent hz
        exact hlost hz j hparent (hwait j hj).1
      · rw [hc.old hci] at hparent hz
        exact .inl ⟨hparent, hz⟩
    rcases hold with ⟨hparent, hz⟩ | ⟨rfl, hw⟩
    · rcases h.waiting j c (hwait j hj).1 hparent hz with ⟨rfl, q, hq⟩
      refine ⟨rfl, ?_⟩
      by_cases hqp : q = p
      · -- the waker moves on: past `init` only once `init` is awake
        subst hqp
        rcases hinit hq with hw | hw
        · exact ⟨q, by rw [hc.here]; exact hw⟩
        · exact absurd hj hw
      · exact ⟨q, by rw [hc.there hqp]; exact hq⟩
    · exact ⟨rfl, p, by rw [hc.here]; exact hw⟩

end

/-! ## Actions that leave the family alone -/

theorem ProcState.live_eq {a b : ProcState} (h : b = a ∨ a.live = true ∧ b.live = true) :
    b.live = a.live := by
  rcases h with rfl | ⟨ha, hb⟩
  · rfl
  · rw [ha, hb]

/-- A state outside the live ones is not touched. -/
theorem ProcState.eq_iff {a b c : ProcState} (h : b = a ∨ a.live = true ∧ b.live = true)
    (hc : c.live = false) : b = c ↔ a = c := by
  rcases h with rfl | ⟨ha, hb⟩
  · rfl
  · constructor <;> rintro rfl <;> simp_all

/-- A slot whose process stays as it is, or stays alive. -/
theorem Inv.keeps (h : Inv init s) (hmoves : t.pc = update s.pc p pc)
    (hproc : t.proc = update s.proc i x) (hlock : LockMoves s t p (s.pc p) pc)
    (hparent : x.parent = (s.proc i).parent)
    (hstate : x.state = (s.proc i).state ∨ (s.proc i).state.live = true ∧ x.state.live = true)
    (hplain : pc.plain = true) (hfrom : s.pc p ≠ .dead) (hexit : pc.exiting = true → p ≠ init) :
    Change init s t p i pc x where
  moves := hmoves
  writes := hproc
  lock := hlock
  live := .inl ⟨ProcState.live_eq hstate, Pc.ne_dead_of_plain hplain, hfrom⟩
  exiting := hexit
  dead hd := absurd hd (Pc.ne_dead_of_plain hplain)
  parent q hq := .inl (hparent ▸ hq)
  unused hu := hparent.trans (h.unused i ((ProcState.eq_iff hstate rfl).mp hu))
  used q hq := (ProcState.eq_iff hstate rfl).mpr (h.target q i hq)
  target np hnp := by rw [Pc.target_of_plain hplain] at hnp; cases hnp

section
variable (h : Inv init s) (hp : s.pc p = k)
  (hplain : pc.plain = true ∧ k ≠ .dead ∧ pc.inWaitSleep = false)
  (hexit : pc.exiting = true → p ≠ init) (hknows : pc.knows s p)
  (hinit : k.wakingInit init → pc.wakingInit init ∨ ¬ Waiting s init)
include h hp hplain hexit hknows hinit

/-- The process at `p` moves on from `k`, and no slot changes. -/
theorem Inv.move (hproc : t.proc = s.proc) (hpc : t.pc = update s.pc p pc)
    (hlock : LockMoves s t p k pc) : Inv init t := by
  subst hp
  have hc := h.keeps hpc (hproc.trans (update_eq_self p s.proc).symm) hlock rfl (.inl rfl)
    hplain.1 hplain.2.1 hexit
  have hsleep := fun hst : (s.proc p).state = .sleeping =>
    (Or.inl ⟨rfl, hplain.2.2⟩ : p = p ∧ pc.inWaitSleep = false ∨
      (s.proc p).state = .sleeping ∧ (s.proc p).chan = (s.proc p).chan)
  have hwait : ∀ j, Waiting t j → Waiting s j :=
    fun j hj => (hc.waiting (.inl hplain.2.2) hsleep hj).1
  refine h.act hc (.inl hplain.2.2) hsleep ?_ (.inr (.inr ⟨rfl, id⟩))
    (fun hz j hj _ => .inl ⟨hj, hz⟩) fun hw => (hinit hw).imp id (mt (hwait init))
  exact knows_mono hknows (fun c => by rw [hproc]) (fun c => by rw [hproc]; exact id) hwait

/-- A move that keeps `wait_lock` as it is. -/
theorem Inv.goto (hholds : pc.holds = k.holds) : Inv init (s.goto p pc) :=
  h.move hp hplain hexit hknows hinit rfl rfl (.inl ⟨rfl, hholds⟩)

end

/-- A move within a call, from a place outside `wakeup(initproc)`. -/
def Pc.passes : Pc n → Pc n → Bool
  | .dead, _ | .exitWakeInit .., _ => false
  | k, pc => pc.plain && !pc.inWaitSleep && (!pc.exiting || k.exiting)

theorem Inv.turn (h : Inv init s) (hp : s.pc p = k) (hpass : k.passes pc = true)
    (hproc : t.proc = s.proc) (hpc : t.pc = update s.pc p pc)
    (hlock : LockMoves s t p k pc) (hknows : pc.knows s p) : Inv init t := by
  have hk : (k ≠ .dead ∧ ¬ k.wakingInit init) ∧ (pc.plain = true ∧ pc.inWaitSleep = false) ∧
      (pc.exiting = true → k.exiting = true) := by
    cases k <;> first
      | cases hpass
      | exact ⟨⟨nofun, id⟩, by simpa [Pc.passes, imp_iff_not_or, and_assoc] using hpass⟩
  obtain ⟨⟨hfrom, hwake⟩, ⟨hplain, hsleep⟩, hexit⟩ := hk
  exact h.move hp ⟨hplain, hfrom, hsleep⟩ (fun he => h.exiting p (hp ▸ hexit he)) hknows
    (fun hw => absurd hw hwake) hproc hpc hlock

/-- A turn that keeps `wait_lock` as it is. -/
theorem Inv.pass (h : Inv init s) (hp : s.pc p = k) (hpass : k.passes pc = true)
    (hholds : pc.holds = k.holds) (hknows : pc.knows s p) : Inv init (s.goto p pc) :=
  h.turn hp hpass rfl rfl (.inl ⟨rfl, hholds⟩) hknows

/-- A section under the lock of slot `i` in which nobody moves on. -/
theorem Inv.modify {f : Proc n → Proc n} (h : Inv init s)
    (hparent : (f (s.proc i)).parent = (s.proc i).parent)
    (hstate : (f (s.proc i)).state = (s.proc i).state ∨
      (s.proc i).state.live = true ∧ (f (s.proc i)).state.live = true)
    (hsleep : (f (s.proc i)).state = .sleeping →
      (s.proc i).state = .sleeping ∧ (f (s.proc i)).chan = (s.proc i).chan) :
    Inv init (s.modify i f) := by
  have hc : Change init s (s.modify i f) i i (s.pc i) (f (s.proc i)) :=
    { moves := (update_eq_self i s.pc).symm
      writes := rfl
      lock := .inl ⟨rfl, rfl⟩
      live := .inr ⟨rfl, by rw [ProcState.live_eq hstate]; exact h.live i⟩
      exiting := h.exiting i
      dead := fun hd => ⟨fun e => h.init_pc (e ▸ hd), fun c hp => h.parent_live c i hp hd⟩
      parent := fun q hq => .inl (hparent ▸ hq)
      unused := fun hu => hparent.trans (h.unused i ((ProcState.eq_iff hstate rfl).mp hu))
      used := fun q hq => (ProcState.eq_iff hstate rfl).mpr (h.target q i hq)
      target := fun np hnp => .inl hnp }
  have hzombie := (ProcState.eq_iff hstate (c := .zombie) rfl).mp
  have hsleep' := fun hst => (Or.inr (hsleep hst) : i = i ∧ (s.pc i).inWaitSleep = false ∨ _)
  refine h.act hc (.inr rfl) hsleep' ?_ (.inr (.inr ⟨hparent, hzombie⟩))
    (fun hz j hj _ => .inl ⟨hparent ▸ hj, hzombie hz⟩) .inl
  refine knows_mono (h.knows i) (fun c => ?_) (fun c => ?_)
    fun j hj => (hc.waiting (.inr rfl) hsleep' hj).1
  · by_cases hci : c = i
    · rw [hci, hc.new, hparent]
    · rw [hc.old hci]
  · by_cases hci : c = i
    · rw [hci, hc.new]; exact hzombie
    · rw [hc.old hci]; exact id

/-- `p`, in the middle of nothing, does a section under the lock of slot `i` and moves on. -/
theorem Inv.modify_goto (h : Inv init s) (hp : s.pc p = k) (hproc : t.proc = update s.proc i x)
    (hpc : t.pc = update s.pc p pc) (hlock : t.lock = s.lock)
    (hparent : x.parent = (s.proc i).parent)
    (hstate : x.state = (s.proc i).state ∨ (s.proc i).state.live = true ∧ x.state.live = true)
    (hsleep : x.state = .sleeping → i = p ∨
      (s.proc i).state = .sleeping ∧ x.chan = (s.proc i).chan)
    (hplain : pc.plain = true ∧ k ≠ .dead ∧ pc.inWaitSleep = false)
    (hholds : pc.holds = false ∧ k.holds = false) (hexit : pc.exiting = false) :
    Inv init t := by
  subst hp
  have hc := h.keeps hpc hproc (.inl ⟨hlock, hholds.1.trans hholds.2.symm⟩) hparent hstate hplain.1
    hplain.2.1 (by simp [hexit])
  have hzombie := (ProcState.eq_iff hstate (c := .zombie) rfl).mp
  refine h.act hc (.inl hplain.2.2) (fun hst => (hsleep hst).imp (⟨·, hplain.2.2⟩) id)
    (knows_of_not_holds hholds.1) (.inr (.inr ⟨hparent, hzombie⟩))
    (fun hz j hj _ => .inl ⟨hparent ▸ hj, hzombie hz⟩) fun hw => ?_
  rw [holds_of_wakingInit hw] at hholds
  cases hholds.2

end Change

/-! ## `wakeup` -/

theorem Inv.wakeVisit (h : Inv init s) (me j : Fin n) (chan : Option (Chan n)) :
    Inv init (s.wakeVisit me j chan) := by
  unfold St.wakeVisit
  split
  · next hj =>
    refine h.modify rfl (Or.inr ⟨?_, rfl⟩) (fun hh => nomatch hh)
    rw [hj.2.1]
    rfl
  · exact h

theorem wakeVisit_pc (s : St n) (me j : Fin n) (chan : Option (Chan n)) :
    (s.wakeVisit me j chan).pc = s.pc := by
  unfold St.wakeVisit
  split <;> rfl

/-- After the visit of its own slot by `wakeup(p)`, `p` is not asleep in `kwait`. -/
theorem wakeVisit_awake (h : Inv init s) {me j : Fin n} (hme : (s.proc me).state = .running) :
    ¬ Waiting (s.wakeVisit me j (some (.proc j))) j := by
  rintro ⟨hst, addr, hslept⟩
  rw [wakeVisit_pc] at hslept
  unfold St.wakeVisit at hst
  split at hst
  · simp [St.modify] at hst
  · next hno =>
    refine hno ⟨?_, hst, h.chan j ⟨hst, addr, hslept⟩⟩
    rintro rfl
    rw [hme] at hst
    cases hst

/-! ## Actions that change the family -/

variable {k : Fin n} {status : BitVec 32} {addr : Bool} {j : Nat}

section Family

variable {s : St n} {p : Fin n}

/-- `reparent` hands the child `k` over to `init`. -/
theorem Inv.reparent (h : Inv init s) (hp : s.pc p = .exitReparent status k)
    (hk : (s.proc k).parent = some p) :
    Inv init ((s.modify k fun q => { q with parent := some init }).goto p
      (.exitWakeInit status k 0)) := by
  have hheld := h.held hp rfl
  have hne : p ≠ init := h.exiting p (by rw [hp]; rfl)
  refine h.act (s := s)
    { moves := rfl
      writes := rfl
      lock := .inl ⟨rfl, by rw [hp]; rfl⟩
      live := .inl ⟨rfl, nofun, by rw [hp]; exact nofun⟩
      exiting := fun _ => hne
      dead := nofun
      parent := fun q hq => .inr ⟨Option.some.inj hq ▸ h.init_pc, nofun⟩
      -- the child is in use, for its parent is set
      unused := fun hu => by rw [h.unused k hu] at hk; cases hk
      used := fun q hq => h.target q k hq
      target := nofun }
    (.inl rfl) (fun hst => .inr ⟨hst, rfl⟩) ?_ (.inr (.inl hheld)) ?_ ?_
  · intro c hc
    show (update s.proc k _ c).parent ≠ some p
    by_cases hck : c = k
    · rw [hck, update_self]
      exact fun hh => hne (Option.some.inj hh).symm
    · rw [update_of_ne hck]
      exact h.knows_at hp c (lt_of_le_of_ne hc fun heq => hck (Fin.ext heq))
  · -- the child may be a zombie: `p` is about to wake `init`
    exact fun _ j hj _ => .inr ⟨(Option.some.inj hj).symm, Nat.zero_le _⟩
  · rw [hp]
    exact fun hw => absurd hw id

/-- The last section of `kexit`. -/
theorem Inv.become_zombie (h : Inv init s) (hp : s.pc p = .exitZombie status) :
    Inv init (becomeZombie s p status) := by
  have hheld := h.held hp rfl
  rcases h.knows_at hp with ⟨hkids, hpar⟩
  have hlive : (s.proc p).state.live = true := (h.live p).mpr (by rw [hp]; exact nofun)
  refine h.act (s := s)
    { moves := rfl
      writes := rfl
      lock := .inr (.inr ⟨hheld, rfl, rfl⟩)
      live := .inr ⟨rfl, by simp [ProcState.live]⟩
      exiting := nofun
      dead := fun _ => ⟨h.exiting p (by rw [hp]; rfl), hkids⟩
      parent := fun q hq => .inl hq
      unused := nofun
      used := fun q hq => by rw [h.target q p hq] at hlive; cases hlive
      target := nofun }
    (.inl rfl) nofun trivial (.inr (.inl hheld)) ?_ ?_
  · -- `p`'s own parent was woken before
    exact fun _ j hj hw => absurd hw (hpar j hj)
  · rw [hp]
    exact fun hw => absurd hw id

/-- `p` goes to sleep in `kwait`, having seen all its children alive. -/
theorem Inv.wait_sleep (h : Inv init s) (hp : s.pc p = .waitSleep addr)
    (hrun : (s.proc p).state = .running) : Inv init (waitSleep s p addr) := by
  have hheld := h.held hp rfl
  have hc := h.keeps (t := waitSleep s p addr) (i := p) rfl rfl
    (.inr (.inr ⟨hheld, rfl, rfl⟩)) rfl (.inr ⟨by rw [hrun]; rfl, rfl⟩) rfl
    (by rw [hp]; exact nofun) nofun
  have hwait : ∀ j, Waiting (waitSleep s p addr) j → j ≠ p → Waiting s j := by
    rintro j ⟨hst, addr', hslept⟩ hjp
    rw [hc.old hjp] at hst
    rw [hc.there hjp] at hslept
    exact ⟨hst, addr', hslept⟩
  refine h.change hc (fun j hj => ?_) (fun q => ?_) fun j c hj hparent hz => ?_
  · by_cases hjp : j = p
    · rw [hjp, hc.new]
    · rw [hc.old hjp]
      exact h.chan j (hwait j hj hjp)
  · by_cases hq : q = p
    · rw [hq, hc.here]
      exact trivial
    · rw [hc.there hq]
      exact knows_of_not_holds (h.not_holds hheld hq)
  · exfalso
    have hcp : c ≠ p := by
      rintro rfl
      rw [hc.new] at hz
      cases hz
    rw [hc.old hcp] at hparent hz
    by_cases hjp : j = p
    · exact h.knows_at hp c (hjp ▸ hparent) hz
    · exact h.no_lost (hwait j hj hjp) hparent hheld (by rw [hp]; exact id) hz

variable {t : St n}

/-- `kwait` frees the zombie `k`. -/
theorem Inv.reap (h : Inv init s) (hp : s.pc p = .waitChild addr k)
    (hk : (s.proc k).state = .zombie) (hpc : t.pc = update s.pc p .user) (hlock : t.lock = none)
    (hproc : t.proc = update s.proc k (freeproc (s.proc k))) : Inv init t := by
  have hheld := h.held hp rfl
  refine h.act (s := s)
    { moves := hpc
      writes := hproc
      lock := .inr (.inr ⟨hheld, hlock, rfl⟩)
      live := .inl ⟨by rw [hk]; rfl, nofun, by rw [hp]; exact nofun⟩
      exiting := nofun
      dead := nofun
      parent := nofun
      unused := fun _ => rfl
      used := fun q hq => by rw [h.target q k hq] at hk; cases hk
      target := nofun }
    (.inl rfl) nofun trivial (.inr (.inl hheld)) nofun ?_
  rw [hp]
  exact fun hw => absurd hw id

/-- `allocproc` takes the free slot `k`. -/
theorem Inv.alloc {x : Proc n} (h : Inv init s) (hp : s.pc p = .forkScan j)
    (hk : (s.proc k).state = .unused) (hpc : t.pc = update s.pc p (.forkParent k))
    (hlock : t.lock = s.lock) (hproc : t.proc = update s.proc k x) (hstate : x.state = .used)
    (hparent : x.parent = (s.proc k).parent) : Inv init t := by
  have hne : x.state ≠ .zombie ∧ x.state ≠ .sleeping ∧ x.state ≠ .unused := by
    rw [hstate]
    exact ⟨nofun, nofun, nofun⟩
  have hfresh : (s.proc k).state ≠ .used := by rw [hk]; exact nofun
  refine h.act (s := s)
    { moves := hpc
      writes := hproc
      lock := .inl ⟨hlock, by rw [hp]; rfl⟩
      live := .inl ⟨by rw [hk, hstate]; rfl, nofun, by rw [hp]; exact nofun⟩
      exiting := nofun
      dead := nofun
      parent := fun q hq => .inl (hparent ▸ hq)
      unused := fun hu => absurd hu hne.2.2
      used := fun q hq => absurd (h.target q k hq) hfresh
      target := fun np hnp => .inr ⟨(Option.some.inj hnp).symm, hstate, hfresh⟩ }
    (.inl rfl) (fun hs => absurd hs hne.2.1) trivial
    (.inr (.inr ⟨hparent, fun hz => absurd hz hne.1⟩)) (fun hz => absurd hz hne.1) ?_
  rw [hp]
  exact fun hw => absurd hw id

/-- `kfork` sets the child's parent, `wait_lock` being free. -/
theorem Inv.fork_parent {np : Fin n} (h : Inv init s) (hp : s.pc p = .forkParent np)
    (hfree : s.lock = none) :
    Inv init ((s.modify np fun q => { q with parent := some p }).goto p (.forkRun np)) := by
  have hused := h.target p np (by rw [hp]; rfl)
  refine h.act (s := s)
    { moves := rfl
      writes := rfl
      lock := .inl ⟨rfl, by rw [hp]; rfl⟩
      live := .inl ⟨rfl, nofun, by rw [hp]; exact nofun⟩
      exiting := nofun
      dead := nofun
      parent := fun q hq => .inr ⟨by rw [← Option.some.inj hq, hp]; exact nofun, nofun⟩
      unused := fun hu => by rw [hused] at hu; cases hu
      used := fun q hq => h.target q np hq
      target := fun np' hnp => .inl (by rw [hp]; exact hnp) }
    (.inl rfl) (fun hst => .inr ⟨hst, rfl⟩) trivial (.inl hfree) ?_ ?_
  · intro hz
    rw [hused] at hz
    cases hz
  · rw [hp]
    exact fun hw => absurd hw id

/-- `kfork` makes the child runnable. -/
theorem Inv.fork_run {np : Fin n} (h : Inv init s) (hp : s.pc p = .forkRun np)
    (hpc : t.pc = update (update s.pc np .user) p .user) (hlock : t.lock = s.lock)
    (hproc : t.proc = update s.proc np { s.proc np with state := .runnable }) : Inv init t := by
  have hused := h.target p np (by rw [hp]; rfl)
  -- the child's slot was nobody's place before
  have hnp : s.pc np = .dead := by
    by_contra hne
    have := (h.live np).mpr hne
    rw [hused] at this
    cases this
  have hpne : np ≠ p := by
    rintro rfl
    rw [hp] at hnp
    cases hnp
  -- first `p` returns, so that no fork is left with `np` as its target
  have h' : Inv init (s.goto p .user) := by
    refine h.pass hp rfl rfl trivial
  have hnp' : (s.goto p .user).pc np = .dead := (update_of_ne hpne ..).trans hnp
  refine h'.act (s := s.goto p .user) (p := np)
    { moves := hpc.trans (update_comm hpne ..)
      writes := hproc
      lock := .inl ⟨hlock, by rw [hnp']; rfl⟩
      live := .inr ⟨rfl, by simp [ProcState.live]⟩
      exiting := nofun
      dead := nofun
      parent := fun q hq => .inl hq
      unused := nofun
      used := fun q hq => ?_
      target := nofun }
    (.inl rfl) nofun trivial (.inr (.inr ⟨rfl, nofun⟩)) nofun ?_
  · exfalso
    by_cases hqp : q = p
    · rw [hqp, show (s.goto p .user).pc p = .user from update_self ..] at hq
      cases hq
    · have hq : (update s.pc p .user q).target = some np := hq
      rw [update_of_ne hqp] at hq
      exact hqp (h.target_inj q p np hq (by rw [hp]; rfl))
  · rw [hnp']
    exact fun hw => absurd hw id

end Family

/-! ## The actions -/

variable {ok : Bool}

section
variable (h : Inv init s)
include h

theorem forkVisit_inv (hp : s.pc p = .forkScan k) :
    Inv init (forkVisit s p k ok) := by
  unfold forkVisit
  split
  swap
  · exact h.pass hp rfl rfl trivial
  next hk =>
  split
  · exact h.alloc hp hk rfl rfl rfl rfl rfl
  · -- an allocation failed: the slot is given back
    exact h.modify_goto hp rfl rfl rfl (h.unused k hk).symm (Or.inl hk.symm) nofun
      ⟨rfl, nofun, rfl⟩ ⟨rfl, rfl⟩ rfl

theorem reparentVisit_inv (hp : s.pc p = .exitReparent status k) :
    Inv init (reparentVisit init s p status k) := by
  unfold reparentVisit
  split
  · next hk => exact h.reparent hp hk
  · next hk =>
    refine h.pass hp rfl rfl ?_
    intro c hc
    rcases Nat.lt_succ_iff_lt_or_eq.mp hc with hc | hc
    · exact h.knows_at hp c hc
    · rw [Fin.ext hc]; exact hk

theorem waitVisit_inv (hp : s.pc p = .waitChild addr k) :
    Inv init (waitVisit s p addr k ok) := by
  have hheld := h.held hp rfl
  unfold waitVisit
  split
  swap
  · -- alive
    next hk =>
    refine h.pass hp rfl rfl ?_
    intro c hc hpar
    rcases Nat.lt_succ_iff_lt_or_eq.mp hc with hc | hc
    · exact (h.knows_at hp).2 c hc hpar
    · rw [Fin.ext hc]; exact hk
  next hk =>
  split
  · exact h.turn hp rfl rfl rfl (.inr (Or.inr ⟨hheld, rfl, rfl⟩)) trivial
  · exact h.reap hp hk rfl rfl rfl

theorem waitTest_inv {havekids : Bool} (hp : s.pc p = .waitEnd addr havekids) :
    Inv init (waitTest s p addr havekids) := by
  have hheld := h.held hp rfl
  unfold waitTest
  split
  · exact h.turn hp rfl rfl rfl (.inr (Or.inr ⟨hheld, rfl, rfl⟩)) trivial
  · have hseen := h.knows_at hp
    exact h.pass hp rfl rfl hseen

theorem killVisit_inv {pid : BitVec 32} (hp : s.pc p = .killScan pid k) :
    Inv init (killVisit s p pid k) := by
  unfold killVisit
  split
  swap
  · exact h.pass hp rfl rfl trivial
  refine h.modify_goto (i := k) hp rfl rfl rfl rfl ?_ ?_ ⟨rfl, nofun, rfl⟩ ⟨rfl, rfl⟩ rfl
  · by_cases hsl : (s.proc k).state = .sleeping
    · exact Or.inr (by simp [hsl, ProcState.live])
    · exact Or.inl (by simp [hsl])
  · by_cases hsl : (s.proc k).state = .sleeping
    · simp [hsl]
    · simp [hsl]

section
variable (hrun : (s.proc p).state = .running)
include hrun

/-- `wakeup(initproc)` in `reparent`. -/
theorem wakeInit_inv {k : Nat} (hp : s.pc p = .exitWakeInit status k j) (hj : j < n) :
    Inv init ((s.wakeVisit p ⟨j, hj⟩ (some (.proc init))).goto p (.exitWakeInit status k (j + 1))) := by
  have hne : p ≠ init := h.exiting p (by rw [hp]; rfl)
  have h' := h.wakeVisit p ⟨j, hj⟩ (some (.proc init))
  have hp' : (s.wakeVisit p ⟨j, hj⟩ (some (.proc init))).pc p = .exitWakeInit status k j := by
    rw [wakeVisit_pc, hp]
  have hkids := h'.knows_at hp'
  refine h'.goto hp' ⟨rfl, nofun, rfl⟩ (fun _ => hne) hkids (fun hw => ?_) rfl
  -- either `init` is still to be visited, or this was its visit
  rcases Nat.lt_or_eq_of_le hw with hlt | heq
  · exact Or.inl hlt
  · right
    have hjinit : (⟨j, hj⟩ : Fin n) = init := Fin.ext heq
    rw [hjinit]
    exact wakeVisit_awake h hrun

/-- `wakeup(p->parent)` in `kexit`. -/
theorem wakeParent_inv {parent : Option (Fin n)} (hp : s.pc p = .exitWakeParent status parent j)
    (hj : j < n) :
    Inv init ((s.wakeVisit p ⟨j, hj⟩ (parent.map .proc)).goto p
      (.exitWakeParent status parent (j + 1))) := by
  have h' := h.wakeVisit p ⟨j, hj⟩ (parent.map .proc)
  have hp' : (s.wakeVisit p ⟨j, hj⟩ (parent.map .proc)).pc p =
      .exitWakeParent status parent j := by rw [wakeVisit_pc, hp]
  rcases h'.knows_at hp' with ⟨hkids, hpar, hawake⟩
  refine h'.pass hp' rfl rfl ⟨hkids, hpar, ?_⟩
  intro q hq hlt
  rcases Nat.lt_succ_iff_lt_or_eq.mp hlt with hlt | heq
  · exact hawake q hq hlt
  · have hjq : (⟨j, hj⟩ : Fin n) = q := Fin.ext heq.symm
    rw [hjq, hq]
    exact wakeVisit_awake h hrun

theorem runPc_inv (hs : runPc init s p ok (s.pc p) = some s') :
    Inv init s' := by
  generalize hp : s.pc p = pc at hs
  cases pc with
  | user | dead => cases hs
  | slept | waitSlept addr =>
    cases hs
    exact h.modify_goto hp rfl rfl rfl rfl (Or.inl rfl) (fun _ => Or.inl rfl) ⟨rfl, nofun, rfl⟩
      ⟨rfl, rfl⟩ rfl
  | forkScan k =>
    cases hs
    split
    · exact forkVisit_inv h hp
    · exact h.pass hp rfl rfl trivial
  | forkParent np =>
    rcases of_ite_eq_some hs with ⟨hfree, rfl⟩
    exact h.fork_parent hp hfree
  | forkRun np =>
    cases hs
    exact h.fork_run hp rfl rfl rfl
  | exitAcquire status | waitAcquire addr =>
    rcases of_ite_eq_some hs with ⟨hfree, rfl⟩
    exact h.turn hp rfl rfl rfl (.inr (Or.inl ⟨hfree, rfl, rfl⟩))
      (fun c hc => absurd hc (Nat.not_lt_zero _))
  | exitReparent status k =>
    cases hs
    split
    case isTrue => exact reparentVisit_inv h hp
    case isFalse hk =>
      refine h.pass hp rfl rfl ⟨fun c => ?_, rfl, ?_⟩
      · exact h.knows_at hp c (lt_of_lt_of_le c.isLt (not_lt.mp hk))
      · exact fun q _ hq => absurd hq (Nat.not_lt_zero _)
  | exitWakeInit status k j =>
    cases hs
    split
    case isTrue hj => exact wakeInit_inv h hrun hp hj
    case isFalse hj =>
      have hne : p ≠ init := h.exiting p (by rw [hp]; rfl)
      refine h.goto hp ⟨rfl, nofun, rfl⟩ (fun _ => hne) ?_ (fun hw => ?_) rfl
      · exact fun c hc => h.knows_at hp c (Nat.le_of_lt_succ hc)
      · exact absurd (lt_of_le_of_lt hw init.isLt) hj
  | exitWakeParent status parent j =>
    cases hs
    split
    case isTrue hj => exact wakeParent_inv h hrun hp hj
    case isFalse hj =>
      rcases h.knows_at hp with ⟨hkids, hpar, hawake⟩
      refine h.pass hp rfl rfl ⟨hkids, fun q hq => ?_⟩
      exact hawake q (hpar ▸ hq) (lt_of_lt_of_le q.isLt (not_lt.mp hj))
  | exitZombie status =>
    cases hs
    exact h.become_zombie hp
  | waitScan addr k havekids =>
    cases hs
    split
    case isFalse hk =>
      refine h.pass hp rfl rfl ?_
      exact fun c => h.knows_at hp c (lt_of_lt_of_le c.isLt (not_lt.mp hk))
    case isTrue hk =>
      split
      case isTrue hchild => exact h.pass hp rfl rfl ⟨hchild, h.knows_at hp⟩
      case isFalse hchild =>
        refine h.pass hp rfl rfl ?_
        intro c hc hpar
        rcases Nat.lt_succ_iff_lt_or_eq.mp hc with hc | hc
        · exact h.knows_at hp c hc hpar
        · have hck : c = ⟨k, hk⟩ := Fin.ext hc
          exact absurd (hck ▸ hpar) hchild
  | waitChild addr k =>
    cases hs
    exact waitVisit_inv h hp
  | waitEnd addr havekids =>
    cases hs
    exact waitTest_inv h hp
  | waitSleep addr =>
    cases hs
    exact h.wait_sleep hp hrun
  | killScan pid k =>
    cases hs
    split
    · exact killVisit_inv h hp
    · exact h.pass hp rfl rfl trivial

end

theorem step_inv {l : Lbl n} (hs : step init s l = some s') :
    Inv init s' := by
  unfold step at hs
  split at hs
  · cases hs
  cases l with
  | run p ok =>
    simp only [Option.ite_none_right_eq_some] at hs
    exact runPc_inv h hs.1 hs.2
  | fork p | wait p addr | kill p pid =>
    rcases of_ite_eq_some hs with ⟨⟨-, hp⟩, rfl⟩
    exact h.pass hp rfl rfl trivial
  | exit p status =>
    rcases of_ite_eq_some hs with ⟨⟨-, hp⟩, rfl⟩
    split
    · -- "init exiting": nothing has changed
      exact ⟨h.lock, h.live, h.init_pc, h.exiting, h.parent_live, h.unused, h.target, h.target_inj,
        h.chan, fun q => knows_mono (h.knows q) (fun _ => rfl) (fun _ => id) (fun _ => id),
        h.waiting⟩
    · next hne =>
      exact h.goto hp ⟨rfl, nofun, rfl⟩ (fun _ => hne) trivial (fun hw => absurd hw id) rfl
  | setkilled p =>
    rcases of_ite_eq_some hs with ⟨-, rfl⟩
    exact h.modify rfl (Or.inl rfl) fun hsl => ⟨hsl, rfl⟩
  | schedule p =>
    rcases of_ite_eq_some hs with ⟨hst, rfl⟩
    exact h.modify rfl (Or.inr ⟨by rw [hst]; rfl, rfl⟩) nofun
  | yield p | wakeOther p c =>
    rcases of_ite_eq_some hs with ⟨⟨hst, -⟩, rfl⟩
    exact h.modify rfl (Or.inr ⟨by rw [hst]; rfl, rfl⟩) nofun
  | sleep p c =>
    rcases of_ite_eq_some hs with ⟨⟨hst, hp⟩, rfl⟩
    exact h.modify_goto hp rfl rfl rfl rfl (Or.inr ⟨by rw [hst]; rfl, rfl⟩) (fun _ => Or.inl rfl)
      ⟨rfl, nofun, rfl⟩ ⟨rfl, rfl⟩ rfl

end

end Xv6.Process
