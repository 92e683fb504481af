import Mathlib.Algebra.Group.Nat.Defs
import Xv6.Sched.Exclusive

/-!
# Xv6.Sched.Ticks — CPU time

`clockintr` counts clock ticks in a 32-bit word, and each process is charged for them in two
64-bit words: `usertrap` adds the ticks since `cpu_ticks_base` to `cpu_ticks`, and takes a new
base when it returns to user space. `allocproc` sets the first base. `forkret`, the other way
to user space, sets none.

The model is the scheduler's with these words beside it. A process whose kernel thread is at
`user` is in user space or in kernel code that the scheduler's model does not look into; `mode`
tells which. `ran` and `life` are not in the source: they count the ticks since `allocproc`,
those in state `RUNNING` and all of them.
-/

namespace Xv6.Sched

open Lib Function

/-- In `forkret` before the first return to user space, in the kernel later, in user space. -/
inductive Mode where
  | forkret | kernel | user
deriving DecidableEq, Repr

structure Acct where
  cpu_ticks : BitVec 64
  cpu_ticks_base : BitVec 64
  mode : Mode
  ran : Nat
  life : Nat
deriving DecidableEq, Repr

/-- In `allocproc`. -/
def Acct.alloc (ticks : BitVec 32) : Acct := ⟨0, ticks.setWidth 64, .forkret, 0, 0⟩

/-- `p->cpu_ticks += ticks - p->cpu_ticks_base` at the beginning of `usertrap`. -/
def Acct.usertrap (ticks : BitVec 32) (a : Acct) : Acct :=
  { a with cpu_ticks := a.cpu_ticks + (ticks.setWidth 64 - a.cpu_ticks_base), mode := .kernel }

/-- To user space: `usertrap` sets the base, `forkret` does not. -/
def Acct.userret (ticks : BitVec 32) (a : Acct) : Acct :=
  match a.mode with
  | .kernel => { a with cpu_ticks_base := ticks.setWidth 64, mode := .user }
  | _ => { a with mode := .user }

def Acct.tick (running : Bool) (a : Acct) : Acct :=
  { a with ran := if running then a.ran + 1 else a.ran, life := a.life + 1 }

structure TickSt (P : Protocol) (C : Type) (n : Nat) where
  base : St P C n
  ticks : BitVec 32
  acct : Fin n → Acct
  -- the number of ticks, which the word wraps
  elapsed : Nat

inductive TickLbl (C : Type) (n : Nat) where
  | sched (l : Lbl C n)
  | clockintr
  | usertrap (c : C)
  | userret (c : C)

variable {P : Protocol} {C : Type} {n : Nat}

def St.running (s : St P C n) (c : C) : Option (Fin n) :=
  match (s.cpu c).thread with
  | .run p => some p
  | _ => none

/-- The process on CPU `c` is in user space. -/
def TickSt.inUser (s : TickSt P C n) (c : C) : Bool :=
  (s.base.running c).any fun p => (s.acct p).mode = .user

def TickSt.set (s : TickSt P C n) (p : Fin n) (a : Acct) : TickSt P C n :=
  { s with acct := update s.acct p a }

theorem TickSt.set_acct (s : TickSt P C n) (p q : Fin n) (a : Acct) :
    (s.set p a).acct q = if q = p then a else s.acct q := update_apply ..

def tickStep [DecidableEq C] (init : Fin n) (s : TickSt P C n) :
    TickLbl C n → Option (TickSt P C n)
  | .sched l =>
    if l.entry.any s.inUser then none
    else
      (step init s.base l).map fun t =>
        { s with
          base := t
          -- only allocproc takes a slot out of UNUSED
          acct := fun p =>
            if (s.base.proc p).state = .unused ∧ (t.proc p).state ≠ .unused then .alloc s.ticks
            else s.acct p }
  | .clockintr =>
    some
      { s with
        ticks := s.ticks + 1
        acct := fun p => (s.acct p).tick ((s.base.proc p).state = .running)
        elapsed := s.elapsed + 1 }
  | .usertrap c =>
    match s.base.running c with
    | some p => if (s.acct p).mode = .user then some (s.set p ((s.acct p).usertrap s.ticks)) else none
    | none => none
  | .userret c =>
    match s.base.running c with
    | some p =>
      if s.base.pc p = .user ∧ (s.acct p).mode ≠ .user then
        some (s.set p ((s.acct p).userret s.ticks))
      else none
    | none => none

/-- After `userinit`. -/
def tickInit [DecidableEq C] (init : Fin n) (s : TickSt P C n) : Prop :=
  Init init s.base ∧ s.ticks = 0 ∧ (∀ p, s.acct p = .alloc 0) ∧ s.elapsed = 0

def tickSys (P : Protocol) (C : Type) [DecidableEq C] (init : Fin n) :
    System (TickSt P C n) (TickLbl C n) := ⟨tickInit init, tickStep init⟩

section
variable [DecidableEq C] {init p q : Fin n} {s t : St P C n} {u v : TickSt P C n}

/-! ## Processes in user space -/

/-- A step of the thread of `q` moves `q`, and beside it a slot that is allocated or freed. -/
theorem Act.pc_eq {c : C} {a : Pc n} (h : Act s t c q a) (hpq : p ≠ q)
    (hunused : (s.proc p).state ≠ .unused) (hzombie : (s.proc p).state ≠ .zombie) :
    t.pc p = s.pc p := by
  have hgo : ∀ pc, update s.pc q pc p = s.pc p := fun pc => update_of_ne hpq _ _
  cases h with
  | go pc k x hpc => rw [hpc, hgo]
  | alloc k ha hrun hk ht =>
    have hpk : p ≠ k := fun e => hunused (e ▸ hk)
    rw [ht, forkHold, if_pos hk]
    exact (update_of_ne hpk _ _).trans (hgo _)
  | reap k ha hrun hk ht =>
    have hpk : p ≠ k := fun e => hzombie (e ▸ hk)
    rw [ht, waitHold, if_pos hk]
    exact (update_of_ne hpk _ _).trans (hgo _)
  | start np ha hrun ht =>
    rw [ht]
    exact hgo _
  | sched pc ht =>
    rw [ht]
    unfold Sched.sched
    repeat' split
    all_goals first | rfl | exact hgo _

omit [DecidableEq C] in
/-- A process at `user` is on a CPU, and `RUNNING`. -/
theorem Inv.running_of_user (h : Inv s) (hp : s.pc p = .user) : (s.proc p).state = .running := by
  by_cases hrun : ∃ c, (s.cpu c).thread = .run p
  · rcases hrun with ⟨c, hc⟩
    have hact := h.active c p hc
    rw [hp] at hact
    exact hact
  · have hpark := h.parked p fun c hc => hrun ⟨c, hc⟩
    rw [hp] at hpark
    cases hst : (s.proc p).state <;> rw [hst] at hpark <;> simp [Parked] at hpark

/-- Nobody else moves a process that is at `user`. -/
theorem step_user {l : Lbl C n} (hi : Inv s) (hs : step init s l = some t) (hp : s.pc p = .user)
    (hl : ∀ c, l.entry = some c → (s.cpu c).thread ≠ .run p) : t.pc p = .user := by
  have hrun := hi.running_of_user hp
  cases step_took hs with
  | @cpu c ok _ hr =>
    cases hth : (s.cpu c).thread with
    | run q =>
      rw [hth] at hr
      have hpq : p ≠ q := by
        rintro rfl
        simp [runCpu, hp, runPc] at hr
      have hact := runPc_act (hi.active c q hth) (hi.nested q) hr
      rw [hact.pc_eq hpq (by simp [hrun]) (by simp [hrun]), hp]
    | _ =>
      rw [hth] at hr
      simp only [runCpu, Option.some.injEq] at hr
      repeat' split at hr
      all_goals first | cases hr; exact hp | cases hr
  | @enter _ c q pc hentry hth hpc =>
    have hpq : p ≠ q := fun e => hl c hentry (e ▸ hth)
    exact (update_of_ne hpq _ _).trans hp
  | panic | intr hfree => exact hp

/-! ## What a step does -/

variable {l : TickLbl C n}

theorem tickStep_cases (hs : tickStep init u l = some v) :
    (∃ l', l = .sched l' ∧ l'.entry.any u.inUser = false ∧ step init u.base l' = some v.base ∧
      v.ticks = u.ticks ∧ v.elapsed = u.elapsed ∧ ∀ p, v.acct p =
        if (u.base.proc p).state = .unused ∧ (v.base.proc p).state ≠ .unused then .alloc u.ticks
        else u.acct p) ∨
    (l = .clockintr ∧ v.base = u.base ∧ v.ticks = u.ticks + 1 ∧ v.elapsed = u.elapsed + 1 ∧
      ∀ p, v.acct p = (u.acct p).tick ((u.base.proc p).state = .running)) ∨
    (∃ p, u.base.pc p = .user ∧ (u.acct p).mode ≠ .user ∧
      v = u.set p ((u.acct p).userret u.ticks)) ∨
    (∃ c p, l = .usertrap c ∧ u.base.running c = some p ∧ (u.acct p).mode = .user ∧
      v = u.set p ((u.acct p).usertrap u.ticks)) := by
  cases l with
  | sched l' =>
    simp only [tickStep] at hs
    split at hs
    · cases hs
    next hentry =>
    cases hstep : step init u.base l' with
    | none => simp [hstep] at hs
    | some t =>
      simp only [hstep, Option.map_some, Option.some.injEq] at hs
      subst hs
      exact .inl ⟨l', rfl, by simpa using hentry, hstep, rfl, rfl, fun _ => rfl⟩
  | clockintr =>
    cases hs
    exact .inr (.inl ⟨rfl, rfl, rfl, rfl, fun _ => rfl⟩)
  | usertrap c =>
    simp only [tickStep] at hs
    split at hs
    next p hp =>
      split at hs
      next hmode => exact .inr (.inr (.inr ⟨c, p, rfl, hp, hmode, (Option.some.inj hs).symm⟩))
      · cases hs
    · cases hs
  | userret c =>
    simp only [tickStep] at hs
    split at hs
    next p _ =>
      split at hs
      next hmode => exact .inr (.inr (.inl ⟨p, hmode.1, hmode.2, (Option.some.inj hs).symm⟩))
      · cases hs
    · cases hs

/-- The scheduler runs as if nobody counted. -/
theorem tickStep_base (hi : Inv u.base) (hs : tickStep init u l = some v) :
    Inv v.base := by
  rcases tickStep_cases hs with ⟨l', -, -, hstep, -⟩ | ⟨-, hbase, -⟩ | ⟨p, -, -, rfl⟩ |
    ⟨c, p, -, -, -, rfl⟩
  · exact step_inv hi hstep
  · rwa [hbase]
  · exact hi
  · exact hi

/-- A process in user space is at `user`, and the ghost counters are in order. -/
structure TickInv (u : TickSt P C n) : Prop where
  base : Inv u.base
  user : ∀ p, (u.acct p).mode = .user → u.base.pc p = .user
  ran : ∀ p, (u.acct p).ran ≤ (u.acct p).life
  life : ∀ p, (u.acct p).life ≤ u.elapsed

theorem tickInit_inv (h : tickInit init u) : TickInv u := by
  rcases h with ⟨hbase, -, hacct, -⟩
  refine ⟨.init hbase, fun p hp => ?_, fun p => ?_, fun p => ?_⟩
  · rw [hacct] at hp
    cases hp
  · rw [hacct]
    exact Nat.le_refl 0
  · rw [hacct]
    exact Nat.zero_le _

omit [DecidableEq C] in
/-- A change of one account that leaves the ghost counters alone. -/
theorem TickInv.set {a : Acct} (h : TickInv u) (hran : a.ran = (u.acct p).ran)
    (hlife : a.life = (u.acct p).life) (huser : a.mode = .user → u.base.pc p = .user) :
    TickInv (u.set p a) := by
  refine ⟨h.base, fun q => ?_, fun q => ?_, fun q => ?_⟩ <;> rw [u.set_acct] <;> split
  · next hq => rw [hq]; exact huser
  · exact h.user q
  · rw [hran, hlife]
    exact h.ran p
  · exact h.ran q
  · rw [hlife]
    exact h.life p
  · exact h.life q

theorem tickStep_inv (h : TickInv u) (hs : tickStep init u l = some v) :
    TickInv v := by
  have hbase := tickStep_base h.base hs
  rcases tickStep_cases hs with ⟨l', -, hentry, hstep, -, helapsed, hacct⟩ |
    ⟨-, hsame, -, helapsed, hacct⟩ | ⟨p, hpc, -, rfl⟩ | ⟨c, p, -, -, -, rfl⟩
  · refine ⟨hbase, fun p hp => ?_, fun p => ?_, fun p => ?_⟩
    · rw [hacct] at hp
      split at hp
      · cases hp
      -- a process in user space begins nothing in the kernel
      refine step_user h.base hstep (h.user p hp) fun c hc hth => ?_
      simp [hc, TickSt.inUser, St.running, hth, hp] at hentry
    · rw [hacct]
      split
      · exact Nat.le_refl 0
      · exact h.ran p
    · rw [hacct, helapsed]
      split
      · exact Nat.zero_le _
      · exact h.life p
  · refine ⟨hbase, fun p hp => ?_, fun p => ?_, fun p => ?_⟩
    · rw [hacct] at hp
      rw [hsame]
      exact h.user p hp
    · have hle := h.ran p
      rw [hacct]
      unfold Acct.tick
      dsimp only
      split <;> omega
    · have hle := h.life p
      rw [hacct, helapsed]
      show (u.acct p).life + 1 ≤ u.elapsed + 1
      omega
  · refine h.set ?_ ?_ fun _ => hpc
    · unfold Acct.userret
      split <;> rfl
    · unfold Acct.userret
      split <;> rfl
  · refine h.set rfl rfl fun hkernel => ?_
    cases hkernel

/-! ## What has been charged -/

/-- The ticks charged to a process are within its lifetime, and outside the kernel, where the next
trap will charge it, so are they with those since the base. -/
structure Acct.Within (a : Acct) (now : Nat) : Prop where
  charged : a.cpu_ticks.toNat ≤ a.life
  due : a.mode ≠ .kernel →
    a.cpu_ticks_base.toNat ≤ now ∧ a.cpu_ticks.toNat + (now - a.cpu_ticks_base.toNat) ≤ a.life

/-- The base is the one that `allocproc` has set. -/
def Acct.Fresh (a : Acct) (now : Nat) : Prop := a.cpu_ticks_base.toNat + a.life = now

instance (a : Acct) (now : Nat) : Decidable (a.Fresh now) :=
  inferInstanceAs (Decidable (_ = now))

/-- A process has been charged for ticks while it was `RUNNING` only. Unless its base is still that
of `allocproc`, the next trap does not change that. -/
structure Acct.Fair (a : Acct) (now : Nat) : Prop where
  charged : a.cpu_ticks.toNat ≤ a.ran
  due : a.mode ≠ .kernel → a.Fresh now ∨
    a.mode = .user ∧ a.cpu_ticks.toNat + (now - a.cpu_ticks_base.toNat) ≤ a.ran

section
variable {a : Acct} {ticks : BitVec 32} {now : Nat}

theorem toNat_widen (ticks : BitVec 32) : (ticks.setWidth 64).toNat = ticks.toNat :=
  BitVec.toNat_setWidth_of_le (by decide)

theorem Acct.within_alloc : (Acct.alloc ticks).Within ticks.toNat := by
  refine ⟨Nat.le_refl 0, fun _ => ?_⟩
  show (ticks.setWidth 64).toNat ≤ _ ∧ 0 + (_ - (ticks.setWidth 64).toNat) ≤ 0
  rw [toNat_widen]
  omega

theorem Acct.fair_alloc : (Acct.alloc ticks).Fair ticks.toNat :=
  ⟨Nat.le_refl 0, fun _ => .inl (toNat_widen ticks)⟩

section
variable (h : a.Within ticks.toNat)
include h

theorem Acct.Within.usertrap_toNat (hmode : a.mode = .user) (hlife : a.life < 2 ^ 64) :
    (a.usertrap ticks).cpu_ticks.toNat =
      a.cpu_ticks.toNat + (ticks.toNat - a.cpu_ticks_base.toNat) := by
  rcases h.due (by simp [hmode]) with ⟨hbase, hsum⟩
  have hwide := toNat_widen ticks
  have hsub : (ticks.setWidth 64 - a.cpu_ticks_base).toNat =
      ticks.toNat - a.cpu_ticks_base.toNat := by
    rw [BitVec.toNat_sub_of_le (by rw [BitVec.le_def, hwide]; exact hbase), hwide]
  show (a.cpu_ticks + (ticks.setWidth 64 - a.cpu_ticks_base)).toNat = _
  rw [BitVec.toNat_add, hsub, Nat.mod_eq_of_lt (by omega)]

theorem Acct.Within.usertrap (hmode : a.mode = .user) (hlife : a.life < 2 ^ 64) :
    (a.usertrap ticks).Within ticks.toNat := by
  refine ⟨?_, fun hkernel => absurd rfl hkernel⟩
  rw [h.usertrap_toNat hmode hlife]
  exact (h.due (by simp [hmode])).2

theorem Acct.Within.userret : (a.userret ticks).Within ticks.toNat := by
  unfold Acct.userret
  split
  · refine ⟨h.charged, fun _ => ?_⟩
    have hle := h.charged
    show (ticks.setWidth 64).toNat ≤ _ ∧
      a.cpu_ticks.toNat + (_ - (ticks.setWidth 64).toNat) ≤ a.life
    rw [toNat_widen]
    omega
  · next hkernel => exact ⟨h.charged, fun _ => h.due hkernel⟩

/-- The trap charges too much exactly if the base is that of `allocproc` and the process was not
`RUNNING` all the time since. -/
theorem Acct.Within.usertrap_iff (hf : a.Fair ticks.toNat) (hran : a.ran ≤ a.life)
    (hmode : a.mode = .user) (hlife : a.life < 2 ^ 64) :
    (a.usertrap ticks).cpu_ticks.toNat ≤ a.ran ↔ (a.Fresh ticks.toNat → a.ran = a.life) := by
  have hkernel : a.mode ≠ .kernel := by simp [hmode]
  rw [h.usertrap_toNat hmode hlife]
  rcases h.due hkernel with ⟨hbase, hsum⟩
  unfold Acct.Fresh
  rcases hf.due hkernel with hfresh | ⟨-, hdue⟩
  · unfold Acct.Fresh at hfresh
    exact ⟨fun hle _ => by omega, fun hall => by have := hall hfresh; omega⟩
  · exact ⟨fun _ hfresh => by omega, fun _ => hdue⟩

end

theorem Acct.Fair.userret (h : a.Fair ticks.toNat) : (a.userret ticks).Fair ticks.toNat := by
  unfold Acct.userret
  split
  · refine ⟨h.charged, fun _ => .inr ⟨rfl, ?_⟩⟩
    have hle := h.charged
    show a.cpu_ticks.toNat + (_ - (ticks.setWidth 64).toNat) ≤ a.ran
    rw [toNat_widen]
    omega
  · next hkernel => exact ⟨h.charged, fun _ => (h.due hkernel).imp_right fun hd => ⟨rfl, hd.2⟩⟩

theorem Acct.Within.tick (h : a.Within now) (running : Bool) :
    (a.tick running).Within (now + 1) := by
  refine ⟨le_trans h.charged (Nat.le_succ _), fun hkernel => ?_⟩
  rcases h.due hkernel with ⟨hbase, hsum⟩
  show a.cpu_ticks_base.toNat ≤ _ ∧ a.cpu_ticks.toNat + (_ - a.cpu_ticks_base.toNat) ≤ a.life + 1
  omega

/-- A process in user space is `RUNNING`. -/
theorem Acct.Fair.tick {running : Bool} (h : a.Fair now) (hrun : a.mode = .user → running = true) :
    (a.tick running).Fair (now + 1) := by
  have hle : a.ran ≤ (a.tick running).ran := by
    unfold Acct.tick
    dsimp only
    split <;> omega
  refine ⟨le_trans h.charged hle, fun hkernel => ?_⟩
  rcases h.due hkernel with hfresh | ⟨hmode, hdue⟩
  · left
    unfold Acct.Fresh at hfresh ⊢
    show a.cpu_ticks_base.toNat + (a.life + 1) = _
    omega
  · refine .inr ⟨hmode, ?_⟩
    rw [hrun hmode]
    show a.cpu_ticks.toNat + (_ - a.cpu_ticks_base.toNat) ≤ a.ran + 1
    omega

end

/-! ## Runs -/

/-- The word has not wrapped, and what is charged to each process is within its lifetime. -/
structure Bounded (u : TickSt P C n) : Prop where
  ticks : u.ticks.toNat = u.elapsed
  within : ∀ p, (u.base.proc p).state ≠ .unused → (u.acct p).Within u.ticks.toNat

theorem tickInit_bounded (h : tickInit init u) : Bounded u := by
  rcases h with ⟨-, hticks, hacct, helapsed⟩
  refine ⟨by rw [hticks, helapsed]; rfl, fun p _ => ?_⟩
  rw [hacct, hticks]
  exact Acct.within_alloc

omit [DecidableEq C] in
theorem Bounded.small (h : Bounded u) (hi : TickInv u) (p : Fin n) : (u.acct p).life < 2 ^ 64 := by
  have h₁ := hi.life p
  have h₂ := h.ticks
  have h₃ := u.ticks.isLt
  omega

/-- What holds of every live process, after a step that does not make the word wrap. -/
theorem Bounded.accts {F : Acct → Nat → Prop} (h : Bounded u) (hs : tickStep init u l = some v)
    (hlt : v.elapsed < 2 ^ 32) (hF : ∀ p, (u.base.proc p).state ≠ .unused → F (u.acct p) u.ticks.toNat)
    (halloc : ∀ ticks : BitVec 32, F (.alloc ticks) ticks.toNat)
    (htick : ∀ p, (u.base.proc p).state ≠ .unused →
      F ((u.acct p).tick ((u.base.proc p).state = .running)) (u.ticks.toNat + 1))
    (hret : ∀ p, (u.base.proc p).state ≠ .unused → F ((u.acct p).userret u.ticks) u.ticks.toNat)
    (htrap : ∀ c p, l = .usertrap c → u.base.running c = some p → (u.acct p).mode = .user →
      (u.base.proc p).state ≠ .unused → F ((u.acct p).usertrap u.ticks) u.ticks.toNat) :
    v.ticks.toNat = v.elapsed ∧
      ∀ p, (v.base.proc p).state ≠ .unused → F (v.acct p) v.ticks.toNat := by
  have hset : ∀ p a, ((u.base.proc p).state ≠ .unused → F a u.ticks.toNat) →
      ∀ q, (u.base.proc q).state ≠ .unused → F ((u.set p a).acct q) u.ticks.toNat := by
    intro p a ha q hq
    rw [u.set_acct]
    split
    · next heq => exact ha (heq ▸ hq)
    · exact hF q hq
  rcases tickStep_cases hs with ⟨l', -, -, -, hticks, helapsed, hacct⟩ |
    ⟨rfl, hbase, hticks, helapsed, hacct⟩ | ⟨p, -, -, rfl⟩ | ⟨c, p, hl, hc, hmode, rfl⟩
  · refine ⟨by rw [hticks, helapsed]; exact h.ticks, fun p hp => ?_⟩
    rw [hacct, hticks]
    split
    case isTrue => exact halloc _
    case isFalse hno => exact hF p fun hunused => hno ⟨hunused, hp⟩
  · have hnext : v.ticks.toNat = u.ticks.toNat + 1 := by
      rw [hticks, BitVec.toNat_add]
      exact Nat.mod_eq_of_lt (by rw [helapsed, ← h.ticks] at hlt; exact hlt)
    refine ⟨by rw [hnext, helapsed, h.ticks], fun p hp => ?_⟩
    rw [hbase] at hp
    rw [hacct, hnext]
    exact htick p hp
  · exact ⟨h.ticks, hset p _ (hret p)⟩
  · exact ⟨h.ticks, hset p _ (htrap c p hl hc hmode)⟩

theorem Bounded.step (h : Bounded u) (hi : TickInv u) (hs : tickStep init u l = some v)
    (hlt : v.elapsed < 2 ^ 32) : Bounded v := by
  rcases h.accts (F := Acct.Within) hs hlt h.within (fun _ => Acct.within_alloc)
    (fun p hp => (h.within p hp).tick _) (fun p hp => (h.within p hp).userret)
    fun c p _ _ hmode hp => (h.within p hp).usertrap hmode (h.small hi p) with ⟨hticks, hwithin⟩
  exact ⟨hticks, hwithin⟩

/-- A process that traps with the base of `allocproc` was `RUNNING` all the time since. -/
def Prompt (u : TickSt P C n) : TickLbl C n → Prop
  | .usertrap c => ∀ p ∈ u.base.running c, (u.acct p).Fresh u.ticks.toNat →
      (u.acct p).ran = (u.acct p).life
  | _ => True

/-- In a run of fewer than 2^32 ticks live processes are charged only for ticks while they were
`RUNNING`, exactly if the first traps are prompt. -/
theorem cpu_time_running (h : tickInit init u) (ls : List (TickLbl C n))
    (hlt : ∀ m ∈ (tickSys P C init).moves u ls, ∀ v ∈ tickStep init m.1 m.2, v.elapsed < 2 ^ 32) :
    (∀ v ∈ (tickSys P C init).visits u ls, ∀ p, (v.base.proc p).state ≠ .unused →
      (v.acct p).cpu_ticks.toNat ≤ (v.acct p).ran) ↔
    ∀ m ∈ (tickSys P C init).moves u ls, Prompt m.1 m.2 := by
  refine System.visits_iff (fun u l => ∀ v ∈ tickStep init u l, v.elapsed < 2 ^ 32) Prompt
    (fun u => (TickInv u ∧ Bounded u) ∧
      ∀ p, (u.base.proc p).state ≠ .unused → (u.acct p).Fair u.ticks.toNat)
    _ (fun u hu p hp => (hu.2 p hp).charged) ?_ ?_ ls u ?_ hlt
  · rintro u l v ⟨⟨hi, hb⟩, hf⟩ hlt hprompt hs
    refine ⟨⟨tickStep_inv hi hs, hb.step hi hs (hlt v hs)⟩, (hb.accts hs (hlt v hs) hf
      (fun _ => Acct.fair_alloc) (fun p hp => (hf p hp).tick fun hmode => ?_)
      (fun p hp => (hf p hp).userret) fun c p hl hc hmode hp => ⟨?_, fun hk => absurd rfl hk⟩).2⟩
    · exact decide_eq_true (hi.base.running_of_user (hi.user p hmode))
    · subst hl
      exact ((hb.within p hp).usertrap_iff (hf p hp) (hi.ran p) hmode (hb.small hi p)).mpr
        (hprompt p hc)
  · rintro u l v ⟨⟨hi, hb⟩, hf⟩ - hbad hs hall
    cases l with
    | usertrap c =>
      refine hbad fun p hc => ?_
      simp only [tickSys, tickStep, Option.mem_def.mp hc] at hs
      rcases of_ite_eq_some hs with ⟨hmode, rfl⟩
      have hp : (u.base.proc p).state ≠ .unused := by
        rw [hi.base.running_of_user (hi.user p hmode)]
        nofun
      have hcharge := hall p hp
      simp only [TickSt.set, update_self] at hcharge
      exact ((hb.within p hp).usertrap_iff (hf p hp) (hi.ran p) hmode (hb.small hi p)).mp hcharge
    | _ => exact hbad trivial
  · exact ⟨⟨tickInit_inv h, tickInit_bounded h⟩,
    fun p _ => by rw [h.2.2.1, h.2.1]; exact Acct.fair_alloc⟩

end

instance (u : TickSt P C n) : (l : TickLbl C n) → Decidable (Prompt u l)
  | .usertrap _ => inferInstanceAs (Decidable (∀ _ ∈ _, _ → _))
  | .sched _ | .clockintr | .userret _ => .isTrue trivial

/-- One CPU, and a second slot for a child. -/
def tickBoot : TickSt sleeplock Unit 2 :=
  ⟨boot 0 ⟨false, 0⟩, 0, fun _ => .alloc 0, 0⟩

theorem tickBoot_init : (tickSys sleeplock Unit (0 : Fin 2)).Init tickBoot :=
  ⟨boot_init 0 _, rfl, fun _ => rfl, rfl⟩

/-- The first process goes to user space. -/
def startRun : List (TickLbl Unit 2) :=
  List.flatten [List.replicate 3 (.sched (.cpu () true)), [.userret ()]]

/-- The first process forks. A tick comes while the child is `RUNNABLE`, the parent is preempted,
and the child traps as soon as it has come to user space. -/
def forkTickRun : List (TickLbl Unit 2) :=
  List.flatten [startRun, [.usertrap (), .sched (.call () .fork)],
    List.replicate 7 (.sched (.cpu () true)), [.clockintr, .sched (.timer ())],
    List.replicate 7 (.sched (.cpu () true)), [.userret (), .usertrap ()]]

theorem forkTickRun_overcharges :
    ∃ u, (tickSys sleeplock Unit (0 : Fin 2)).Reachable u ∧ (u.base.proc 1).state = .running ∧
      (u.acct 1).cpu_ticks = 1 ∧ (u.acct 1).ran = 0 :=
  System.reaches tickBoot_init forkTickRun (by decide +kernel)

/-- A tick while the first process is in user space. -/
theorem cpu_time_running_startRun :
    (∀ v ∈ (tickSys sleeplock Unit (0 : Fin 2)).visits tickBoot
        (startRun ++ [.clockintr, .usertrap ()]), ∀ p, (v.base.proc p).state ≠ .unused →
      (v.acct p).cpu_ticks.toNat ≤ (v.acct p).ran) ∧
    ∃ v ∈ (tickSys sleeplock Unit (0 : Fin 2)).visits tickBoot
        (startRun ++ [.clockintr, .usertrap ()]), (v.acct 0).cpu_ticks = 1 :=
  ⟨(cpu_time_running tickBoot_init _ (by decide +kernel)).mpr (by decide +kernel),
    by decide +kernel⟩

end Xv6.Sched
