import Xv6.Sched.Ticks

/-!
# Xv6.Sched.Topfree — CPU time and lifetime

No process is charged for more ticks than it has lived through: the base is never before
`allocproc`, and the intervals that `usertrap` charges do not overlap. So the percentages that
topfree computes are percentages. It copies `cpu_ticks` out of the process table, one slot at a
time, and reads the clock after that.
-/

namespace Xv6.Sched

open Lib

/-- `pct_x100` in `format_cpu`. -/
def pctX100 (ticks : BitVec 64) (up_ticks : BitVec 32) : BitVec 64 :=
  let up_ticks := if up_ticks.toInt ≤ 0 then 1 else up_ticks
  (ticks * 100 * 100).sdiv (up_ticks.signExtend 64)

/-- The size of topfree's array. -/
def MAXPROCS : Nat := 64

/-- A round of topfree: in `getallprocs` before slot `k`, before `uptime`, and after it. -/
inductive TopPc where
  | scan (k : Nat) (procs : List (BitVec 64))
  | uptime (procs : List (BitVec 64))
  | format (procs : List (BitVec 64)) (up_ticks : BitVec 32)
deriving DecidableEq, Repr

variable {P : Protocol} {C : Type} {n : Nat}

structure TopSt (P : Protocol) (C : Type) (n : Nat) where
  sys : TickSt P C n
  top : TopPc

inductive TopLbl (C : Type) (n : Nat) where
  | sys (l : TickLbl C n)
  | top

def topRound (u : TickSt P C n) : TopPc → Option TopPc
  | .scan k procs =>
    if h : k < n ∧ procs.length < MAXPROCS then
      -- acquire(&p->lock)
      if u.base.plock ⟨k, h.1⟩ ≠ none then none
      else if (u.base.proc ⟨k, h.1⟩).state ≠ .unused then
        some (.scan (k + 1) (procs ++ [(u.acct ⟨k, h.1⟩).cpu_ticks]))
      else some (.scan (k + 1) procs)
    else some (.uptime procs)
  | .uptime procs => some (.format procs u.ticks)
  | .format .. => some (.scan 0 [])

def topStep [DecidableEq C] (init : Fin n) (s : TopSt P C n) : TopLbl C n → Option (TopSt P C n)
  | .sys l => (tickStep init s.sys l).map fun u => { s with sys := u }
  | .top => (topRound s.sys s.top).map fun pc => { s with top := pc }

def topSys (P : Protocol) (C : Type) [DecidableEq C] (init : Fin n) :
    System (TopSt P C n) (TopLbl C n) :=
  ⟨fun s => tickInit init s.sys ∧ s.top = .scan 0 [], topStep init⟩

section
variable [DecidableEq C] {init p : Fin n} {u v : TickSt P C n} {s t : TopSt P C n}

/-! ## Lifetime -/

variable {l : TickLbl C n}

theorem tickStep_elapsed (hs : tickStep init u l = some v) :
    u.elapsed ≤ v.elapsed := by
  rcases tickStep_cases hs with ⟨l', -, -, -, -, helapsed, -⟩ | ⟨-, -, -, helapsed, -⟩ |
    ⟨p, -, -, rfl⟩ | ⟨c, p, -, -, -, rfl⟩
  · rw [helapsed]
  · omega
  · exact Nat.le_refl _
  · exact Nat.le_refl _

/-- As long as the word has not wrapped, all is charged within the lifetime. -/
structure Timed (u : TickSt P C n) : Prop where
  inv : TickInv u
  bounded : u.elapsed < 2 ^ 32 → Bounded u

theorem tickInit_timed (h : tickInit init u) : Timed u :=
  ⟨tickInit_inv h, fun _ => tickInit_bounded h⟩

theorem tickStep_timed (h : Timed u) (hs : tickStep init u l = some v) :
    Timed v := by
  refine ⟨tickStep_inv h.inv hs, fun hlt => ?_⟩
  have hb := h.bounded (lt_of_le_of_lt (tickStep_elapsed hs) hlt)
  exact hb.step h.inv hs hlt

/-- A step of the system does not take back what was charged to a live process. -/
theorem tickStep_charge_mono (h : Timed u) (hlt : u.elapsed < 2 ^ 32)
    (hs : tickStep init u l = some v) (hp : (u.base.proc p).state ≠ .unused) :
    (u.acct p).cpu_ticks.toNat ≤ (v.acct p).cpu_ticks.toNat := by
  have hb := h.bounded hlt
  rcases tickStep_cases hs with ⟨l', -, -, -, -, -, hacct⟩ | ⟨-, -, -, -, hacct⟩ |
    ⟨q, -, -, rfl⟩ | ⟨c, q, -, -, hmode, rfl⟩
  · rw [hacct, if_neg fun hno => hp hno.1]
  · rw [hacct]
    exact Nat.le_refl _
  · rw [u.set_acct]
    split
    · next hpq =>
      rw [hpq, Acct.userret]
      split <;> exact Nat.le_refl _
    · exact Nat.le_refl _
  · rw [u.set_acct]
    split
    · next hpq =>
      subst hpq
      -- the sum is within the lifetime, so the addition does not wrap
      rw [(hb.within p hp).usertrap_toNat hmode (hb.small h.inv p)]
      exact Nat.le_add_right _ _
    · exact Nat.le_refl _

/-! ## Percentages -/

/-- The percentage of a part is at most a hundred. -/
theorem pctX100_range {ticks : BitVec 64} {up : BitVec 32} (hle : ticks.toNat ≤ up.toNat)
    (hup : up.toNat < 2 ^ 31) : 0 ≤ (pctX100 ticks up).toInt ∧ (pctX100 ticks up).toInt ≤ 10000 := by
  -- the divisor, which is not 0, and nothing overflows
  have hdiv : ∃ d : BitVec 64, (if up.toInt ≤ 0 then 1 else up).signExtend 64 = d ∧
      0 < d.toNat ∧ d.toNat < 2 ^ 31 ∧ ticks.toNat ≤ d.toNat := by
    refine ⟨_, rfl, ?_⟩
    have hint : up.toInt = up.toNat := BitVec.toInt_eq_toNat_of_lt (by omega)
    split
    · next h0 =>
      rw [hint] at h0
      have hone : ((1 : BitVec 32).signExtend 64).toNat = 1 := by decide
      omega
    · next hpos =>
      rw [hint] at hpos
      have hmsb : up.msb = false := BitVec.msb_eq_false_iff_two_mul_lt.mpr (by omega)
      rw [BitVec.signExtend_eq_setWidth_of_msb_false hmsb, toNat_widen]
      omega
  rcases hdiv with ⟨d, hd, hpos, hlt, htd⟩
  have hmul : (ticks * 100 * 100).toNat = ticks.toNat * 100 * 100 := by
    rw [BitVec.toNat_mul, BitVec.toNat_mul]
    show ticks.toNat * 100 % 2 ^ 64 * 100 % 2 ^ 64 = _
    rw [Nat.mod_eq_of_lt (show ticks.toNat * 100 < 2 ^ 64 by omega), Nat.mod_eq_of_lt (by omega)]
  have hquot : (pctX100 ticks up).toNat = ticks.toNat * 100 * 100 / d.toNat := by
    have hnum : (ticks * 100 * 100).msb = false := BitVec.msb_eq_false_iff_two_mul_lt.mpr (by omega)
    have hden : d.msb = false := BitVec.msb_eq_false_iff_two_mul_lt.mpr (by omega)
    unfold pctX100
    simp only [hd]
    rw [BitVec.sdiv_eq, hnum, hden]
    show ((ticks * 100 * 100).udiv d).toNat = _
    rw [BitVec.udiv_eq, BitVec.toNat_udiv, hmul]
  have hle : ticks.toNat * 100 * 100 / d.toNat ≤ 10000 := by
    refine Nat.div_le_of_le_mul ?_
    omega
  rw [BitVec.toInt_eq_toNat_of_lt (by omega), hquot]
  omega

/-! ## Rounds of topfree -/

/-- What has been copied was charged before the clock is read. -/
def TopPc.Fresh (u : TickSt P C n) : TopPc → Prop
  | .scan _ procs | .uptime procs => ∀ x ∈ procs, x.toNat ≤ u.elapsed
  | .format procs up => up.toNat < 2 ^ 31 ∧ ∀ x ∈ procs, x.toNat ≤ up.toNat

structure TopInv (s : TopSt P C n) : Prop where
  timed : Timed s.sys
  fresh : s.sys.elapsed < 2 ^ 31 → s.top.Fresh s.sys

omit [DecidableEq C] in
theorem TopPc.Fresh.mono {pc : TopPc} (h : pc.Fresh u) (hle : u.elapsed ≤ v.elapsed) :
    pc.Fresh v := by
  cases pc with
  | scan k procs => exact fun x hx => le_trans (h x hx) hle
  | uptime procs => exact fun x hx => le_trans (h x hx) hle
  | format procs up => exact h

omit [DecidableEq C] in
theorem topRound_fresh {pc pc' : TopPc} (ht : Timed u) (hlt : u.elapsed < 2 ^ 31)
    (h : pc.Fresh u) (hs : topRound u pc = some pc') : pc'.Fresh u := by
  have hb := ht.bounded (by omega)
  cases pc with
  | scan k procs =>
    simp only [topRound] at hs
    split at hs
    case isTrue hk =>
      split at hs
      · cases hs
      split at hs
      case isTrue hlive =>
        cases hs
        intro x hx
        rcases List.mem_append.mp hx with hx | hx
        · exact h x hx
        · rw [List.mem_singleton.mp hx]
          exact le_trans (hb.within _ hlive).charged (ht.inv.life _)
      case isFalse =>
        cases hs
        exact h
    case isFalse =>
      cases hs
      exact h
  | uptime procs =>
    cases hs
    refine ⟨by rw [hb.ticks]; exact hlt, fun x hx => ?_⟩
    rw [hb.ticks]
    exact h x hx
  | format procs up =>
    cases hs
    rintro x ⟨⟩

theorem topStep_inv {l : TopLbl C n} (h : TopInv s) (hs : topStep init s l = some t) :
    TopInv t := by
  cases l with
  | sys l =>
    rcases Option.map_eq_some_iff.mp hs with ⟨u, hu, rfl⟩
    refine ⟨tickStep_timed h.timed hu, fun hlt => ?_⟩
    have hle := tickStep_elapsed hu
    exact (h.fresh (lt_of_le_of_lt hle hlt)).mono hle
  | top =>
    rcases Option.map_eq_some_iff.mp hs with ⟨pc, hpc, rfl⟩
    exact ⟨h.timed, fun hlt => topRound_fresh h.timed hlt (h.fresh hlt) hpc⟩

/-- In a run with fewer than 2^31 ticks, `cpu_ticks` of a live process is at most the number of
ticks it has lived through and never decreases, and topfree computes percentages up to 100.00. -/
theorem cpu_time_lifetime (h : (topSys P C init).Reachable s) (hlt : s.sys.elapsed < 2 ^ 31) :
    (∀ p, (s.sys.base.proc p).state ≠ .unused →
      (s.sys.acct p).cpu_ticks.toNat ≤ (s.sys.acct p).life) ∧
    (∀ l t, topStep init s l = some t → ∀ p, (s.sys.base.proc p).state ≠ .unused →
      (s.sys.acct p).cpu_ticks.toNat ≤ (t.sys.acct p).cpu_ticks.toNat) ∧
    (∀ procs up, s.top = .format procs up → ∀ x ∈ procs,
      0 ≤ (pctX100 x up).toInt ∧ (pctX100 x up).toInt ≤ 10000) := by
  have hinv : TopInv s := by
    refine h.invariant TopInv ?_ fun _ _ _ hi hs => topStep_inv hi hs
    rintro s ⟨hinit, htop⟩
    refine ⟨tickInit_timed hinit, fun _ => ?_⟩
    rw [htop]
    rintro x ⟨⟩
  refine ⟨fun p hp => ?_, fun l t hs p hp => ?_, fun procs up htop x hx => ?_⟩
  · exact ((hinv.timed.bounded (by omega)).within p hp).charged
  · cases l with
    | sys l =>
      rcases Option.map_eq_some_iff.mp hs with ⟨u, hu, rfl⟩
      exact tickStep_charge_mono hinv.timed (by omega) hu hp
    | top =>
      rcases Option.map_eq_some_iff.mp hs with ⟨pc, -, rfl⟩
      exact Nat.le_refl _
  · have hfresh := hinv.fresh hlt
    rw [htop] at hfresh
    exact pctX100_range (hfresh.2 x hx) hfresh.1

end

/-- A process is charged for two ticks, with a third one between `getallprocs` and `uptime`. -/
def topRun : List (TopLbl Unit 2) :=
  List.flatten [List.map TopLbl.sys startRun,
    [.sys .clockintr, .sys .clockintr, .sys (.usertrap ()), .top, .top, .top, .sys .clockintr, .top]]

theorem cpu_time_lifetime_topRun :
    ∃ s, (topSys sleeplock Unit (0 : Fin 2)).Reachable s ∧ s.sys.elapsed = 3 ∧
      s.top = .format [2] 3 ∧ 0 ≤ (pctX100 2 3).toInt ∧ (pctX100 2 3).toInt ≤ 10000 := by
  have hinit : (topSys sleeplock Unit (0 : Fin 2)).Init ⟨tickBoot, .scan 0 []⟩ :=
    ⟨tickBoot_init, rfl⟩
  obtain ⟨s, hreach, helapsed, htop⟩ : ∃ s, (topSys sleeplock Unit (0 : Fin 2)).Reachable s ∧
      s.sys.elapsed = 3 ∧ s.top = .format [2] 3 :=
    System.reaches hinit topRun (by decide +kernel)
  exact ⟨s, hreach, helapsed, htop, (cpu_time_lifetime hreach (by omega)).2.2 [2] 3 htop 2 (by simp)⟩

end Xv6.Sched
