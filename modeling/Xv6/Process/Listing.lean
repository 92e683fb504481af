import Xv6.Process.Lineage

/-!
# Xv6.Process.Listing — `kernel_getallprocs` next to `kfork`, `kexit` and `kwait`

Any number of processes scan the table while the others run. A scan holds one slot's lock at a
time and takes no `wait_lock`: `fill_u_proc` follows `p->parent` and reads the parent's fields
with nothing but the child's lock. Every read is an action of its own, and an action of the
process table that needs the lock of a slot waits while a scan holds it.

The parent stays what it was for another reason. An exiting parent first gives the child to
`init` and then walks the table in `wakeup(initproc)`, which stops at the child's slot for as
long as the scan holds its lock (`Guarded`).
-/

namespace Xv6.Process

open Lib Function

variable {n : Nat} {init : Fin n}

/-! ## Model -/

/-- `enum u_procstate`. -/
inductive UProcState where
  | unused | used | sleeping | runnable | running | zombie
deriving DecidableEq, Repr

/-- `struct u_proc_info`. -/
structure UProcInfo where
  pid : BitVec 32
  state : UProcState
  is_killed : Bool
deriving DecidableEq, Repr

/-- `struct u_proc`. -/
structure UProc where
  me : UProcInfo
  parent : UProcInfo
deriving DecidableEq, Repr

/-- A record after `memset(up, 0, sizeof(struct u_proc))`. -/
def UProc.zero : UProc := ⟨⟨0, .unused, false⟩, ⟨0, .unused, false⟩⟩

/-- The `switch` of `fill_u_proc`. -/
def ProcState.toU : ProcState → UProcState
  | .unused => .unused
  | .used => .used
  | .sleeping => .sleeping
  | .runnable => .runnable
  | .running => .running
  | .zombie => .zombie

/-- The states of a process that can still run, as user space sees them. -/
def UProcState.live : UProcState → Bool
  | .sleeping | .runnable | .running => true
  | .unused | .used | .zombie => false

/-- The pointer `parent` of `fill_u_proc`; `uid` and `pid` are history: the process that was
the child's parent when the pointer was read. -/
structure Parent (n : Nat) where
  slot : Fin n
  uid : Nat
  pid : BitVec 32
deriving DecidableEq, Repr

/-- Where a visit of the scan is, from `acquire(&p->lock)` to `release(&p->lock)`. -/
inductive Stage (n : Nat) where
  | me
  -- p->parent is read twice, by the test and by the assignment
  | test
  | parent
  | pid (r : Parent n)
  | killed (r : Parent n)
  | state (r : Parent n)
  | copy (r : Option (Parent n))
  | release (r : Option (Parent n)) (ok : Bool)
deriving DecidableEq, Repr

/-- The locals of `kernel_getallprocs`. -/
structure Visit (n : Nat) where
  p : Fin n
  count : Nat
  max : Int
  up : UProc
deriving DecidableEq, Repr

inductive Scan (n : Nat) where
  | idle
  | next (k count : Nat) (max : Int)
  | visit (stage : Stage n) (x : Visit n)
deriving DecidableEq, Repr

/-- The slot whose lock a scan holds. -/
def Scan.holds : Scan n → Option (Fin n)
  | .visit _ x => some x.p
  | .idle | .next .. => none

/-- A record that was copied to user space, with the slot it is about. -/
structure Listed (n : Nat) where
  child : Fin n
  up : UProc
  parent : Option (Parent n)
deriving DecidableEq, Repr

/-- The process table, the scans, what they returned last and the records they delivered;
`faulted` is set by a null dereference. -/
structure ListSt (n : Nat) where
  base : St n
  scan : Fin n → Scan n
  ret : Fin n → Option Int
  listed : List (Listed n)
  faulted : Bool

inductive ListLbl (n : Nat) where
  | base (l : Lbl n)
  | getallprocs (v : Fin n) (max : Int)
  | scan (v : Fin n) (ok : Bool)
deriving DecidableEq, Repr

def ListSt.goto (s : ListSt n) (v : Fin n) (a : Scan n) : ListSt n :=
  { s with scan := update s.scan v a }

/-- The call returns `x`. -/
def ListSt.leave (s : ListSt n) (v : Fin n) (x : Int) : ListSt n :=
  { s.goto v .idle with ret := update s.ret v (some x) }

/-- No scan holds the lock of slot `k`. -/
def ListSt.Free (s : ListSt n) (k : Fin n) : Prop :=
  ∀ v, (s.scan v).holds ≠ some k

instance (s : ListSt n) (k : Fin n) : Decidable (s.Free k) :=
  inferInstanceAs (Decidable (∀ v, (s.scan v).holds ≠ some k))

/-- The test of `fill_u_proc`, the read of the pointer and the reads through it. -/
def fillStep (s : ListSt n) (v : Fin n) (x : Visit n) : Stage n → ListSt n
  | .me =>
    if (s.base.proc x.p).state = .unused then s.goto v (.visit (.release none true) x)
    else
      s.goto v (.visit .test { x with
        up := { UProc.zero with
          me := ⟨(s.base.proc x.p).pid, (s.base.proc x.p).state.toU, (s.base.proc x.p).killed⟩ } })
  | .test =>
    if (s.base.proc x.p).parent = none then
      s.goto v (.visit (.copy none) { x with up.parent.pid := -1 })
    else s.goto v (.visit .parent x)
  | .parent =>
    match (s.base.proc x.p).parent with
    | none => { s with faulted := true }
    | some q =>
      s.goto v (.visit (.pid ⟨q, (s.base.proc q).uid, (s.base.proc q).pid⟩) x)
  | .pid r =>
    s.goto v (.visit (.killed r) { x with up.parent.pid := (s.base.proc r.slot).pid })
  | .killed r =>
    s.goto v (.visit (.state r) { x with up.parent.is_killed := (s.base.proc r.slot).killed })
  | .state r =>
    match (s.base.proc r.slot).state with
    -- this case assigns to the parent's own state, and leaves the record's at zero
    | .used =>
      { s.goto v (.visit (.copy (some r)) x) with
        base := s.base.modify r.slot fun q => { q with state := .used } }
    | st => s.goto v (.visit (.copy (some r)) { x with up.parent.state := st.toU })
  | .copy _ | .release .. => s

/-- `copyout`, the end of a visit, and the loop. -/
def scanStep (s : ListSt n) (v : Fin n) (ok : Bool) : Option (ListSt n) :=
  match s.scan v with
  | .idle => none
  | .next k count max =>
    if h : k < n then
      if (count : Int) < max then
        if s.Free ⟨k, h⟩ then some (s.goto v (.visit .me ⟨⟨k, h⟩, count, max, .zero⟩)) else none
      else some (s.leave v count)
    else some (s.leave v count)
  | .visit (.copy r) x =>
    if ok then
      some { s.goto v (.visit (.release r true) { x with count := x.count + 1 }) with
        listed := ⟨x.p, x.up, r⟩ :: s.listed }
    else some (s.goto v (.visit (.release r false) x))
  | .visit (.release _ fine) x =>
    some (if fine then s.goto v (.next (x.p + 1) x.count x.max) else s.leave v (-1))
  | .visit stage x => some (fillStep s v x stage)

/-- What a process may do while its scan is going on: be taken off the CPU between two slots,
and be put back. -/
def ListSt.Idle (s : ListSt n) : Lbl n → Prop
  | .schedule p | .yield p => (s.scan p).holds = none
  | .wakeOther _ _ => True
  | l => s.scan l.actor = .idle

instance (s : ListSt n) : (l : Lbl n) → Decidable (s.Idle l)
  | .schedule p | .yield p => inferInstanceAs (Decidable ((s.scan p).holds = none))
  | .wakeOther _ _ => instDecidableTrue
  | .run p _ | .fork p | .exit p _ | .wait p _ | .kill p _ | .setkilled p | .sleep p _ =>
    inferInstanceAs (Decidable (s.scan p = .idle))

/-- The locks an action of the process table takes are not held by a scan. -/
def ListSt.Unlocked (s : ListSt n) (l : Lbl n) : Prop :=
  ∀ k ∈ l.needs s.base, s.Free k

instance (s : ListSt n) (l : Lbl n) : Decidable (s.Unlocked l) :=
  inferInstanceAs (Decidable (∀ k ∈ l.needs s.base, s.Free k))

/-- A process that executes kernel code outside the functions of the process table. -/
def ListSt.Runs (s : ListSt n) (v : Fin n) : Prop :=
  ¬ s.base.panicked ∧ ¬ s.faulted ∧ (s.base.proc v).state = .running ∧ s.base.pc v = .user

instance (s : ListSt n) (v : Fin n) : Decidable (s.Runs v) :=
  inferInstanceAs (Decidable (_ ∧ _))

def listStep (init : Fin n) (s : ListSt n) : ListLbl n → Option (ListSt n)
  | .base l =>
    if ¬ s.faulted ∧ s.Idle l ∧ s.Unlocked l then
      (step init s.base l).map fun b => { s with base := b }
    else none
  | .getallprocs v max =>
    if s.Runs v ∧ s.scan v = .idle then some (s.goto v (.next 0 0 max)) else none
  | .scan v ok => if s.Runs v then scanStep s v ok else none

def listBoot (init : Fin n) : ListSt n := ⟨boot init, fun _ => .idle, fun _ => none, [], false⟩

def listSys (init : Fin n) : System (ListSt n) (ListLbl n) :=
  ⟨fun s => s = listBoot init, listStep init⟩

/-! ## The parent that was read -/

/-- The parent pointer that a visit has read. -/
def Stage.ref : Stage n → Option (Parent n)
  | .pid r | .killed r | .state r => some r
  | .copy r | .release r _ => r
  | .me | .test | .parent => none

/-- `r` was the parent of the process in slot `c`, and is still alive: it is the parent now,
or it has given the child away and not got past the child's slot in `wakeup(initproc)`. -/
structure Guarded (s : St n) (c : Fin n) (r : Parent n) : Prop where
  ne : r.slot ≠ c
  alive : s.pc r.slot ≠ .dead
  uid : (s.proc r.slot).uid = r.uid
  pid : (s.proc r.slot).pid = r.pid
  stays : (s.proc c).parent = some r.slot ∨
    ∃ status j, s.pc r.slot = .exitWakeInit status c j ∧ j ≤ c

variable {l : Lbl n}

/-- No action without the child's lock ends it. -/
theorem Guarded.step {s t : St n} {c : Fin n} {r : Parent n} (h : Guarded s c r) (hi : Inv init s)
    (hl : Lineage init s) (hs : step init s l = some t) (hlock : l.needs s ≠ some c) :
    Guarded t c r := by
  have hids := step_ids hi hs h.alive
  -- the child is still there, or its parent has just begun to wake init
  have hstays : (t.proc c).parent = some r.slot ∨
      ∃ status j, t.pc r.slot = .exitWakeInit status c j ∧ j ≤ c := by
    rcases h.stays with hparent | ⟨status, j, hpc, hj⟩
    · rcases step_reparents hs c with heq | ⟨p, hp, -⟩ | ⟨p, status, -, hold, -, hnext⟩ | ⟨-, hneeds⟩
      · exact .inl (heq.trans hparent)
      · rw [hl.fresh p c hp] at hparent
        cases hparent
      · rw [hparent] at hold
        cases hold
        exact .inr ⟨status, 0, hnext, Nat.zero_le _⟩
      · exact absurd hneeds hlock
    · rcases (step_places hi hs).wake r.slot status c j hpc with hsame | ⟨hactor, hnext | hn⟩
      · exact .inr ⟨status, j, hsame, hj⟩
      · -- the visit of the child's slot needs the lock that the scan holds
        refine .inr ⟨status, j + 1, hnext, lt_of_le_of_ne hj fun e => hlock ?_⟩
        subst e
        rw [← hactor] at hpc hnext
        exact wake_needs hs hpc hnext (hactor ▸ h.ne)
      · exact absurd c.isLt (by omega)
  refine ⟨h.ne, ?_, hids.1.trans h.uid, hids.2.trans h.pid, hstays⟩
  rcases hstays with hparent | ⟨status, j, hpc, -⟩
  · exact (step_inv hi hs).parent_live c r.slot hparent
  · rw [hpc]
    exact nofun

/-- A parent field that is set stays set while the slot's lock is held. -/
theorem parent_stays {s t : St n} {c : Fin n} (hs : step init s l = some t)
    (hlock : l.needs s ≠ some c) (h : (s.proc c).parent.isSome = true) :
    (t.proc c).parent.isSome = true := by
  rcases step_reparents hs c with heq | ⟨p, -, -, hnew⟩ | ⟨p, status, -, -, hnew, -⟩ | ⟨-, hneeds⟩
  · rwa [heq]
  · rw [hnew]
    rfl
  · rw [hnew]
    rfl
  · exact absurd hneeds hlock

/-! ## Records -/

/-- A record agrees with the pointer that was read. -/
def Reports (up : UProc) : Option (Parent n) → Prop
  | none => up.parent.pid = -1
  | some r => up.parent.pid = r.pid ∧ up.parent.state.live = true

/-- What a visit has put into its record. -/
def Stage.fills (up : UProc) : Stage n → Prop
  | .killed r | .state r => up.parent.pid = r.pid
  | .copy r => Reports up r
  | _ => True

/-- What holds of a visit of slot `x.p`. -/
structure VisitOk (s : St n) (stage : Stage n) (x : Visit n) : Prop where
  tested : stage = .parent → (s.proc x.p).parent.isSome = true
  guarded : ∀ r, stage.ref = some r → Guarded s x.p r
  fills : stage.fills x.up

structure ListInv (init : Fin n) (s : ListSt n) : Prop where
  base : Inv init s.base
  lineage : Lineage init s.base
  visit : ∀ v stage x, s.scan v = .visit stage x → VisitOk s.base stage x
  listed : ∀ e ∈ s.listed, Reports e.up e.parent
  faulted : s.faulted = false

section
variable {s t : ListSt n} {v : Fin n} {a : Scan n}

/-- A scan goes on, and the process table stays as it is. -/
theorem ListInv.goto (h : ListInv init s) (hscan : t.scan = update s.scan v a)
    (ha : ∀ stage x, a = .visit stage x → VisitOk s.base stage x) (hbase : t.base = s.base)
    (hlisted : ∀ e ∈ t.listed, Reports e.up e.parent) (hfault : t.faulted = s.faulted) :
    ListInv init t := by
  refine ⟨hbase ▸ h.base, hbase ▸ h.lineage, ?_, hlisted, hfault.trans h.faulted⟩
  intro w stage x hw
  rw [hbase]
  by_cases hv : w = v
  · rw [hscan, hv, update_self] at hw
    exact ha stage x hw
  · rw [hscan, update_of_ne hv] at hw
    exact h.visit w stage x hw

/-- A scan that holds no lock has nothing to keep. -/
theorem visitOk_of_not_holds {b : St n} (ha : a.holds = none) (stage : Stage n) (x : Visit n)
    (heq : a = .visit stage x) : VisitOk b stage x := by
  subst heq
  cases ha

theorem ListInv.between (h : ListInv init s) (ha : a.holds = none) :
    ListInv init (s.goto v a) :=
  h.goto rfl (visitOk_of_not_holds ha) rfl h.listed rfl

theorem ListInv.leave (h : ListInv init s) (y : Int) : ListInv init (s.leave v y) :=
  h.goto (a := .idle) rfl (visitOk_of_not_holds rfl) rfl h.listed rfl

/-- A turn within a visit. -/
theorem ListInv.within {stage : Stage n} {x : Visit n} (h : ListInv init s)
    (hok : VisitOk s.base stage x) : ListInv init (s.goto v (.visit stage x)) := by
  refine h.goto rfl ?_ rfl h.listed rfl
  rintro stage' x' heq
  cases heq
  exact hok

theorem toU_live {st : ProcState} (h : st.live = true) : st.toU.live = true := by
  cases st <;> first | rfl | cases h

section
variable (h : ListInv init s)
include h

theorem fillStep_inv {stage : Stage n} {x : Visit n} (hv : s.scan v = .visit stage x) :
    ListInv init (fillStep s v x stage) := by
  have hok := h.visit v stage x hv
  cases stage with
  | me =>
    simp only [fillStep]
    split
    · exact h.within ⟨nofun, nofun, trivial⟩
    · exact h.within ⟨nofun, nofun, trivial⟩
  | test =>
    simp only [fillStep]
    split
    case isTrue => exact h.within ⟨nofun, nofun, rfl⟩
    case isFalse hne => exact h.within ⟨fun _ => Option.isSome_iff_ne_none.mpr hne, nofun, trivial⟩
  | parent =>
    simp only [fillStep]
    cases hparent : (s.base.proc x.p).parent with
    | none =>
      have hsome := hok.tested rfl
      rw [hparent] at hsome
      cases hsome
    | some q =>
      refine h.within ⟨nofun, ?_, trivial⟩
      rintro r hr
      cases hr
      exact ⟨fun e => h.lineage.ne_self x.p (e ▸ hparent), h.base.parent_live _ _ hparent, rfl, rfl,
        .inl hparent⟩
  | pid r =>
    have hg := hok.guarded r rfl
    refine h.within ⟨nofun, ?_, hg.pid⟩
    rintro r' hr
    cases hr
    exact hg
  | killed r => exact h.within ⟨nofun, hok.guarded, hok.fills⟩
  | state r =>
    have hg := hok.guarded r rfl
    have hlive := (h.base.live r.slot).mpr hg.alive
    -- the pointer leads to a live process, so the stray assignment is never made
    have hturn : ListInv init (s.goto v (.visit (.copy (some r))
        { x with up.parent.state := (s.base.proc r.slot).state.toU })) :=
      h.within ⟨nofun, hok.guarded, ⟨hok.fills, toU_live hlive⟩⟩
    cases hst : (s.base.proc r.slot).state <;> rw [hst] at hlive hturn <;>
      first | (cases hlive; done) | simpa only [fillStep, hst] using hturn
  | copy r | release r fine => exact h

theorem scanStep_inv {ok : Bool} (hs : scanStep s v ok = some t) :
    ListInv init t := by
  unfold scanStep at hs
  split at hs
  case h_1 => cases hs
  case h_2 =>
    split at hs
    · split at hs
      · rcases of_ite_eq_some hs with ⟨-, rfl⟩
        exact h.within ⟨nofun, nofun, trivial⟩
      · cases hs
        exact h.leave _
    · cases hs
      exact h.leave _
  case h_3 r x hv =>
    have hok := h.visit v _ x hv
    split at hs
    · cases hs
      refine h.goto rfl ?_ rfl ?_ rfl
      · rintro stage x' heq
        cases heq
        exact ⟨nofun, hok.guarded, trivial⟩
      · intro e he
        rcases List.mem_cons.mp he with rfl | he
        · exact hok.fills
        · exact h.listed e he
    · cases hs
      exact h.within ⟨nofun, hok.guarded, trivial⟩
  case h_4 =>
    cases hs
    split
    · exact h.between rfl
    · exact h.leave _
  case h_5 hv =>
    cases hs
    exact fillStep_inv h hv

/-- An action of the process table needs no lock that a scan holds. -/
theorem ListInv.base_step {b : St n} (hfree : s.Unlocked l) (hs : step init s.base l = some b) :
    ListInv init { s with base := b } := by
  have hlock : ∀ v stage x, s.scan v = .visit stage x → l.needs s.base ≠ some x.p := by
    intro v stage x hv hneeds
    apply hfree x.p hneeds v
    rw [hv]
    rfl
  refine ⟨step_inv h.base hs, h.lineage.step h.base hs, ?_, h.listed, h.faulted⟩
  intro v stage x hv
  have hok := h.visit v stage x hv
  exact ⟨fun e => parent_stays hs (hlock v stage x hv) (hok.tested e),
    fun r hr => (hok.guarded r hr).step h.base h.lineage hs (hlock v stage x hv), hok.fills⟩

theorem listStep_inv {l : ListLbl n} (hs : listStep init s l = some t) :
    ListInv init t := by
  cases l with
  | base l =>
    simp only [listStep, Option.ite_none_right_eq_some, Option.map_eq_some_iff] at hs
    rcases hs with ⟨⟨-, -, hfree⟩, b, hb, rfl⟩
    exact h.base_step hfree hb
  | getallprocs v max =>
    simp only [listStep, Option.ite_none_right_eq_some, Option.some.injEq] at hs
    rcases hs with ⟨-, rfl⟩
    exact h.between rfl
  | scan v ok =>
    simp only [listStep, Option.ite_none_right_eq_some] at hs
    exact scanStep_inv h hs.2

end

theorem listReachable_inv (h : (listSys init).Reachable s) : ListInv init s := by
  refine System.Reachable.invariant (ListInv init) ?_ ?_ h
  · rintro s rfl
    refine ⟨boot_inv init, boot_lineage init, ?_, ?_, rfl⟩
    · exact fun _ => visitOk_of_not_holds rfl
    · intro e he
      cases he
  · exact fun s l t hi hs => listStep_inv hi hs

/-! ## Main theorem -/

/-- The assignment takes the child's `p->parent`. From there to the release of `p->lock` the
parent that was read is alive in its slot, under its pid, and is the child's parent still or has
just given it to `init`; a record that names a parent names this one, in a state that a process
can run from. -/
theorem listing_parent (h : (listSys init).Reachable s) :
    (∀ v ok x t, s.scan v = .visit .parent x → listStep init s (.scan v ok) = some t →
      ∃ q, (s.base.proc x.p).parent = some q ∧
        t.scan v = .visit (.pid ⟨q, (s.base.proc q).uid, (s.base.proc q).pid⟩) x) ∧
    (∀ v stage x r, s.scan v = .visit stage x → stage.ref = some r →
      (s.base.proc r.slot).state.live = true ∧ (s.base.proc r.slot).uid = r.uid ∧
        (s.base.proc r.slot).pid = r.pid ∧
        ((s.base.proc x.p).parent = some r.slot ∨
          ∃ status j, s.base.pc r.slot = .exitWakeInit status x.p j ∧ j ≤ x.p)) ∧
    (∀ e ∈ s.listed, e.up.parent.pid ≠ -1 → ∃ r, e.parent = some r ∧ e.up.parent.pid = r.pid ∧
      e.up.parent.state ≠ .unused ∧ e.up.parent.state ≠ .used ∧ e.up.parent.state ≠ .zombie) ∧
    s.faulted = false := by
  have hi := listReachable_inv h
  refine ⟨?_, ?_, ?_, hi.faulted⟩
  · intro v ok x t hv hs
    simp only [listStep, scanStep, hv, fillStep, Option.ite_none_right_eq_some,
      Option.some.injEq] at hs
    rcases hs with ⟨-, rfl⟩
    cases hparent : (s.base.proc x.p).parent with
    | none =>
      have hsome := (hi.visit v .parent x hv).tested rfl
      rw [hparent] at hsome
      cases hsome
    | some q => exact ⟨q, rfl, update_self _ _ _⟩
  · intro v stage x r hv hr
    have hg := (hi.visit v stage x hv).guarded r hr
    exact ⟨(hi.base.live r.slot).mpr hg.alive, hg.uid, hg.pid, hg.stays⟩
  intro e he hpid
  have hrep := hi.listed e he
  cases hparent : e.parent with
  | none =>
    rw [hparent] at hrep
    exact absurd hrep hpid
  | some r =>
    rw [hparent] at hrep
    refine ⟨r, rfl, hrep.1, ?_, ?_, ?_⟩ <;>
    · intro hst
      have hlive := hrep.2
      rw [hst] at hlive
      cases hlive

end

/-- `init` forks process 1, which forks process 2; while `init` lists the third slot, process 1
exits and comes as far as the lock of its child. -/
def exitRun : List (ListLbl 3) :=
  List.flatten [
    [.base (.schedule 0), .base (.fork 0)], List.replicate 4 (.base (.run 0 true)),
    [.base (.schedule 1), .base (.fork 1)], List.replicate 5 (.base (.run 1 true)),
    [.getallprocs 0 64], List.replicate 18 (.scan 0 true),
    [.base (.exit 1 0)], List.replicate 6 (.base (.run 1 true)),
    List.replicate 4 (.scan 0 true)]

theorem listing_parent_exitRun :
    ∃ s, (listSys (0 : Fin 3)).Reachable s ∧ (s.base.proc 2).parent = some 0 ∧
      s.base.pc 1 = .exitWakeInit 0 2 2 ∧
      s.listed.map (fun e => (e.up.me.pid, e.up.parent.pid)) = [(3, 2), (2, 1), (1, -1)] ∧
      (s.base.proc 1).state.live = true := by
  have hexec : ∃ s, (listSys (0 : Fin 3)).exec (listBoot 0) exitRun = some s ∧
      (s.base.proc 2).parent = some 0 ∧ s.base.pc 1 = .exitWakeInit 0 2 2 ∧
      s.listed.map (fun e => (e.up.me.pid, e.up.parent.pid)) = [(3, 2), (2, 1), (1, -1)] ∧
      ∃ x, s.scan 0 = .visit (.release (some ⟨1, 1, 2⟩) true) x :=
    ⟨_, rfl, rfl, rfl, rfl, _, rfl⟩
  rcases hexec with ⟨s, hs, hparent, hpc, hlisted, x, hscan⟩
  have hreach := (System.Reachable.init (S := listSys (0 : Fin 3)) rfl).exec hs
  exact ⟨s, hreach, hparent, hpc, hlisted,
    ((listing_parent hreach).2.1 0 _ x ⟨1, 1, 2⟩ hscan rfl).1⟩

end Xv6.Process
