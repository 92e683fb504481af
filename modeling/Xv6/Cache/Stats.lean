import Xv6.Block
import Xv6.Cache.Counters

/-!
# Xv6.Cache.Stats — sys_getmemstats beside the buffer cache

`sys_getmemstats` of kernel/sysproc.c loads the five counters one after the other, without
`bcache.lock`, while sessions look up blocks. The total of the lookups is loaded before the
number of hits, so hits that fall between the two loads are in the second and not in the
first. The pair delivered is consistent exactly when they are no more than the lookups that
had not hit before the first load.
-/

namespace Xv6.Cache

open Lib Function

/-- `struct u_memmory`; the fields are of type `long`, and compared as signed numbers. -/
structure Memstats where
  read_disk_counter : BitVec 64
  write_disk_counter : BitVec 64
  read_cache_counter : BitVec 64
  write_cache_counter : BitVec 64
  read_cache_hit_counter : BitVec 64
  free_cache : BitVec 64
  free_ram : BitVec 64
  free_disk : BitVec 64
deriving DecidableEq, Repr

/-- The field that `sys_getmemstats` assigns next. -/
inductive Stage where
  | idle | readDisk | writeDisk | readCache | writeCache | hit | ram | cache | disk | copyout
deriving DecidableEq, Repr

/-- A caller of `sys_getmemstats`, with the `struct` its last call delivered. `hits0` and
`missed` are history: the hits, and the lookups that were no hit, at its load of
`read_cache_counter`. -/
structure Reader where
  stage : Stage
  stats : Memstats
  delivered : Option Memstats
  hits0 : Nat
  missed : Nat
deriving DecidableEq, Repr

structure Snap (U V δ : Type) where
  base : St U δ
  reader : V → Reader

/-- A step of the cache, or of the caller `v`; what `count_free_ram` and `count_free_disk`
return, and whether `copyout` succeeds, come from outside. -/
inductive SnapLbl (U V δ : Type) where
  | base (l : Lbl U δ)
  | stat (v : V) (free : BitVec 64) (ok : Bool)

variable {U V δ : Type} [DecidableEq U]

/-- `count_free_cache`. -/
def countFreeCache (s : St U δ) : BitVec 64 :=
  BitVec.ofNat 64 (((List.finRange NBUF).filter fun i => (s.buf i).refcnt = 0).length * BSIZE)

/-- One assignment of `sys_getmemstats`, by its stage. -/
def Reader.next (s : St U δ) (free : BitVec 64) (ok : Bool) (r : Reader) : Option Reader :=
  match r.stage with
  | .idle => some { r with stage := .readDisk }
  | .readDisk => some { r with
      stage := .writeDisk, stats := { r.stats with read_disk_counter := s.read_disk_counter } }
  | .writeDisk => some { r with
      stage := .readCache, stats := { r.stats with write_disk_counter := s.write_disk_counter } }
  | .readCache => some { r with
      stage := .writeCache
      stats := { r.stats with read_cache_counter := s.read_cache_counter }
      hits0 := s.hits
      missed := s.misses + inflight s }
  | .writeCache => some { r with
      stage := .hit, stats := { r.stats with write_cache_counter := s.write_cahce_counter } }
  | .hit => some { r with
      stage := .ram, stats := { r.stats with read_cache_hit_counter := s.read_cache_hit_counter } }
  | .ram => some { r with stage := .cache, stats := { r.stats with free_ram := free } }
  | .cache =>
    if s.lock = none then
      some { r with stage := .disk, stats := { r.stats with free_cache := countFreeCache s } }
    else none
  | .disk => some { r with stage := .copyout, stats := { r.stats with free_disk := free } }
  | .copyout => some { r with
      stage := .idle, delivered := if ok then some r.stats else r.delivered }

section Step

variable [DecidableEq V]

def snapStep (s : Snap U V δ) : SnapLbl U V δ → Option (Snap U V δ)
  | .base l => (step s.base l).map fun b => { s with base := b }
  | .stat v free ok =>
    ((s.reader v).next s.base free ok).map fun r =>
      { s with reader := update s.reader v r }

def snapSys (U V δ : Type) [DecidableEq U] [DecidableEq V] :
    System (Snap U V δ) (SnapLbl U V δ) :=
  ⟨fun s => Init s.base ∧ ∀ v, (s.reader v).stage = .idle ∧ (s.reader v).delivered = none, snapStep⟩

end Step

/-- The hits since `v` loaded `read_cache_counter`. -/
def Snap.hitsSince (s : Snap U V δ) (v : V) : Nat := s.base.hits - (s.reader v).hits0

/-- The lookups counted so far. -/
def lookups (s : St U δ) : Nat := s.hits + s.misses + inflight s

/-- When a caller is about to load `read_cache_hit_counter`, no more lookups have hit since it
loaded `read_cache_counter` than lookups had missed, or were under way, before; and the
lookups fit in a `long`. -/
def StatOk (s : Snap U V δ) : SnapLbl U V δ → Prop
  | .base _ => True
  | .stat v _ _ => (s.reader v).stage = .hit →
      s.hitsSince v ≤ (s.reader v).missed ∧ lookups s.base < 2 ^ 63

instance (s : Snap U V δ) (l : SnapLbl U V δ) : Decidable (StatOk s l) :=
  match l with
  | .base _ => inferInstanceAs (Decidable True)
  | .stat v _ _ => inferInstanceAs (Decidable ((s.reader v).stage = .hit →
      s.hitsSince v ≤ (s.reader v).missed ∧ lookups s.base < 2 ^ 63))

/-! ## The loads -/

variable {s : St U δ}

theorem lookups_mono {t : St U δ} [Fintype U] (hi : Inv s) (hm : Moves s t) :
    s.hits ≤ t.hits ∧ lookups s ≤ lookups t := by
  cases hm with
  | call u dev blockno hpc hlock =>
    refine ⟨Nat.le_refl _, ?_⟩
    have hzero : inflight s = 0 := if_pos hlock
    unfold lookups
    rw [hzero]
    exact Nat.le_add_right _ _
  | hit u dev blockno i hpc =>
    refine ⟨Nat.le_succ _, ?_⟩
    unfold lookups
    rw [hi.inflight_one hpc]
    show s.hits + s.misses + 1 ≤ s.hits + 1 + s.misses + 0
    omega
  | miss u dev blockno i hpc =>
    refine ⟨Nat.le_refl _, ?_⟩
    unfold lookups
    rw [hi.inflight_one hpc]
    exact Nat.le_refl _
  | drop u i =>
    rcases brelse_counters s u i with ⟨-, -, -, -, hh, hmi, -⟩
    unfold lookups inflight
    rw [hh, hmi, (brelse_spec s u i).2.2.1]
    exact ⟨Nat.le_refl _, Nat.le_refl _⟩
  | _ => exact ⟨Nat.le_refl _, Nat.le_refl _⟩

/-- What a caller has in hand between its two loads. -/
def Reader.Loaded (s : St U δ) (r : Reader) : Prop :=
  r.stage = .writeCache ∨ r.stage = .hit →
    r.stats.read_cache_counter = BitVec.ofNat 64 (r.hits0 + r.missed) ∧ r.hits0 ≤ s.hits ∧
      r.hits0 + r.missed ≤ lookups s

variable {r : Reader}

omit [DecidableEq U] in
theorem Reader.Loaded.mono {t : St U δ} (h : r.Loaded s) (hh : s.hits ≤ t.hits)
    (hl : lookups s ≤ lookups t) : r.Loaded t := by
  intro hst
  rcases h hst with ⟨hw, hle, hle'⟩
  exact ⟨hw, le_trans hle hh, le_trans hle' hl⟩

omit [DecidableEq U] in
theorem Reader.Loaded.next {r' : Reader} {free : BitVec 64} {ok : Bool} (h : r.Loaded s)
    (hw : Words s) (hn : r.next s free ok = some r') : r'.Loaded s := by
  unfold Reader.next at hn
  split at hn
  case h_4 =>
    cases hn
    intro _
    refine ⟨?_, Nat.le_refl _, ?_⟩
    · show s.read_cache_counter = BitVec.ofNat 64 (s.hits + (s.misses + inflight s))
      rw [hw.read, Nat.add_assoc]
    · show s.hits + (s.misses + inflight s) ≤ lookups s
      unfold lookups
      omega
  case h_5 hst =>
    cases hn
    intro _
    exact h (.inl hst)
  case h_8 =>
    split at hn <;> cases hn
    rintro (h | h) <;> cases h
  all_goals
    cases hn
    rintro (h | h) <;> cases h

omit [DecidableEq U] in
/-- The pair in hand after the second load. -/
theorem Reader.Loaded.hit_le_iff (h : r.Loaded s) (hw : Words s) (hst : r.stage = .hit)
    (hlt : lookups s < 2 ^ 63) :
    s.read_cache_hit_counter.toInt ≤ r.stats.read_cache_counter.toInt ↔
      s.hits - r.hits0 ≤ r.missed := by
  have hlong : ∀ k < 2 ^ 63, (BitVec.ofNat 64 k).toInt = k := by
    intro k hk
    rw [BitVec.toInt_eq_toNat_of_lt] <;>
      rw [BitVec.toNat_ofNat, Nat.mod_eq_of_lt (by omega)]
    omega
  rcases h (.inr hst) with ⟨hread, hle, hle'⟩
  have hhits : s.hits < 2 ^ 63 := by
    unfold lookups at hlt
    omega
  rw [hread, hw.hit, hlong _ hhits, hlong _ (by omega)]
  omega

/-! ## Every run -/

section Runs

variable [DecidableEq V] [Fintype U]

structure SnapInv (s : Snap U V δ) : Prop where
  base : (sys U δ).Reachable s.base
  loaded : ∀ v, (s.reader v).Loaded s.base

theorem SnapInv.step {s t : Snap U V δ} {l : SnapLbl U V δ} (h : SnapInv s)
    (hs : snapStep s l = some t) : SnapInv t := by
  rcases reachable_tally h.base with ⟨hi, -, hw⟩
  cases l with
  | base l =>
    rcases Option.map_eq_some_iff.mp hs with ⟨b, hb, rfl⟩
    rcases lookups_mono hi (step_moves hb) with ⟨hh, hl⟩
    exact ⟨h.base.step l hb, fun v => (h.loaded v).mono hh hl⟩
  | stat v free ok =>
    rcases Option.map_eq_some_iff.mp hs with ⟨r, hr, rfl⟩
    refine ⟨h.base, fun v' => ?_⟩
    show (update s.reader v r v').Loaded s.base
    by_cases hv : v' = v
    · subst hv
      rw [update_self]
      exact (h.loaded v').next hw hr
    · rw [update_of_ne hv]
      exact h.loaded v'

omit [Fintype U] in
theorem SnapInv.init {s : Snap U V δ} (h : (snapSys U V δ).Init s) : SnapInv s := by
  refine ⟨.init h.1, fun v hst => ?_⟩
  rw [(h.2 v).1] at hst
  rcases hst with hst | hst <;> cases hst

/-- After both loads. -/
def Stage.late : Stage → Bool
  | .ram | .cache | .disk | .copyout => true
  | _ => false

/-- The pair of a caller that has made both loads, and the one it delivered last. -/
def Reader.Good (r : Reader) : Prop :=
  (r.stage.late = true → r.stats.read_cache_hit_counter.toInt ≤ r.stats.read_cache_counter.toInt) ∧
  ∀ m, r.delivered = some m → m.read_cache_hit_counter.toInt ≤ m.read_cache_counter.toInt

omit [DecidableEq V] in
theorem Reader.Good.next {s : Snap U V δ} {v : V} {r' : Reader} {free : BitVec 64} {ok : Bool}
    (h : (s.reader v).Good) (hi : SnapInv s) (hok : StatOk s (.stat v free ok))
    (hn : (s.reader v).next s.base free ok = some r') : r'.Good := by
  have hw := (reachable_tally hi.base).2.2
  unfold Reader.next at hn
  split at hn
  case h_6 hst =>
    cases hn
    refine ⟨fun _ => ?_, h.2⟩
    exact ((hi.loaded v).hit_le_iff hw hst (hok hst).2).mpr (hok hst).1
  case h_7 hst =>
    cases hn
    exact ⟨fun _ => h.1 (by rw [hst]; rfl), h.2⟩
  case h_8 hst =>
    split at hn <;> cases hn
    exact ⟨fun _ => h.1 (by rw [hst]; rfl), h.2⟩
  case h_9 hst =>
    cases hn
    exact ⟨fun _ => h.1 (by rw [hst]; rfl), h.2⟩
  case h_10 hst =>
    cases hn
    refine ⟨nofun, ?_⟩
    intro m hm
    cases ok with
    | true =>
      cases hm
      exact h.1 (by rw [hst]; rfl)
    | false => exact h.2 m hm
  all_goals
    cases hn
    exact ⟨nofun, h.2⟩

/-- `read_cache_hit_counter <= read_cache_counter` holds of what is delivered in every run whose
loads meet `StatOk`; and a load of the hits gives such a pair exactly when it meets it. -/
theorem memstats_hits_le_iff :
    (∀ s : Snap U V δ, (snapSys U V δ).ReachableBy StatOk s → ∀ v m,
      (s.reader v).delivered = some m → m.read_cache_hit_counter.toInt ≤ m.read_cache_counter.toInt) ∧
    (∀ (s t : Snap U V δ) v free ok, (snapSys U V δ).Reachable s → (s.reader v).stage = .hit →
      lookups s.base < 2 ^ 63 → snapStep s (.stat v free ok) = some t →
      ((t.reader v).stats.read_cache_hit_counter.toInt ≤
          (t.reader v).stats.read_cache_counter.toInt ↔
        s.hitsSince v ≤ (s.reader v).missed)) := by
  refine ⟨?_, ?_⟩
  · intro s hs v m hm
    have hgood : SnapInv s ∧ ∀ v, (s.reader v).Good := by
      refine hs.invariant (fun s => SnapInv s ∧ ∀ v, (s.reader v).Good) ?_ ?_
      · intro s h₀
        refine ⟨.init h₀, fun v => ⟨?_, ?_⟩⟩
        · rw [(h₀.2 v).1]
          exact nofun
        · rw [(h₀.2 v).2]
          exact nofun
      · intro s l t ⟨hi, hg⟩ hok hstep
        refine ⟨hi.step hstep, ?_⟩
        cases l with
        | base l =>
          rcases Option.map_eq_some_iff.mp hstep with ⟨b, hb, rfl⟩
          exact hg
        | stat v free ok =>
          rcases Option.map_eq_some_iff.mp hstep with ⟨r, hr, rfl⟩
          intro v'
          show (update s.reader v r v').Good
          by_cases hv : v' = v
          · subst hv
            rw [update_self]
            exact (hg v').next hi hok hr
          · rw [update_of_ne hv]
            exact hg v'
    exact (hgood.2 v).2 m hm
  · intro s t v free ok hs hst hlt hstep
    have hi : SnapInv s := hs.invariant SnapInv (fun _ h₀ => .init h₀) fun _ _ _ hi h => hi.step h
    rcases Option.map_eq_some_iff.mp hstep with ⟨r, hr, rfl⟩
    have hr' : r = { s.reader v with
        stage := .ram
        stats := { (s.reader v).stats with
          read_cache_hit_counter := s.base.read_cache_hit_counter } } := by
      simp only [Reader.next, hst] at hr
      exact (Option.some.inj hr).symm
    show (update s.reader v r v).stats.read_cache_hit_counter.toInt ≤
      (update s.reader v r v).stats.read_cache_counter.toInt ↔ _
    rw [update_self, hr']
    exact (hi.loaded v).hit_le_iff (reachable_tally hi.base).2.2 hst hlt

end Runs

/-! ## Two runs -/

/-- A session reads block 5 from the disk and gives it back. -/
def firstRead : List (SnapLbl Bool Unit Nat) :=
  [.base (.bread false 1 5), .base (.go false), .base (.go false), .base (.go false),
   .base (.done false 55), .base (.brelse false), .base (.go false)]

/-- It reads block 5 again, from the cache. -/
def reread : List (SnapLbl Bool Unit Nat) :=
  [.base (.bread false 1 5), .base (.go false), .base (.go false), .base (.go false),
   .base (.brelse false), .base (.go false)]

/-- Two rereads fall between the loads of the total and of the hits. -/
def raceRun : List (SnapLbl Bool Unit Nat) :=
  firstRead ++ List.replicate 4 (.stat () 0 true) ++ reread ++ reread ++
    List.replicate 6 (.stat () 0 true)

/-- One of them does, the other comes before. -/
def calmRun : List (SnapLbl Bool Unit Nat) :=
  firstRead ++ reread ++ List.replicate 4 (.stat () 0 true) ++ reread ++
    List.replicate 6 (.stat () 0 true)

def idleSnap : Snap Bool Unit Nat :=
  ⟨boot 0, fun _ => ⟨.idle, ⟨0, 0, 0, 0, 0, 0, 0, 0⟩, none, 0, 0⟩⟩

theorem idleSnap_init : (snapSys Bool Unit Nat).Init idleSnap :=
  ⟨boot_init 0, fun _ => ⟨rfl, rfl⟩⟩

/-- More hits are delivered than lookups: 2 against 1. -/
theorem raceRun_exceeds :
    ∃ s, (snapSys Bool Unit Nat).Reachable s ∧ ∃ m, (s.reader ()).delivered = some m ∧
      m.read_cache_counter = 1 ∧ m.read_cache_hit_counter = 2 ∧
      ¬ m.read_cache_hit_counter.toInt ≤ m.read_cache_counter.toInt := by
  obtain ⟨s, hreach, hpair⟩ : ∃ s, (snapSys Bool Unit Nat).Reachable s ∧
      ((s.reader ()).delivered.map fun m => (m.read_cache_counter, m.read_cache_hit_counter)) =
        some (1, 2) := System.reaches idleSnap_init raceRun (by decide +kernel)
  rcases Option.map_eq_some_iff.mp hpair with ⟨m, hm, hpair⟩
  rcases Prod.mk.inj hpair with ⟨hread, hhit⟩
  refine ⟨s, hreach, m, hm, hread, hhit, ?_⟩
  rw [hread, hhit]
  decide

theorem memstats_hits_le_iff_calmRun :
    ∃ s, (snapSys Bool Unit Nat).ReachableBy StatOk s ∧ ∃ m, (s.reader ()).delivered = some m ∧
      m.read_cache_hit_counter.toInt ≤ m.read_cache_counter.toInt := by
  obtain ⟨s, hreach, hsome⟩ : ∃ s, (snapSys Bool Unit Nat).ReachableBy StatOk s ∧
      (s.reader ()).delivered.isSome = true :=
    System.reachesBy idleSnap_init calmRun (by decide +kernel) (by decide +kernel)
  rcases Option.isSome_iff_exists.mp hsome with ⟨m, hm⟩
  exact ⟨s, hreach, m, hm, memstats_hits_le_iff.1 s hreach () m hm⟩

end Xv6.Cache
