import Xv6.Lib.Queue
import Xv6.Pipe.Wakeups

/-!
# Xv6.Pipe.Fifo — a pipe loses and reorders nothing

The ring holds `nwrite - nread` bytes, from position `nread` on. Seen from the ring a
step does one of three things: nothing, one byte stored by a `pipewrite`, or one byte
taken by a `piperead` (`Moves`). What was accepted is what was delivered followed by the
ring, in every reachable state; the counters may wrap at any point, since `PIPESIZE`
divides `2 ^ 32`.
-/

namespace Xv6.Pipe

open Lib List

variable {Pid : Type}

/-- The bytes in the ring, oldest first. -/
def St.ring (s : St Pid) : List UInt8 :=
  (List.range s.count).map fun k => s.data ((s.nread + BitVec.ofNat 32 k).toNat % PIPESIZE)

/-! ## What a step does to the ring -/

inductive Moves (s s' : St Pid) : Prop
  | still (data : s'.data = s.data) (nread : s'.nread = s.nread) (nwrite : s'.nwrite = s.nwrite)
      (accepted : s'.accepted = s.accepted) (delivered : s'.delivered = s.delivered)
  | put (c : UInt8) (room : ¬ s.full)
      (data : s'.data = Function.update s.data (s.nwrite.toNat % PIPESIZE) c)
      (nread : s'.nread = s.nread) (nwrite : s'.nwrite = s.nwrite + 1)
      (accepted : s'.accepted = s.accepted ++ [c]) (delivered : s'.delivered = s.delivered)
  | get (some : ¬ s.empty) (data : s'.data = s.data)
      (nread : s'.nread = s.nread + 1) (nwrite : s'.nwrite = s.nwrite)
      (accepted : s'.accepted = s.accepted)
      (delivered : s'.delivered = s.delivered ++ [s.data (s.nread.toNat % PIPESIZE)])

theorem pipeclose_moves (s : St Pid) (w : Bool) : Moves s (pipeclose s w) := by
  cases w <;> simp only [pipeclose, closeEnd, Bool.false_eq_true, if_false, if_true] <;> split <;>
    exact .still rfl rfl rfl rfl rfl

section
variable [DecidableEq Pid] {s s' : St Pid} {p : Pid}

theorem writeByte_moves (i : Nat) (n : Int) (put : Nat) (ch : Option UInt8) :
    Moves s (writeByte s p i n put ch) := by
  unfold writeByte
  split
  · exact .still rfl rfl rfl rfl rfl
  · next hroom =>
    cases ch with
    | none => exact .still rfl rfl rfl rfl rfl
    | some c => exact .put c hroom rfl rfl rfl rfl rfl

theorem readByte_moves (i : Nat) (n : Int) (ok : Bool) : Moves s (readByte s p i n ok) := by
  unfold readByte
  split
  · exact .still rfl rfl rfl rfl rfl
  · split
    · exact .still rfl rfl rfl rfl rfl
    · next hsome =>
      split
      · exact .get hsome rfl rfl rfl rfl rfl
      · -- a byte that could not be copied out stays in the ring
        exact .still rfl rfl rfl rfl rfl

theorem runPc_moves {pc : Pc} (h : runPc s p pc = some s') : Moves s s' := by
  have hacquire : ∀ pc', acquire s p pc' = some s' → Moves s s' := by
    intro pc' ha
    unfold acquire at ha
    split at ha
    · cases ha
      exact .still rfl rfl rfl rfl rfl
    · cases ha
  cases pc with
  | out _ => cases h
  | wLock i n => exact hacquire _ h
  | wLoop i n put =>
    simp only [runPc] at h
    split at h
    · split at h <;> (cases h; exact .still rfl rfl rfl rfl rfl)
    · cases h
      exact .still rfl rfl rfl rfl rfl
  | wByte _ _ _ => cases h
  | wSleep _ _ => cases h
  | wDone i =>
    cases h
    exact .still rfl rfl rfl rfl rfl
  | rLock n => exact hacquire _ h
  | rLoop n =>
    simp only [runPc] at h
    split at h <;> (cases h; exact .still rfl rfl rfl rfl rfl)
  | rKilled n =>
    simp only [runPc] at h
    split at h <;> (cases h; exact .still rfl rfl rfl rfl rfl)
  | rSleep _ => cases h
  | rCopy _ _ => cases h
  | rDone r =>
    cases h
    exact .still rfl rfl rfl rfl rfl

/-- Every action leaves the ring alone, stores a byte or takes one. -/
theorem step_moves {l : Lbl Pid} (h : step s l = some s') : Moves s s' := by
  unfold step at h
  split at h
  · cases h
  cases l with
  | write p n =>
    dsimp only at h
    split at h
    · cases h
      exact .still rfl rfl rfl rfl rfl
    · cases h
  | read p n =>
    dsimp only at h
    split at h
    · cases h
      exact .still rfl rfl rfl rfl rfl
    · cases h
  | close p w =>
    dsimp only at h
    split at h
    · split at h
      · cases h
        exact pipeclose_moves s w
      · cases h
    · cases h
  | kkill p =>
    cases h
    exact .still rfl rfl rfl rfl rfl
  | run p => exact runPc_moves h
  | copyin p ch =>
    dsimp only at h
    split at h
    · cases h
      exact writeByte_moves _ _ _ _
    · cases h
  | copyout p ok =>
    dsimp only at h
    split at h
    · cases h
      exact readByte_moves _ _ _
    · cases h

end

/-! ## The queue -/

/-- The ring is the part of what was accepted that has not been delivered. -/
structure Fifo (s : St Pid) : Prop where
  count_le : s.count ≤ PIPESIZE
  accepted : s.accepted = s.delivered ++ s.ring

section
variable {s s' : St Pid}

theorem ring_eq (s : St Pid) : s.ring = queue PIPESIZE s.data s.nread s.nwrite :=
  rfl

theorem ring_congr (hdata : s'.data = s.data) (hr : s'.nread = s.nread)
    (hw : s'.nwrite = s.nwrite) : s'.ring = s.ring := by
  rw [ring_eq, ring_eq, hdata, hr, hw]

/-- A stored byte becomes the last one of the ring. -/
theorem ring_put {c : UInt8} (hle : s.count ≤ PIPESIZE) (hroom : ¬ s.full)
    (hdata : s'.data = Function.update s.data (s.nwrite.toNat % PIPESIZE) c)
    (hr : s'.nread = s.nread) (hw : s'.nwrite = s.nwrite + 1) :
    s'.count = s.count + 1 ∧ s.count < PIPESIZE ∧ s'.ring = s.ring ++ [c] := by
  have hlt : s.count < PIPESIZE :=
    lt_of_le_of_ne hle fun he => hroom ((full_iff_count s).mpr he)
  have hring : s'.ring = s.ring ++ [c] := by
    rw [ring_eq, ring_eq, hdata, hr, hw]
    exact queue_push (by decide) hlt (by decide) c
  have hcount := congrArg List.length hring
  rw [ring_eq, ring_eq, length_queue, length_append, length_queue] at hcount
  exact ⟨hcount, hlt, hring⟩

/-- A delivered byte was the first one of the ring. -/
theorem ring_get (hsome : ¬ s.empty) (hdata : s'.data = s.data) (hr : s'.nread = s.nread + 1)
    (hw : s'.nwrite = s.nwrite) :
    s'.count + 1 = s.count ∧ s.ring = s.data (s.nread.toNat % PIPESIZE) :: s'.ring := by
  have hring : s.ring = s.data (s.nread.toNat % PIPESIZE) :: s'.ring := by
    rw [ring_eq, ring_eq, hdata, hr, hw]
    exact queue_pop PIPESIZE s.data hsome
  have hcount := congrArg List.length hring
  rw [ring_eq, ring_eq, length_queue, length_cons, length_queue] at hcount
  exact ⟨hcount.symm, hring⟩

theorem Fifo.moves (h : Fifo s) (hm : Moves s s') : Fifo s' := by
  rcases hm with ⟨hdata, hr, hw, hacc, hdel⟩ | ⟨c, hroom, hdata, hr, hw, hacc, hdel⟩ |
    ⟨hsome, hdata, hr, hw, hacc, hdel⟩
  · refine ⟨?_, ?_⟩
    · have hcount : s'.count = s.count := by unfold St.count; rw [hr, hw]
      rw [hcount]
      exact h.count_le
    · rw [hacc, hdel, ring_congr hdata hr hw]
      exact h.accepted
  · rcases ring_put h.count_le hroom hdata hr hw with ⟨hcount, hlt, hring⟩
    refine ⟨by omega, ?_⟩
    rw [hacc, hdel, hring, h.accepted, append_assoc]
  · rcases ring_get hsome hdata hr hw with ⟨hcount, hring⟩
    refine ⟨?_, ?_⟩
    · have hle := h.count_le
      omega
    · rw [hacc, hdel, h.accepted, hring, append_assoc]
      rfl

theorem Init.fifo (h : Init s) : Fifo s := by
  rcases h with ⟨-, hr, hw, -, -, -, hacc, hdel, -⟩
  have hcount : s.count = 0 := by
    unfold St.count
    rw [hr, hw]
    rfl
  refine ⟨by rw [hcount]; exact Nat.zero_le _, ?_⟩
  unfold St.ring
  rw [hacc, hdel, hcount]
  rfl

/-- In every run the bytes delivered are a prefix of the bytes accepted, the rest being the
`nwrite - nread` bytes in the ring, of which there are never more than `PIPESIZE`; the
counters are 32-bit words that wrap. -/
theorem pipe_fifo [DecidableEq Pid] (h : (sys Pid).Reachable s) :
    s.accepted = s.delivered ++ s.ring ∧ s.ring.length = (s.nwrite - s.nread).toNat ∧
      (s.nwrite - s.nread).toNat ≤ PIPESIZE := by
  have hfifo : Fifo s :=
    h.invariant Fifo (fun _ h₀ => Init.fifo h₀) fun _ _ _ hi hs => hi.moves (step_moves hs)
  refine ⟨hfifo.accepted, ?_, hfifo.count_le⟩
  rw [St.ring, length_map, length_range]
  rfl

end

/-- `false` writes two bytes, of which `true` reads one. -/
def passRun : List (Lbl Bool) :=
  [.write false 2, .run false, .run false, .copyin false (some 7), .run false,
   .copyin false (some 8), .run false, .run false,
   .read true 1, .run true, .run true, .copyout true true]

theorem pipe_fifo_passRun :
    ∃ s, (sys Bool).Reachable s ∧ s.accepted = [7, 8] ∧ s.delivered = [7] ∧
      s.accepted = s.delivered ++ s.ring := by
  obtain ⟨s, hreach, hacc, hdel⟩ : ∃ s, (sys Bool).Reachable s ∧ s.accepted = [7, 8] ∧
      s.delivered = [7] := System.reaches fresh_init passRun (by decide +kernel)
  exact ⟨s, hreach, hacc, hdel, (pipe_fifo hreach).1⟩

end Xv6.Pipe
