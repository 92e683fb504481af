import Xv6.Log.Group

/-!
# Xv6.Log.Act — what an action of the log system does

`Act` has one constructor for each way an action can end, with the test that led there,
and `Piece` one for each kind of piece of `commit()`, with what the piece does to the
place the committing process is at. The invariants follow by cases on these two, and
never look at the steps again.
-/

namespace Xv6.Log

open Lib Xv6.Bio Function List

/-- The places of `commit()` after `log.lh.n = 0`. -/
def Commit.erased : Commit → Bool
  | .head true | .headRel true _ | .done => true
  | _ => false

/-- The buffers held at a place of `commit()`, the one obtained last in front. -/
def Commit.bufs : Commit → List Nat
  | .logFrom _ tbuf => [tbuf]
  | .logRelFrom _ tbuf fbuf => [fbuf, tbuf]
  | .logRelTo _ tbuf => [tbuf]
  | .headRel _ buf => [buf]
  | .insDst _ lbuf => [lbuf]
  | .insUnpin _ lbuf dbuf => [dbuf, lbuf]
  | .insRelLog _ lbuf dbuf => [dbuf, lbuf]
  | .insRelDst _ dbuf => [dbuf]
  | .start | .logTo _ | .head _ | .insLog _ | .clear | .done => []

/-- The blocks of the header still pinned at a place of `commit()`. -/
def Commit.pinned (lh : List Nat) : Commit → List Nat
  | .insLog tail | .insDst tail _ | .insUnpin tail _ _ => lh.drop tail
  | .insRelLog tail _ _ | .insRelDst tail _ => lh.drop (tail + 1)
  | .clear | .head true | .headRel true _ | .done => []
  | .start | .logTo _ | .logFrom .. | .logRelFrom .. | .logRelTo .. | .head false
  | .headRel false _ => lh

/-- Buffer `i` holds block `x` of the disk. -/
def Holds (c : Bcache) (i x : Nat) : Prop := ∃ b ∈ c.bufs, b.id = i ∧ b.dev = ROOTDEV ∧ b.blockno = x

/-- What the committing process knows where it is. -/
def Commit.knows (lh : List Nat) (c : Bcache) : Commit → Prop
  | .logFrom tail _ | .logRelFrom tail _ _ | .logRelTo tail _ | .insDst tail _
  | .insRelLog tail _ _ | .insRelDst tail _ => tail < lh.length
  | .insUnpin tail _ dbuf => ∃ h : tail < lh.length, Holds c dbuf lh[tail]
  | _ => True

/-- An upper bound on the steps left in `commit()`, for a header of `n` blocks. -/
def Commit.rank (n : Nat) : Commit → Nat
  | .start => 10 * n + 20
  | .logTo tail => 5 * (n - tail) + 5 * n + 15
  | .logFrom tail _ => 5 * (n - tail) + 5 * n + 14
  | .logRelFrom tail _ _ => 5 * (n - tail) + 5 * n + 13
  | .logRelTo tail _ => 5 * (n - tail) + 5 * n + 12
  | .head false => 5 * n + 14
  | .headRel false _ => 5 * n + 13
  | .insLog tail => 5 * (n - tail) + 12
  | .insDst tail _ => 5 * (n - tail) + 11
  | .insUnpin tail _ _ => 5 * (n - tail) + 10
  | .insRelLog tail _ _ => 5 * (n - tail) + 9
  | .insRelDst tail _ => 5 * (n - tail) + 8
  | .clear => 7
  | .head true => 6
  | .headRel true _ => 5
  | .done => 0

variable {Pid : Type} [DecidableEq Pid]

theorem goto_pc (s : St Pid) (p q : Pid) (pc : Pc) :
    (s.goto p pc).pc q = if q = p then pc else s.pc q := by
  simp [St.goto, update_apply]

theorem goto_self (s : St Pid) (p : Pid) (pc : Pc) : (s.goto p pc).pc p = pc := by
  simp [St.goto]

variable {s : St Pid}

/-- A place that `p` neither leaves nor enters. -/
theorem goto_eq_iff {p : Pid} {pc r : Pc} (hp : s.pc p ≠ r) (hpc : pc ≠ r) (q : Pid) :
    (s.goto p pc).pc q = r ↔ s.pc q = r := by
  rw [goto_pc]
  split
  · next hqp => rw [hqp]; exact ⟨fun hh => absurd hh hpc, fun hh => absurd hh hp⟩
  · exact Iff.rfl

omit [DecidableEq Pid] in
/-- `wakeup(&log)` moves processes between the two places of `begin_op` only. -/
theorem wakeup_eq_iff {r : Pc} (hr : r ≠ .begin) (hr' : r ≠ .asleep) (q : Pid) :
    s.wakeup.pc q = r ↔ s.pc q = r := by
  simp only [St.wakeup]
  split
  · next hq => rw [hq]; exact ⟨fun hh => absurd hh.symm hr, fun hh => absurd hh.symm hr'⟩
  · exact Iff.rfl

/-- Nobody is asleep after `wakeup(&log)`. -/
theorem wakeup_goto_awake (s : St Pid) (p q : Pid) : (s.wakeup.goto p .out).pc q ≠ .asleep := by
  rw [goto_pc]
  split
  · simp
  · simp only [St.wakeup]
    split
    · simp
    · assumption

/-! ## The pieces of `commit()` -/

/-- The place `k'` follows `k` and the committing process holds the same buffers. -/
structure Goes (lh lh' : List Nat) (k k' : Commit) : Prop where
  bufs : k'.bufs = [] ∧ k.bufs = []
  pinned : k'.pinned lh' = k.pinned lh
  erased : k'.erased = true → lh' = []
  knows : ∀ c, k'.knows lh' c
  rank : k'.rank lh'.length < k.rank lh.length

/-- A `bread` of block `x` at `k`: the buffer is a free one or that of a pinned block, and
joins those of the place. -/
structure Gets (lh : List Nat) (k : Commit) (x : Nat) (next : Nat → Commit) : Prop where
  bufs : ∀ i, (next i).bufs = i :: k.bufs
  pinned : ∀ i, (next i).pinned lh = k.pinned lh
  erased : ∀ i, (next i).erased = true → k.erased = true
  knows : ∀ i c c', k.knows lh c → Holds c' i x → (next i).knows lh c'
  rank : ∀ i, (next i).rank lh.length < k.rank lh.length
  found : ∀ c, k.knows lh c → k.bufs = [] ∨ x ∈ k.pinned lh

/-- A `brelse` of buffer `i` at `k`. -/
structure Gives (lh : List Nat) (k : Commit) (i : Nat) (k' : Commit) : Prop where
  held : i ∈ k.bufs
  bufs : k'.bufs = k.bufs.erase i
  pinned : k'.pinned lh = k.pinned lh
  erased : k'.erased = true → k.erased = true
  knows : ∀ c c', k.knows lh c → k'.knows lh c'
  rank : ∀ c, k.knows lh c → k'.rank lh.length < k.rank lh.length

/-- What a piece of `commit()` does, short of its end. -/
inductive Piece (s : St Pid) (p : Pid) : Commit → St Pid → Prop
  | goes {k k'} (h : Goes s.lh s.lh k k') : Piece s p k (s.goto p (.commit k'))
  | gets {k x next} (h : Gets s.lh k x next) :
      Piece s p k (s.bread p x fun i => .commit (next i))
  | gives {k i k'} (h : Gives s.lh k i k') : Piece s p k (s.brelse p i (.commit k'))
  | unpin {tail lbuf dbuf} :
      Piece s p (.insUnpin tail lbuf dbuf)
        { s.goto p (.commit (.insRelLog tail lbuf dbuf)) with cache := bunpin s.cache dbuf }
  | clear (h : Goes s.lh [] .clear (.head true)) :
      Piece s p .clear { s.goto p (.commit (.head true)) with lh := [] }

theorem getD_mem_drop {l : List Nat} {t : Nat} (h : t < l.length) : l.getD t 0 ∈ l.drop t := by
  rw [drop_eq_getElem_cons h, getD_eq_getElem?_getD, getElem?_eq_getElem h]
  exact mem_cons_self

theorem commitStep_piece (start : Nat) (s : St Pid) (p : Pid) {k : Commit} (hk : k ≠ .done) :
    Piece s p k (commitStep start s p k) := by
  cases k with
  | start =>
    refine .goes ?_
    split
    · exact ⟨⟨rfl, rfl⟩, rfl, nofun, fun _ => trivial, by simp only [Commit.rank]; omega⟩
    · next hlen =>
      have hnil : s.lh = [] := eq_nil_of_length_eq_zero (by omega)
      exact ⟨⟨rfl, rfl⟩, hnil.symm, fun _ => hnil, fun _ => trivial,
        by simp only [Commit.rank]; omega⟩
  | logTo tail =>
    simp only [commitStep]
    split
    · next ht =>
      exact .gets ⟨fun _ => rfl, fun _ => rfl, nofun, fun _ _ _ _ _ => ht,
        fun _ => by simp only [Commit.rank]; omega, fun _ _ => .inl rfl⟩
    · exact .goes ⟨⟨rfl, rfl⟩, rfl, nofun, fun _ => trivial, by simp only [Commit.rank]; omega⟩
  | logFrom tail tbuf =>
    exact .gets ⟨fun _ => rfl, fun _ => rfl, nofun, fun _ _ _ ht _ => ht,
      fun _ => by simp only [Commit.rank]; omega,
      fun _ ht => .inr (mem_of_mem_drop (getD_mem_drop ht))⟩
  | logRelFrom tail tbuf fbuf =>
    exact .gives ⟨by simp [Commit.bufs], by simp [Commit.bufs], rfl, nofun, fun _ _ ht => ht,
      fun _ _ => by simp only [Commit.rank]; omega⟩
  | logRelTo tail tbuf =>
    refine .gives ⟨by simp [Commit.bufs], by simp [Commit.bufs], rfl, nofun, fun _ _ _ => trivial,
      fun _ ht => ?_⟩
    simp only [Commit.knows] at ht
    simp only [Commit.rank]
    omega
  | head erase =>
    cases erase <;>
    exact .gets ⟨fun _ => rfl, fun _ => rfl, fun _ => id, fun _ _ _ _ _ => trivial,
      fun _ => by simp only [Commit.rank]; omega, fun _ _ => .inl rfl⟩
  | headRel erase buf =>
    cases erase <;>
    exact .gives ⟨by simp [Commit.bufs], by simp [Commit.bufs], rfl, id, fun _ _ _ => trivial,
      fun _ _ => by simp [Commit.rank]⟩
  | insLog tail =>
    simp only [commitStep]
    split
    · next ht =>
      exact .gets ⟨fun _ => rfl, fun _ => rfl, nofun, fun _ _ _ _ _ => ht,
        fun _ => by simp only [Commit.rank]; omega, fun _ _ => .inl rfl⟩
    · next ht =>
      exact .goes ⟨⟨rfl, rfl⟩, (drop_eq_nil_of_le (by omega)).symm, nofun,
        fun _ => trivial, by simp only [Commit.rank]; omega⟩
  | insDst tail lbuf =>
    refine .gets ⟨fun _ => rfl, fun _ => rfl, nofun, fun _ _ _ ht hh => ⟨ht, ?_⟩,
      fun _ => by simp only [Commit.rank]; omega, fun _ ht => .inr (getD_mem_drop ht)⟩
    rwa [getD_eq_getElem?_getD, getElem?_eq_getElem ht] at hh
  | insUnpin tail lbuf dbuf => exact .unpin
  | insRelLog tail lbuf dbuf =>
    refine .gives ⟨by simp [Commit.bufs], ?_, rfl, nofun, fun _ _ ht => ht,
      fun _ _ => by simp only [Commit.rank]; omega⟩
    by_cases hd : dbuf = lbuf <;> simp [Commit.bufs, hd]
  | insRelDst tail dbuf =>
    refine .gives ⟨by simp [Commit.bufs], by simp [Commit.bufs], rfl, nofun,
      fun _ _ _ => trivial, fun _ ht => ?_⟩
    simp only [Commit.knows] at ht
    simp only [Commit.rank]
    omega
  | clear =>
    exact .clear ⟨⟨rfl, rfl⟩, rfl, fun _ => rfl, fun _ => trivial,
      by simp only [Commit.rank]; omega⟩
  | done => exact absurd rfl hk

/-! ## The actions -/

/-- What an action does. -/
inductive Act (s : St Pid) : Lbl Pid → St Pid → Prop
  | enter {p} (hp : s.pc p = .out) : Act s (.enter p) (s.goto p .begin)
  | wake {p} (hp : s.pc p = .asleep) : Act s (.wake p) (s.goto p .begin)
  | sleep {p} (hp : s.pc p = .begin)
      (hfull : s.committing = true ∨
        s.lh.length + (s.outstanding + 1) * MAXOPBLOCKS > LOGBLOCKS) :
      Act s (.beginOp p) (s.goto p .asleep)
  | admitted {p} (hp : s.pc p = .begin) (hc : s.committing = false)
      (hfits : ¬ s.lh.length + (s.outstanding + 1) * MAXOPBLOCKS > LOGBLOCKS) :
      Act s (.beginOp p)
        { s.goto p .inOp with outstanding := s.outstanding + 1, wrote := update s.wrote p [] }
  | noBuffers {p x} : Act s (.bread p x) { s with panic := some .noBuffers }
  | bread {p x i c} (hp : s.pc p = .out ∨ s.pc p = .inOp)
      (hg : bget s.cache ROOTDEV x = some (i, c)) :
      Act s (.bread p x) { s with cache := c, held := (p, i) :: s.held }
  | tooBig {p i x} (hp : s.pc p = .inOp) (hx : s.blockOf i = some x)
      (hfull : LOGBLOCKS ≤ s.lh.length) :
      Act s (.logWrite p i) { s with panic := some .tooBigTransaction }
  | outside {p i} (hp : s.pc p = .inOp) (hlt : s.outstanding < 1)
      (hroom : s.lh.length < LOGBLOCKS) :
      Act s (.logWrite p i) { s with panic := some .outsideTrans }
  | logWrite {p i x} (hp : s.pc p = .inOp) (hi : (p, i) ∈ s.held) (hx : s.blockOf i = some x)
      (hroom : s.lh.length < LOGBLOCKS) :
      Act s (.logWrite p i)
        { s with
          lh := absorb s.lh x
          cache := if x ∈ s.lh then s.cache else bpin s.cache i
          wrote := update s.wrote p (absorb (s.wrote p) x) }
  | brelse {p i} (hp : s.pc p = .out ∨ s.pc p = .inOp) (hi : (p, i) ∈ s.held) :
      Act s (.brelse p i)
        { s with cache := Bio.brelse s.cache i, held := s.held.erase (p, i) }
  | committing {p} (hp : s.pc p = .inOp) (hc : s.committing = true) :
      Act s (.endOp p)
        { s with outstanding := s.outstanding - 1, panic := some .logCommitting }
  | lastOut {p} (hp : s.pc p = .inOp) (hlast : s.outstanding - 1 = 0) :
      Act s (.endOp p)
        { s.goto p (.commit .start) with outstanding := s.outstanding - 1, committing := true }
  | leave {p} (hp : s.pc p = .inOp) (hmore : s.outstanding - 1 ≠ 0) :
      Act s (.endOp p) { s.wakeup.goto p .out with outstanding := s.outstanding - 1 }
  | run {p k t} (hp : s.pc p = .commit k) (hm : Piece s p k t) : Act s (.run p) t
  | done {p} (hp : s.pc p = .commit .done) :
      Act s (.run p) { s.wakeup.goto p .out with committing := false }

/-- A step is one of the actions, and the machine has not panicked before. -/
theorem step_act {start : Nat} {s' : St Pid} {l : Lbl Pid} (hs : step start s l = some s') :
    s.panic = none ∧ Act s l s' := by
  simp only [step] at hs
  split at hs
  · cases hs
  next hpanic =>
  refine ⟨not_not.mp hpanic, ?_⟩
  have hgoto : ∀ p, s.goto p (s.pc p) = s := by
    intro p
    simp only [St.goto, update_eq_self]
  cases l with
  | enter p =>
    obtain ⟨hp, rfl⟩ := of_ite_eq_some hs
    exact .enter hp
  | wake p =>
    obtain ⟨hp, rfl⟩ := of_ite_eq_some hs
    exact .wake hp
  | beginOp p =>
    obtain ⟨hp, rfl⟩ := of_ite_eq_some hs
    simp only [beginOp]
    split
    · next hc => exact .sleep hp (.inl hc)
    next hc =>
    split
    · next hfull => exact .sleep hp (.inr hfull)
    · next hfits => exact .admitted hp (Bool.eq_false_iff.mpr hc) hfits
  | bread p x =>
    obtain ⟨hp, rfl⟩ := of_ite_eq_some hs
    simp only [St.bread]
    split
    · exact .noBuffers
    · next i c hg =>
      rw [hgoto]
      exact .bread hp hg
  | logWrite p i =>
    simp only [Option.ite_none_right_eq_some, Option.map_eq_some_iff] at hs
    obtain ⟨⟨hp, hi⟩, x, hx, rfl⟩ := hs
    simp only [logWrite]
    split
    · next hfull => exact .tooBig hp hx hfull
    next hroom =>
    split
    · next hlt => exact .outside hp hlt (Nat.not_le.mp hroom)
    · exact .logWrite hp hi hx (Nat.not_le.mp hroom)
  | brelse p i =>
    obtain ⟨⟨hp, hi⟩, rfl⟩ := of_ite_eq_some hs
    rw [St.brelse, hgoto]
    exact .brelse hp hi
  | endOp p =>
    obtain ⟨hp, rfl⟩ := of_ite_eq_some hs
    simp only [endOp]
    split
    · next hc => exact .committing hp hc
    split
    · next hlast => exact .lastOut hp hlast
    · next hmore => exact .leave hp hmore
  | run p =>
    simp only at hs
    split at hs
    swap
    · cases hs
    next k hp =>
    cases hs
    by_cases hk : k = .done
    · subst hk
      exact .done hp
    · exact .run hp (commitStep_piece start s p hk)

end Xv6.Log
