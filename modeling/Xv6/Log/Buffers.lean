import Xv6.Log.Capacity

/-!
# Xv6.Log.Buffers — the pins of the logged blocks

Every logged block stays pinned in the cache from its first `log_write` to
`install_trans`. `BufInv` ties the pins to the header: the reference count of a buffer is
the number of its holders plus one for a pinned block, in every reachable state and at
every place of `commit()` (`reachable_bufInv`).
-/

namespace Xv6.Log

open Lib Xv6.Bio List

variable {Pid : Type}

/-- The number of holders of a buffer. -/
def St.refs (s : St Pid) (i : Nat) : Nat := (s.held.map Prod.snd).count i

/-! ## How the cache operations treat a block in use -/

variable {P : List Nat} {i x : Nat} {c : Bcache} {j : Nat}

theorem Holds.bget {c' : Bcache} {refs : Nat → Nat} {y : Nat} (h : Accounts c refs P)
    (hh : Holds c i x) (hi : 0 < refs i) (hg : bget c ROOTDEV y = some (j, c')) :
    Holds c' i x := by
  obtain ⟨b, hb, rfl, hdev, hno⟩ := hh
  have hcnt := h.refcnt b hb
  simp only [Bio.bget] at hg
  split at hg
  · simp only [Option.some.injEq, Prod.mk.injEq] at hg
    obtain ⟨-, rfl⟩ := hg
    refine ⟨_, mem_modify.mpr ⟨b, hb, rfl⟩, ?_⟩
    split <;> exact ⟨rfl, hdev, hno⟩
  split at hg
  · next b' hfind =>
    simp only [Option.some.injEq, Prod.mk.injEq] at hg
    obtain ⟨-, rfl⟩ := hg
    have hb' : b' ∈ c.bufs := by simpa using mem_of_find?_eq_some hfind
    have hidle : b'.refcnt = 0 := by simpa using find?_some hfind
    refine ⟨b, mem_modify.mpr ⟨b, hb, if_neg ?_⟩, rfl, hdev, hno⟩
    intro hid
    rw [h.eq_of_id hb hb' hid, hidle, ← h.eq_of_id hb hb' hid] at hcnt
    omega
  · cases hg

theorem Holds.modify (f : Buf → Nat) (hh : Holds c i x) :
    Holds (c.modify j fun b => { b with refcnt := f b }) i x := by
  obtain ⟨b, hb, hid, hdev, hno⟩ := hh
  refine ⟨_, mem_modify.mpr ⟨b, hb, rfl⟩, ?_⟩
  split <;> exact ⟨hid, hdev, hno⟩

theorem Holds.brelse (hh : Holds c i x) : Holds (brelse c j) i x := by
  have hdec := hh.modify (j := j) fun b => b.refcnt - 1
  simp only [Bio.brelse]
  split
  · obtain ⟨b, hb, hrest⟩ := hdec
    refine ⟨b, ?_, hrest⟩
    simp only [Bcache.toFront, decide_not]
    exact (filter_append_perm _ _).mem_iff.mpr hb
  · exact hdec

variable {k : Commit}

theorem knows_mono {lh : List Nat} {c' : Bcache} (h : k.knows lh c)
    (hc : ∀ i ∈ k.bufs, ∀ x, Holds c i x → Holds c' i x) : k.knows lh c' := by
  cases k with
  | insUnpin tail lbuf dbuf =>
    obtain ⟨ht, hh⟩ := h
    exact ⟨ht, hc dbuf (by simp [Commit.bufs]) _ hh⟩
  | _ => exact h

section

variable [DecidableEq Pid]

/-- The pins follow the header, and the committing process holds the buffers of its place. -/
structure BufInv (s : St Pid) (P : List Nat) : Prop where
  nodup : s.lh.Nodup
  accounts : Accounts s.cache s.refs P
  resting : (∀ q k, s.pc q ≠ .commit k) → P = s.lh
  pinned : ∀ q k, s.pc q = .commit k → P = k.pinned s.lh
  holding : ∀ q k, s.pc q = .commit k → ∀ i, k.bufs.count i ≤ s.held.count (q, i)
  knows : ∀ q k, s.pc q = .commit k → k.knows s.lh s.cache

variable {s : St Pid}

theorem St.refs_pos {q : Pid} (h : (q, i) ∈ s.held) : 0 < s.refs i :=
  (count_pos_iff.mpr h).trans_le (count_le_count_map (f := Prod.snd))

theorem BufInv.mem_held (h : BufInv s P) {q : Pid} (hq : s.pc q = .commit k) (hi : i ∈ k.bufs) :
    (q, i) ∈ s.held := by
  have hle := h.holding q k hq i
  have hpos := count_pos_iff.mpr hi
  exact count_pos_iff.mp (by omega)

/-- Nobody is in `commit()`: the whole header is pinned. -/
theorem BufInv.of_resting (hnc : ∀ q k, s.pc q ≠ .commit k) (hnodup : s.lh.Nodup)
    (hacc : Accounts s.cache s.refs s.lh) : BufInv s s.lh where
  nodup := hnodup
  accounts := hacc
  resting _ := rfl
  pinned q k hq := absurd hq (hnc q k)
  holding q k hq := absurd hq (hnc q k)
  knows q k hq := absurd hq (hnc q k)

variable {p : Pid}

/-- Only `p` is in `commit()`. -/
theorem BufInv.of_commit (hp : s.pc p = .commit k)
    (honly : ∀ q k', s.pc q = .commit k' → q = p ∧ k' = k) (hnodup : s.lh.Nodup)
    (hacc : Accounts s.cache s.refs P) (hpin : P = k.pinned s.lh)
    (hhold : ∀ i, k.bufs.count i ≤ s.held.count (p, i)) (hknows : k.knows s.lh s.cache) :
    BufInv s P := by
  refine ⟨hnodup, hacc, fun hnc => absurd hp (hnc p k), fun q k' hq => ?_, fun q k' hq => ?_,
    fun q k' hq => ?_⟩
  · rw [(honly q k' hq).2]; exact hpin
  · rw [(honly q k' hq).1, (honly q k' hq).2]; exact hhold
  · rw [(honly q k' hq).2]; exact hknows

theorem init_bufInv (h : Init s) : BufInv s s.lh := by
  obtain ⟨hlh, -, -, hpc, hheld, -, hlen, hnodup, hcnt, huniq⟩ := h
  refine .of_resting (fun q k => by simp [hpc q]) (by simp [hlh])
    ⟨hlen, hnodup, huniq, ?_, ?_, by simp [hlh]⟩
  · intro b hb
    simp [hcnt b hb, St.refs, hheld, hlh]
  · intro b hb hpos
    rw [hcnt b hb] at hpos
    cases hpos

variable {s' : St Pid}

/-- Steps that leave header, cache, holders and committing processes alone. -/
theorem BufInv.congr (h : BufInv s P) (hlh : s'.lh = s.lh) (hcache : s'.cache = s.cache)
    (hheld : s'.held = s.held) (hpc : ∀ q k, s'.pc q = .commit k ↔ s.pc q = .commit k) :
    BufInv s' P := by
  have hrefs : s'.refs = s.refs := by
    funext i
    simp only [St.refs, hheld]
  constructor
  · rw [hlh]; exact h.nodup
  · rw [hcache, hrefs]; exact h.accounts
  · intro hnc
    rw [hlh]
    exact h.resting fun q k hq => hnc q k ((hpc q k).mpr hq)
  · intro q k hq
    rw [hlh]
    exact h.pinned q k ((hpc q k).mp hq)
  · intro q k hq
    rw [hheld]
    exact h.holding q k ((hpc q k).mp hq)
  · intro q k hq
    rw [hlh, hcache]
    exact h.knows q k ((hpc q k).mp hq)

/-! ## `bread` and `brelse` by anybody -/

omit [DecidableEq Pid] in
/-- `refs` after `bread`. -/
theorem refs_cons (held : List (Pid × Nat)) (p : Pid) (i j : Nat) :
    (((p, i) :: held).map Prod.snd).count j =
      (held.map Prod.snd).count j + if j = i then 1 else 0 := by
  simp only [map_cons, count_cons, beq_iff_eq, eq_comm (a := j)]

/-- `refs` after `brelse`. -/
theorem refs_erase {held : List (Pid × Nat)} (h : (p, i) ∈ held) (j : Nat) :
    ((held.erase (p, i)).map Prod.snd).count j =
      (held.map Prod.snd).count j - if j = i then 1 else 0 := by
  have hperm := (perm_cons_erase h).map Prod.snd
  rw [hperm.count_eq, refs_cons]
  omega

section
variable (h : BufInv s P)
include h

theorem BufInv.get_accounts (hg : bget s.cache ROOTDEV x = some (i, c)) (p : Pid) :
    Accounts c (fun j => (((p, i) :: s.held).map Prod.snd).count j) P ∧ Holds c i x := by
  simp only [refs_cons]
  exact bget_accounts h.accounts hg

theorem BufInv.give_accounts (hi : (p, i) ∈ s.held) :
    Accounts (brelse s.cache i) (fun j => ((s.held.erase (p, i)).map Prod.snd).count j) P := by
  simp only [refs_erase hi]
  exact brelse_accounts h.accounts (St.refs_pos hi)

/-- A successful `bread` by a process outside `commit()`. -/
theorem BufInv.bread (hg : bget s.cache ROOTDEV x = some (i, c)) :
    BufInv { s with cache := c, held := (p, i) :: s.held } P := by
  refine ⟨h.nodup, (h.get_accounts hg p).1, h.resting, h.pinned, fun q k hq j => ?_,
    fun q k hq => ?_⟩
  · exact le_trans (h.holding q k hq j) count_le_count_cons
  · refine knows_mono (h.knows q k hq) fun j hj y hy => ?_
    exact hy.bget h.accounts (St.refs_pos (h.mem_held hq hj)) hg

/-- A `brelse` by a process outside `commit()`. -/
theorem BufInv.brelse (hi : (p, i) ∈ s.held) (hp : ∀ k, s.pc p ≠ .commit k) :
    BufInv { s with cache := Bio.brelse s.cache i, held := s.held.erase (p, i) } P := by
  refine ⟨h.nodup, h.give_accounts hi, h.resting, h.pinned, fun q k hq j => ?_, fun q k hq => ?_⟩
  · have hqp : q ≠ p := fun hqp => hp k (hqp ▸ hq)
    rw [count_erase_of_ne (by simp [hqp])]
    exact h.holding q k hq j
  · exact knows_mono (h.knows q k hq) fun j _ y hy => hy.brelse

/-! ## The steps -/

/-- The processes outside `commit()` move among themselves. -/
theorem BufInv.goto_idle {x : Pc} {n : Int} {w : Pid → List Nat} (hp : ∀ k, s.pc p ≠ .commit k)
    (hx : ∀ k, x ≠ .commit k) :
    BufInv { s.goto p x with outstanding := n, wrote := w } P :=
  h.congr rfl rfl rfl fun q k => goto_eq_iff (hp k) (hx k) q

theorem BufInv.wakeup : BufInv s.wakeup P :=
  h.congr rfl rfl rfl fun q _ => wakeup_eq_iff (by nofun) (by nofun) q

theorem BufInv.panicked (n : Int) (e : Option Panic) :
    BufInv { s with outstanding := n, panic := e } P :=
  h.congr rfl rfl rfl fun _ _ => Iff.rfl

end

omit [DecidableEq Pid] in
theorem blockOf_eq_some (h : s.blockOf i = some x) :
    ∃ b ∈ s.cache.bufs, b.id = i ∧ b.blockno = x := by
  simp only [St.blockOf, Option.map_eq_some_iff] at h
  obtain ⟨b, hfind, hno⟩ := h
  exact ⟨b, mem_of_find?_eq_some hfind, by simpa using find?_some hfind, hno⟩

variable {A : Finset Pid}

section
variable (ho : OpsInv s A) (h : BufInv s P)
include ho h

/-- `log_write` pins the block it adds to the header. -/
theorem BufInv.absorb {w : Pid → List Nat} (hp : s.pc p = .inOp) (hi : (p, i) ∈ s.held)
    (hx : s.blockOf i = some x) :
    BufInv { s with
      lh := Log.absorb s.lh x
      cache := if x ∈ s.lh then s.cache else bpin s.cache i
      wrote := w } (Log.absorb s.lh x) := by
  have hnc := ho.no_commit hp
  obtain rfl := h.resting hnc
  by_cases hin : x ∈ s.lh
  · simp only [absorb_of_mem hin, if_pos hin]
    exact h.congr rfl rfl rfl fun _ _ => Iff.rfl
  obtain ⟨b, hb, rfl, rfl⟩ := blockOf_eq_some hx
  have hpos := h.accounts.refcnt b hb
  have hrefs := St.refs_pos hi
  have hdev := h.accounts.dev b hb (by omega)
  simp only [absorb_of_notMem hin, if_neg hin]
  refine .of_resting hnc ?_ (bpin_accounts h.accounts hb hdev hin)
  exact nodup_append.mpr ⟨h.nodup, nodup_singleton _,
    fun y hy z hz => by rw [mem_singleton.mp hz]; exact fun hyz => hin (hyz ▸ hy)⟩

/-- The last operation out starts the commit with the whole header pinned. -/
theorem BufInv.lastOut {n : Int} (hp : s.pc p = .inOp) :
    BufInv { s.goto p (.commit .start) with outstanding := n, committing := true } P := by
  have hnc := ho.no_commit hp
  obtain rfl := h.resting hnc
  refine .of_commit (goto_self s p _) (fun q k hq => ?_) h.nodup h.accounts rfl
    (fun i => Nat.zero_le _) trivial
  change (s.goto p (.commit .start)).pc q = _ at hq
  rw [goto_pc] at hq
  split at hq
  · injection hq with hq
    exact ⟨by assumption, hq.symm⟩
  · exact absurd hq (hnc q k)

/-- `bunpin` in `install_trans`: the block of the header at `tail` loses its pin. -/
theorem BufInv.unpin {tail lbuf dbuf : Nat} (hp : s.pc p = .commit (.insUnpin tail lbuf dbuf)) :
    BufInv { s.goto p (.commit (.insRelLog tail lbuf dbuf)) with cache := bunpin s.cache dbuf }
      (s.lh.drop (tail + 1)) := by
  obtain ⟨htail, b, hb, rfl, hdev, hno⟩ := h.knows p _ hp
  have hP : P = s.lh[tail] :: s.lh.drop (tail + 1) := by
    rw [h.pinned p _ hp]
    exact drop_eq_getElem_cons htail
  have hfresh : s.lh[tail] ∉ s.lh.drop (tail + 1) := by
    have hnodup : (s.lh.drop tail).Nodup := h.nodup.sublist (drop_sublist _ _)
    rw [drop_eq_getElem_cons htail] at hnodup
    exact (nodup_cons.mp hnodup).1
  exact .of_commit (goto_self s p _) (fun q k => ho.goto_commit hp) h.nodup
    (bunpin_accounts (hP ▸ h.accounts) hfresh hb hdev hno) rfl
    (h.holding p (.insUnpin tail lbuf b.id) hp) htail

theorem BufInv.piece (hp : s.pc p = .commit k) (hm : Piece s p k s') :
    ∃ P', BufInv s' P' := by
  have hpin := h.pinned p k hp
  have hknows := h.knows p k hp
  cases hm with
  | goes hgo =>
    exact ⟨P, .of_commit (goto_self s p _) (fun q k => ho.goto_commit hp) h.nodup h.accounts
      (hpin.trans hgo.pinned.symm) (fun i => by simp [hgo.bufs.1]) (hgo.knows _)⟩
  | gets hget =>
    refine ⟨P, ?_⟩
    simp only [St.bread]
    split
    · exact h.panicked _ _
    · next i c hg =>
      obtain ⟨hacc, hnew⟩ := h.get_accounts hg p
      refine .of_commit (goto_self s p _) (fun q k => ho.goto_commit hp) h.nodup hacc
        (hpin.trans (hget.pinned i).symm) (fun j => ?_) (hget.knows i _ c hknows hnew)
      have hle := h.holding p k hp j
      simp only [hget.bufs, count_cons, beq_iff_eq, Prod.mk.injEq, true_and]
      omega
  | gives hgive =>
    refine ⟨P, .of_commit (goto_self s p _) (fun q k => ho.goto_commit hp) h.nodup
      (h.give_accounts (h.mem_held hp hgive.held)) (hpin.trans hgive.pinned.symm) (fun j => ?_)
      (hgive.knows _ _ hknows)⟩
    have hle := h.holding p k hp j
    rw [hgive.bufs]
    simp only [St.brelse, count_erase, beq_iff_eq, Prod.mk.injEq, true_and]
    omega
  | unpin => exact ⟨_, h.unpin ho hp⟩
  | clear hgo =>
    exact ⟨P, .of_commit (goto_self s p _) (fun q k => ho.goto_commit hp) nodup_nil
      h.accounts (hpin.trans hgo.pinned.symm) (fun i => Nat.zero_le _) (hgo.knows _)⟩

/-- Every atomic action keeps the pins in step with the header. -/
theorem step_bufInv {start : Nat} {l : Lbl Pid} (hstep : step start s l = some s') :
    ∃ P', BufInv s' P' := by
  cases (step_act hstep).2 with
  | enter hp | wake hp | sleep hp | admitted hp =>
    exact ⟨P, h.goto_idle (by simp [hp]) (by simp)⟩
  | noBuffers | tooBig | outside | committing => exact ⟨P, h.panicked _ _⟩
  | bread _ hg => exact ⟨P, h.bread hg⟩
  | logWrite hp hi hx => exact ⟨_, h.absorb ho hp hi hx⟩
  | brelse hp hi =>
    refine ⟨P, h.brelse hi ?_⟩
    rcases hp with hp | hp <;> simp [hp]
  | lastOut hp => exact ⟨P, h.lastOut ho hp⟩
  | leave hp => exact ⟨P, h.wakeup.goto_idle (by simp [St.wakeup, hp]) (by simp)⟩
  | run hp hm => exact h.piece ho hp hm
  | done hp =>
    -- the commit is over: the header is empty and nothing is pinned
    obtain rfl : P = s.lh := by
      rw [h.pinned _ _ hp]
      exact (ho.erased _ _ hp rfl).symm
    exact ⟨_, .of_resting (ho.done hp).1 h.nodup h.accounts⟩

end

theorem reachable_bufInv {start : Nat} (h : (sys Pid start).Reachable s) :
    ∃ A P, OpsInv s A ∧ BufInv s P := by
  refine System.Reachable.invariant (fun s => ∃ A P, OpsInv s A ∧ BufInv s P) ?_ ?_ h
  · exact fun s hs => ⟨∅, s.lh, init_opsInv hs, init_bufInv hs⟩
  · rintro s l s' ⟨A, P, ho, hb⟩ hstep
    obtain ⟨P', hb'⟩ := step_bufInv ho hb hstep
    exact ⟨_, P', step_opsInv ho hstep, hb'⟩

end

end Xv6.Log
