import Xv6.Log.Buffers

/-!
# Xv6.Log.Exhaustion — the buffers a commit needs

A commit that starts with nothing held finds `log.lh.n` buffers pinned, and `write_log`
needs one more for the log block it copies to. `commit_buffers_iff` says that `commit()`
gets every buffer it asks for exactly when `log.lh.n < NBUF`. Admission allows
`log.lh.n = LOGBLOCKS`, and `LOGBLOCKS = NBUF`: three operations of ten blocks each make
the commit panic (`fullCommit_starves`).
-/

namespace Xv6.Log

open Lib Xv6.Bio

variable {Pid : Type} [DecidableEq Pid]

/-- A `log_write` of a home block: the log area holds the header and `LOGBLOCKS` blocks. -/
def OutsideLog (start : Nat) (s : St Pid) : Lbl Pid → Prop
  | .logWrite _ i => ∀ x ∈ s.blockOf i, x < start ∨ start + LOGBLOCKS < x
  | _ => True

/-- The steps of a system in which only `p` touches the cache, in `commit()`. -/
def Lbl.quiet (p : Pid) : Lbl Pid → Prop
  | .enter _ | .beginOp _ | .wake _ => True
  | .run q => q = p
  | .bread .. | .logWrite .. | .brelse .. | .endOp _ => False

/-- The `commit()` that `p` is about to run gets all its buffers: whatever the processes
that hold no buffer do, nothing panics, and left alone it runs to its end. -/
def CommitGetsBuffers (start : Nat) (s : St Pid) (p : Pid) : Prop :=
  (∀ t, ((sys Pid start).restart s).ReachableBy (fun _ l => l.quiet p) t → t.panic = none) ∧
  ∃ t, ((sys Pid start).restart s).ReachableBy (fun _ l => l = .run p) t ∧
    t.pc p = .commit .done

/-- The buffers held at a place. -/
def Pc.bufs : Pc → List Nat
  | .commit k => k.bufs
  | _ => []

/-- Only `p` holds buffers, those of its place, and the header leaves one buffer free. -/
structure Alone (s : St Pid) (p : Pid) : Prop where
  panic : s.panic = none
  room : s.lh.length < NBUF
  held : s.held = (s.pc p).bufs.map fun i => (p, i)

/-- Nothing but the header is pinned in `commit()`. -/
theorem Commit.pinned_length_le (lh : List Nat) (k : Commit) : (k.pinned lh).length ≤ lh.length := by
  cases k with
  | head erase | headRel erase => cases erase <;> simp [Commit.pinned]
  | _ => simp [Commit.pinned]

variable {s : St Pid} {p : Pid} {P : List Nat} {k : Commit}

/-- `p` finds the buffer of a pinned block, and any other where it holds none. -/
theorem BufInv.found {x : Nat} (h : BufInv s P) (ha : Alone s p) (hp : s.pc p = .commit k)
    (hx : k.bufs = [] ∨ x ∈ k.pinned s.lh) :
    bget s.cache ROOTDEV x ≠ none := by
  obtain rfl := h.pinned p k hp
  rcases hx with hk | hx
  · have hrefs : ∀ j, s.refs j = 0 := by
      intro j
      simp [St.refs, ha.held, hp, Pc.bufs, hk]
    have hle := k.pinned_length_le s.lh
    have hroom := ha.room
    obtain ⟨b, hb, hidle⟩ := h.accounts.exists_idle hrefs (by omega)
    exact bget_of_idle hb hidle
  · obtain ⟨b, hb, hdev, hno⟩ := h.accounts.present x hx
    exact bget_of_cached hb hdev hno

/-- A piece of `commit()` went well: `s'` is nearer to its end. -/
def Nearer (s s' : St Pid) (p : Pid) (k : Commit) : Prop :=
  Alone s' p ∧ ∃ k', s'.pc p = .commit k' ∧ k'.rank s'.lh.length < k.rank s.lh.length

/-- `p` moves on within `commit()` with the buffers of its new place. -/
theorem Alone.moves {k' : Commit} {lh : List Nat} {c : Bcache} {held : List (Pid × Nat)}
    (ha : Alone s p) (hlh : lh.length ≤ s.lh.length) (hheld : held = k'.bufs.map fun i => (p, i))
    (hrank : k'.rank lh.length < k.rank s.lh.length) :
    Nearer s { s.goto p (.commit k') with lh := lh, cache := c, held := held } p k := by
  refine ⟨⟨ha.panic, lt_of_le_of_lt hlh ha.room, ?_⟩, k', goto_self s p _, hrank⟩
  change held = ((s.goto p (.commit k')).pc p).bufs.map _
  rw [goto_self]
  exact hheld

variable {s' : St Pid}

/-- One piece of `commit()`: every buffer is found, and the end comes nearer. -/
theorem Alone.piece (h : BufInv s P) (ha : Alone s p) (hp : s.pc p = .commit k)
    (hm : Piece s p k s') :
    Nearer s s' p k := by
  have hknows := h.knows p k hp
  have hheld : s.held = k.bufs.map fun i => (p, i) := by
    rw [ha.held, hp]
    rfl
  cases hm with
  | goes hgo =>
    refine ha.moves le_rfl ?_ hgo.rank
    rw [hheld, hgo.bufs.1, hgo.bufs.2]
  | gets hget =>
    simp only [St.bread]
    split
    · next hnone => exact absurd hnone (h.found ha hp (hget.found _ hknows))
    · next i c _ =>
      refine ha.moves le_rfl ?_ (hget.rank i)
      rw [hheld, hget.bufs, List.map_cons]
  | gives hgive =>
    refine ha.moves le_rfl ?_ (hgive.rank _ hknows)
    rw [hheld, hgive.bufs]
    exact (List.map_erase (Prod.mk_right_injective p) _).symm
  | unpin => exact ha.moves le_rfl hheld (Nat.lt_succ_self _)
  | clear hgo => exact ha.moves (Nat.zero_le _) hheld hgo.rank

variable {start : Nat}

theorem run_eq_some :
    step start s (.run p) = some s' ↔
      s.panic = none ∧ ∃ k, s.pc p = .commit k ∧ commitStep start s p k = s' := by
  simp only [step]
  split
  · next hpanic => simp [hpanic]
  · next hpanic =>
    split
    · next k hk => simp [hk, not_not.mp hpanic]
    · next hk => simpa using fun _ k hk' => absurd hk' (hk k)

omit [DecidableEq Pid] in
/-- Moves outside `commit()` leave the cache to `p`. -/
theorem Alone.congr (ha : Alone s p) (hpanic : s'.panic = s.panic) (hlh : s'.lh = s.lh)
    (hheld : s'.held = s.held) (hpc : (s'.pc p).bufs = (s.pc p).bufs) :
    Alone s' p :=
  ⟨hpanic.trans ha.panic, hlh ▸ ha.room, by rw [hheld, hpc]; exact ha.held⟩

theorem Alone.goto_idle {q : Pid} {x : Pc} (ha : Alone s p) (hq : (s.pc q).bufs = [])
    (hx : x.bufs = []) : Alone (s.goto q x) p := by
  refine ha.congr rfl rfl rfl ?_
  rw [goto_pc]
  split
  · next hpq => rw [hx, hpq, hq]
  · rfl

/-- Every step of a quiet system leaves the cache to `p` and does not panic. -/
theorem Alone.quiet_step {l : Lbl Pid} (h : BufInv s P) (ha : Alone s p) (hl : l.quiet p)
    (hstep : step start s l = some s') :
    Alone s' p := by
  cases (step_act hstep).2 with
  | enter hq | wake hq | sleep hq => exact ha.goto_idle (by rw [hq]; rfl) rfl
  | admitted hq => exact (ha.goto_idle (x := .inOp) (by rw [hq]; rfl) rfl).congr rfl rfl rfl rfl
  | run hq hm =>
    obtain rfl := hl
    exact (ha.piece h hq hm).1
  | done hq =>
    obtain rfl := hl
    refine ha.congr rfl rfl rfl ?_
    simp [St.goto, hq, Pc.bufs, Commit.bufs]
  | _ => exact absurd hl id

/-- Left alone, `commit()` runs to its end. -/
theorem Alone.finishes {s₀ : St Pid} : ∀ (n : Nat) {s : St Pid} {k : Commit},
    ((sys Pid start).restart s₀).ReachableBy (fun _ l => l = .run p) s →
    (∃ A P, OpsInv s A ∧ BufInv s P) → Alone s p → s.pc p = .commit k →
    k.rank s.lh.length ≤ n →
    ∃ t, ((sys Pid start).restart s₀).ReachableBy (fun _ l => l = .run p) t ∧
      t.pc p = .commit .done := by
  intro n
  induction n with
  | zero =>
    intro s k hs _ _ hp hrank
    refine ⟨s, hs, ?_⟩
    cases k with
    | done => exact hp
    | head erase => cases erase <;> simp [Commit.rank] at hrank
    | headRel erase buf => cases erase <;> simp [Commit.rank] at hrank
    | _ => simp [Commit.rank] at hrank
  | succ n ih =>
    rintro s k hs ⟨A, P, ho, hb⟩ ha hp hrank
    by_cases hk : k = .done
    · exact ⟨s, hs, hk ▸ hp⟩
    have hstep : step start s (.run p) = some (commitStep start s p k) :=
      run_eq_some.mpr ⟨ha.panic, k, hp, rfl⟩
    obtain ⟨ha', k', hp', hlt⟩ := ha.piece hb hp (commitStep_piece start s p hk)
    obtain ⟨P', hb'⟩ := step_bufInv ho hb hstep
    exact ih (hs.step (.run p) rfl hstep) ⟨_, P', step_opsInv ho hstep, hb'⟩ ha' hp' (by omega)

/-- A block enters the header by `log_write` only. -/
theorem step_header {l : Lbl Pid} (hstep : step start s l = some s') {x : Nat} (hx : x ∈ s'.lh) :
    x ∈ s.lh ∨ ∃ p i, l = .logWrite p i ∧ x ∈ s.blockOf i := by
  cases (step_act hstep).2 with
  | logWrite _ _ hy =>
    rcases mem_absorb.mp hx with hx | rfl
    · exact Or.inl hx
    · exact Or.inr ⟨_, _, rfl, hy⟩
  | run _ hm =>
    cases hm with
    | gets =>
      simp only [St.bread] at hx
      split at hx <;> exact Or.inl hx
    | clear => cases hx
    | goes | gives | unpin => exact Or.inl hx
  | _ => exact Or.inl hx

/-- The header only holds home blocks. -/
theorem header_outside (h : (sys Pid start).ReachableBy (OutsideLog start) s) :
    ∀ x ∈ s.lh, x < start ∨ start + LOGBLOCKS < x := by
  refine System.ReachableBy.invariant (fun s => ∀ x ∈ s.lh, x < start ∨ start + LOGBLOCKS < x)
    ?_ ?_ h
  · intro s hs
    simp [hs.1]
  · intro s l s' hs hl hstep x hx
    rcases step_header hstep hx with hx | ⟨p, i, rfl, hblock⟩
    · exact hs x hx
    · exact hl x hblock

/-- With `NBUF` blocks pinned the first `bread` of `write_log` finds no buffer. -/
theorem full_commit_panics (h : BufInv s P) (hp : s.pc p = .commit .start) (hpanic : s.panic = none)
    (hfull : NBUF ≤ s.lh.length) (hout : start + 1 ∉ s.lh) :
    ∃ t, ((sys Pid start).restart s).ReachableBy (fun _ l => l.quiet p) t ∧
      t.panic = some .noBuffers := by
  obtain rfl := h.pinned p _ hp
  have hlen : s.lh.length = NBUF := le_antisymm (h.accounts.pinned_le h.nodup) hfull
  have hnone := h.accounts.bget_none h.nodup hlen hout
  have hpos : 0 < s.lh.length := by rw [hlen]; decide
  have hfirst : step start s (.run p) = some (s.goto p (.commit (.logTo 0))) := by
    refine run_eq_some.mpr ⟨hpanic, _, hp, ?_⟩
    simp [commitStep, hpos]
  have hsecond : step start (s.goto p (.commit (.logTo 0))) (.run p) =
      some { s.goto p (.commit (.logTo 0)) with panic := some .noBuffers } := by
    refine run_eq_some.mpr ⟨hpanic, .logTo 0, by simp [St.goto], ?_⟩
    have hlh : (s.goto p (.commit (.logTo 0))).lh = s.lh := rfl
    have hcache : (s.goto p (.commit (.logTo 0))).cache = s.cache := rfl
    simp only [commitStep, hlh, hpos, if_true, St.bread, hcache, Nat.add_zero, hnone]
  have hinit : ((sys Pid start).restart s).ReachableBy (fun _ l => l.quiet p) s := .init rfl
  have hquiet : (Lbl.run p).quiet p := rfl
  exact ⟨_, (hinit.step (Lbl.run p) hquiet hfirst).step (Lbl.run p) hquiet hsecond, rfl⟩

/-- A commit that starts with no buffer held gets all the buffers it asks for exactly when
the group logged fewer than `NBUF` blocks. -/
theorem commit_buffers_iff {start : Nat} {s : St Pid} {p : Pid}
    (h : (sys Pid start).ReachableBy (OutsideLog start) s) (hp : s.pc p = .commit .start)
    (hheld : s.held = []) (hpanic : s.panic = none) :
    CommitGetsBuffers start s p ↔ s.lh.length < NBUF := by
  obtain ⟨A, P, ho, hb⟩ := reachable_bufInv h.reachable
  constructor
  · rintro ⟨hsafe, -⟩
    by_contra hfull
    have hout : start + 1 ∉ s.lh := by
      intro hin
      have := header_outside h _ hin
      simp only [LOGBLOCKS, MAXOPBLOCKS] at this
      omega
    obtain ⟨t, hreach, ht⟩ := full_commit_panics hb hp hpanic (not_lt.mp hfull) hout
    rw [hsafe t hreach] at ht
    cases ht
  · intro hroom
    have ha : Alone s p := ⟨hpanic, hroom, by rw [hheld, hp]; rfl⟩
    refine ⟨fun t ht => ?_, ha.finishes _ (.init rfl) ⟨A, P, ho, hb⟩ hp le_rfl⟩
    have hinv := System.ReachableBy.invariant
      (fun s => (∃ A P, OpsInv s A ∧ BufInv s P) ∧ Alone s p) ?_ ?_ ht
    · exact hinv.2.panic
    · rintro s' rfl
      exact ⟨⟨A, P, ho, hb⟩, ha⟩
    · rintro s' l t' ⟨⟨A', P', ho', hb'⟩, ha'⟩ hl hstep
      obtain ⟨P'', hb''⟩ := step_bufInv ho' hb' hstep
      exact ⟨⟨_, P'', step_opsInv ho' hstep, hb''⟩, ha'.quiet_step hb' hl hstep⟩

/-! ## Three operations that fill the log and the cache -/

/-- The three operations of `fillLog` end, the last of them with the commit. -/
def fullCommit : List (Lbl (Fin 3)) := fillLog ++ [.endOp 0, .endOp 1, .endOp 2]

instance (start : Nat) (s : St Pid) : ∀ l, Decidable (OutsideLog start s l)
  | .logWrite _ i =>
    inferInstanceAs (Decidable (∀ x ∈ s.blockOf i, x < start ∨ start + LOGBLOCKS < x))
  | .enter _ | .beginOp _ | .wake _ | .bread .. | .brelse .. | .endOp _ | .run _ =>
    inferInstanceAs (Decidable True)

theorem fullCommit_ok : ∀ m ∈ (sys (Fin 3) 2).moves idle3 fullCommit,
    OutsideLog 2 m.1 m.2 ∧ WithinBudget m.1 m.2 := by
  decide +kernel

/-- The commit starts with thirty blocks logged and no buffer held. -/
theorem fullCommit_end : ∃ s, (sys (Fin 3) 2).exec idle3 fullCommit = some s ∧
    s.pc 2 = .commit .start ∧ s.held = [] ∧ s.panic = none ∧ s.lh.length = NBUF := by
  have hsome : ((sys (Fin 3) 2).exec idle3 fullCommit).isSome = true := by decide +kernel
  obtain ⟨s, hs⟩ := Option.isSome_iff_exists.mp hsome
  have hall : ∀ t ∈ (sys (Fin 3) 2).exec idle3 fullCommit,
      t.pc 2 = .commit .start ∧ t.held = [] ∧ t.panic = none ∧ t.lh.length = NBUF := by
    decide +kernel
  exact ⟨s, hs, hall s hs⟩

/-- With every operation within its budget the commit does not get its buffers. -/
theorem fullCommit_starves :
    ¬ ∀ (s : St (Fin 3)) (p : Fin 3),
      (sys (Fin 3) 2).ReachableBy (fun s l => OutsideLog 2 s l ∧ WithinBudget s l) s →
      s.pc p = .commit .start → s.held = [] → s.panic = none → CommitGetsBuffers 2 s p := by
  intro hall
  obtain ⟨s, hexec, hp, hheld, hpanic, hlen⟩ := fullCommit_end
  have hreach : (sys (Fin 3) 2).ReachableBy (fun s l => OutsideLog 2 s l ∧ WithinBudget s l) s :=
    System.ReachableBy.exec (.init idle3_init) fullCommit_ok hexec
  obtain ⟨A, P, -, hb⟩ := reachable_bufInv hreach.reachable
  have hout : ∀ t ∈ (sys (Fin 3) 2).exec idle3 fullCommit, 2 + 1 ∉ t.lh := by decide +kernel
  obtain ⟨t, ht, hbad⟩ := full_commit_panics hb hp hpanic hlen.ge (hout s hexec)
  rw [(hall s 2 hreach hp hheld hpanic).1 t ht] at hbad
  cases hbad

/-- The characterisation at that state. -/
theorem commit_buffers_iff_fullCommit :
    ∃ s, (sys (Fin 3) 2).ReachableBy (OutsideLog 2) s ∧ s.pc 2 = .commit .start ∧
      s.held = [] ∧ s.panic = none ∧ (CommitGetsBuffers 2 s 2 ↔ s.lh.length < NBUF) := by
  obtain ⟨s, hexec, hp, hheld, hpanic, -⟩ := fullCommit_end
  have hreach : (sys (Fin 3) 2).ReachableBy (OutsideLog 2) s :=
    System.ReachableBy.exec (.init idle3_init) (fun m hm => (fullCommit_ok m hm).1) hexec
  exact ⟨s, hreach, hp, hheld, hpanic, commit_buffers_iff hreach hp hheld hpanic⟩

end Xv6.Log
