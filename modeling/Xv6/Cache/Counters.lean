import Xv6.Cache.Integrity

/-!
# Xv6.Cache.Counters — the cache and disk counters agree

Every lookup is a hit or a miss, and every miss is followed by one disk read. The read need
not be made by the session that missed: whoever gets the buffer's lock first, and finds it
not valid, makes it. `Tally` says where a miss can be whose read has not been issued: with a
session that is on its way to the lock of the buffer.
-/

namespace Xv6.Cache

open Lib Function

variable {U δ : Type} [DecidableEq U]

/-- The number of buffers assigned by a miss whose disk read has not been issued. -/
def pending (s : St U δ) : Nat := (Finset.univ.filter fun i => s.unread i = true).card

/-- Lookups counted that are neither a hit nor a miss yet. -/
def inflight (s : St U δ) : Nat := if s.lock = none then 0 else 1

/-- The counters are the numbers of events, as words of 64 bits. -/
structure Words (s : St U δ) : Prop where
  read : s.read_cache_counter = BitVec.ofNat 64 (s.hits + s.misses + inflight s)
  hit : s.read_cache_hit_counter = BitVec.ofNat 64 s.hits
  write : s.write_cahce_counter = BitVec.ofNat 64 s.misses
  disk : s.read_disk_counter = BitVec.ofNat 64 s.reads
  missed : s.misses = s.reads + pending s

/-- Where the misses are of buffer `j` whose read has not been issued. -/
structure TallyAt (s : St U δ) (j : Fin NBUF) : Prop where
  -- a buffer that is or was in use has a block; it is valid, or its read is to come
  assigned : ∀ u, (s.pc u).on = some j → (s.buf j).dev ≠ 0
  invalid : (s.buf j).dev ≠ 0 → (s.buf j).valid = false →
    s.unread j = true ∨ ∃ u, s.pc u = .reading j
  fresh : s.unread j = true → (s.buf j).valid = false
  issued : ∀ u, s.pc u = .reading j → s.unread j = false
  waits : s.unread j = true → ∃ u, s.pc u = .wait j ∨ s.pc u = .locked j

def Tally (s : St U δ) : Prop := ∀ j, TallyAt s j

theorem card_update_true {ι : Type*} [Fintype ι] [DecidableEq ι] {f : ι → Bool} {i : ι}
    (h : f i = false) :
    (Finset.univ.filter fun j => update f i true j = true).card =
      (Finset.univ.filter fun j => f j = true).card + 1 := by
  have hins : (Finset.univ.filter fun j => update f i true j = true) =
      insert i (Finset.univ.filter fun j => f j = true) := by
    ext j
    by_cases hj : j = i
    · simp [hj]
    · simp [hj]
  rw [hins, Finset.card_insert_of_notMem (by simp [h])]

theorem card_update_false {ι : Type*} [Fintype ι] [DecidableEq ι] {f : ι → Bool} {i : ι}
    (h : f i = true) :
    (Finset.univ.filter fun j => update f i false j = true).card + 1 =
      (Finset.univ.filter fun j => f j = true).card := by
  rw [← card_update_true (update_self ..), update_idem]
  congr
  rw [← h, update_eq_self]

section Tally

variable {s t : St U δ} {u : U} {i : Fin NBUF}

omit [DecidableEq U] in
/-- A session that has a buffer locked, and finds it not valid, has to issue the read. -/
theorem Tally.unread_of_locked [Fintype U] (h : Tally s) (hi : Inv s) (hpc : s.pc u = .locked i)
    (hvalid : (s.buf i).valid = false) : s.unread i = true := by
  rcases (h i).invalid ((h i).assigned u (by rw [hpc]; rfl)) hvalid with hun | ⟨v, hv⟩
  · exact hun
  · -- the one that waits for the disk would have the lock
    have hu' : (s.pc u).holds = some i := by rw [hpc]; rfl
    have hv' : (s.pc v).holds = some i := by rw [hv]; rfl
    have hsame := ((hi.locks i u).mpr hu').symm.trans ((hi.locks i v).mpr hv')
    cases hsame
    rw [hpc] at hv
    cases hv

omit [DecidableEq U] in
/-- What `bget` recycles has no read to come: somebody would be on it. -/
theorem Tally.victim_read [Fintype U] (h : Tally s) (hi : Inv s)
    (hv : victim s = some (some i)) : s.unread i = false := by
  rcases hi.listed with ⟨l, hl⟩
  by_contra hne
  rcases (h i).waits (by simpa using hne) with ⟨u, hu⟩
  have hon : (s.pc u).on = some i := by rcases hu with hu | hu <;> rw [hu] <;> rfl
  have := hi.counted.pos hon
  rw [(hl.victim_spec hv).1] at this
  cases this

/-- One session moves; validity, device and read to come of the buffer are left alone. -/
theorem TallyAt.same {pc : Pc} {j : Fin NBUF} (h : TallyAt s j) (hpc : t.pc = update s.pc u pc)
    (hbuf : (t.buf j).valid = (s.buf j).valid ∧ (t.buf j).dev = (s.buf j).dev)
    (hunread : t.unread j = s.unread j)
    (hon : pc.on = some j → (s.pc u).on = some j ∨ (s.buf j).dev ≠ 0) (hold : s.pc u ≠ .reading j)
    (hnew : pc ≠ .reading j) (hwaits : s.pc u = .wait j ∨ s.pc u = .locked j →
      (pc = .wait j ∨ pc = .locked j) ∨ (s.buf j).valid = true) : TallyAt t j := by
  obtain ⟨hat, hoff⟩ := eq_update_iff.mp hpc
  refine ⟨fun v hv => ?_, fun hdev hvalid => ?_, fun hj => ?_, fun v hv => ?_, fun hj => ?_⟩
  · rw [hbuf.2]
    by_cases hvu : v = u
    · rw [hvu, hat] at hv
      exact (hon hv).elim (h.assigned u) id
    · rw [hoff v hvu] at hv
      exact h.assigned v hv
  · rw [hbuf.2] at hdev
    rw [hbuf.1] at hvalid
    rw [hunread]
    refine (h.invalid hdev hvalid).imp_right fun ⟨v, hv⟩ => ⟨v, ?_⟩
    rw [hoff v fun e => hold (e ▸ hv), hv]
  · rw [hunread] at hj
    rw [hbuf.1]
    exact h.fresh hj
  · rw [hunread]
    have hvu : v ≠ u := fun e => hnew (by rw [← hat, ← e, hv])
    rw [hoff v hvu] at hv
    exact h.issued v hv
  · rw [hunread] at hj
    rcases h.waits hj with ⟨v, hv⟩
    by_cases hvu : v = u
    · rw [hvu] at hv
      rcases hwaits hv with hpc' | hvalid
      · exact ⟨u, by rwa [hat]⟩
      · rw [h.fresh hj] at hvalid
        cases hvalid
    · exact ⟨v, by rwa [hoff v hvu]⟩

/-- The session that moves has nothing to do with the buffer. -/
theorem TallyAt.frame {pc : Pc} {j : Fin NBUF} (h : TallyAt s j) (hpc : t.pc = update s.pc u pc)
    (hbuf : t.buf j = s.buf j) (hunread : t.unread j = s.unread j)
    (hwas : (s.pc u).on ≠ some j) (hnow : pc.on ≠ some j) : TallyAt t j := by
  refine h.same hpc (by rw [hbuf]; exact ⟨rfl, rfl⟩) hunread (fun hon => absurd hon hnow)
    (fun e => hwas (by rw [e]; rfl)) (fun e => hnow (by rw [e]; rfl)) fun hw => absurd ?_ hwas
  rcases hw with e | e <;> rw [e] <;> rfl

/-- A step that leaves validity, devices and reads to come alone, moving one session. -/
theorem Tally.same {pc : Pc} (h : Tally s) (hpc : t.pc = update s.pc u pc)
    (hbuf : ∀ j, (t.buf j).valid = (s.buf j).valid ∧ (t.buf j).dev = (s.buf j).dev)
    (hunread : t.unread = s.unread)
    (hon : ∀ j, pc.on = some j → (s.pc u).on = some j ∨ (s.buf j).dev ≠ 0)
    (hold : ∀ j, s.pc u ≠ .reading j) (hnew : ∀ j, pc ≠ .reading j)
    (hwaits : ∀ j, s.pc u = .wait j ∨ s.pc u = .locked j →
      (pc = .wait j ∨ pc = .locked j) ∨ (s.buf j).valid = true) : Tally t :=
  fun j => (h j).same hpc (hbuf j) (by rw [hunread]) (hon j) (hold j) (hnew j) (hwaits j)

omit [DecidableEq U] in
theorem buf_same {b : Buf U δ} (hvalid : b.valid = (s.buf i).valid) (hdev : b.dev = (s.buf i).dev)
    (j : Fin NBUF) : (update s.buf i b j).valid = (s.buf j).valid ∧
      (update s.buf i b j).dev = (s.buf j).dev :=
  ⟨update_field Buf.valid hvalid j, update_field Buf.dev hdev j⟩

omit [DecidableEq U] in
/-- A step that changes none of what the tally is about. -/
theorem Tally.congr (h : Tally s) (hpc : t.pc = s.pc) (hunread : t.unread = s.unread)
    (hbuf : ∀ j, (t.buf j).valid = (s.buf j).valid ∧ (t.buf j).dev = (s.buf j).dev) :
    Tally t := by
  refine fun j => ⟨?_, ?_, ?_, ?_, ?_⟩
  · rw [hpc, (hbuf j).2]
    exact (h j).assigned
  · rw [hpc, hunread, (hbuf j).1, (hbuf j).2]
    exact (h j).invalid
  · rw [hunread, (hbuf j).1]
    exact (h j).fresh
  · rw [hpc, hunread]
    exact (h j).issued
  · rw [hpc, hunread]
    exact (h j).waits

/-- A miss: the session that missed waits for the buffer it was given. -/
theorem Tally.miss [Fintype U] {dev blockno : BitVec 32} (h : Tally s) (hi : Inv s)
    (hpc : s.pc u = .look dev blockno) (hv : victim s = some (some i))
    (hpcs : t.pc = update s.pc u (.wait i)) (hbuf : t.buf = update s.buf i
      { s.buf i with dev := dev, blockno := blockno, valid := false, refcnt := 1 })
    (hunread : t.unread = update s.unread i true) : Tally t := by
  intro j
  by_cases hj : j = i
  swap
  · exact (h j).frame hpcs (by rw [hbuf, update_of_ne hj])
      (by rw [hunread, update_of_ne hj]) (by rw [hpc]; exact nofun) fun e => hj (by cases e; rfl)
  subst hj
  have hat : t.pc u = .wait j := by rw [hpcs, update_self]
  have hun : t.unread j = true := by rw [hunread, update_self]
  refine ⟨fun v _ => ?_, fun _ _ => .inl hun, fun _ => ?_, fun v hvj => ?_, fun _ => ⟨u, .inl hat⟩⟩
  · rw [hbuf, update_self]
    exact hi.dev u dev blockno hpc
  · rw [hbuf, update_self]
  · -- nobody is on what is recycled
    have hvu : v ≠ u := fun e => by rw [e, hat] at hvj; cases hvj
    rw [hpcs, update_of_ne hvu] at hvj
    rcases hi.listed with ⟨l, hl⟩
    have hpos := hi.counted.pos (u := v) (i := j) (by rw [hvj]; rfl)
    rw [(hl.victim_spec hv).1] at hpos
    cases hpos

/-- The read is issued by whoever has the buffer locked. -/
theorem Tally.issue (h : Tally s) (hpc : s.pc u = .locked i)
    (hpcs : t.pc = update s.pc u (.reading i)) (hbuf : t.buf = s.buf)
    (hunread : t.unread = update s.unread i false) : Tally t := by
  intro j
  by_cases hj : j = i
  swap
  · exact (h j).frame hpcs (by rw [hbuf]) (by rw [hunread, update_of_ne hj])
      (by rw [hpc]; exact fun e => hj (by cases e; rfl)) fun e => hj (by cases e; rfl)
  subst hj
  have hun : t.unread j = false := by rw [hunread, update_self]
  refine ⟨fun v _ => ?_, fun _ _ => .inr ⟨u, by rw [hpcs, update_self]⟩, fun he => ?_,
    fun _ _ => hun, fun he => ?_⟩
  · rw [hbuf]
    exact (h j).assigned u (by rw [hpc]; rfl)
  · rw [hun] at he
    cases he
  · rw [hun] at he
    cases he

/-- The disk is done: the buffer is valid, and had its read issued. -/
theorem Tally.done {d : δ} (h : Tally s) (hpc : s.pc u = .reading i)
    (hpcs : t.pc = update s.pc u (.held i))
    (hbuf : t.buf = update s.buf i { s.buf i with data := d, valid := true })
    (hunread : t.unread = s.unread) : Tally t := by
  intro j
  by_cases hj : j = i
  swap
  · exact (h j).frame hpcs (by rw [hbuf, update_of_ne hj]) (by rw [hunread])
      (by rw [hpc]; exact fun e => hj (by cases e; rfl)) fun e => hj (by cases e; rfl)
  subst hj
  have hun : t.unread j = false := by rw [hunread, (h j).issued u hpc]
  refine ⟨fun v _ => ?_, fun _ hinvalid => ?_, fun he => ?_, fun _ _ => hun, fun he => ?_⟩
  · rw [hbuf, update_self]
    exact (h j).assigned u (by rw [hpc]; rfl)
  · rw [hbuf, update_self] at hinvalid
    cases hinvalid
  · rw [hun] at he
    cases he
  · rw [hun] at he
    cases he

theorem Tally.moves [Fintype U] (h : Tally s) (hi : Inv s) (hm : Moves s t) : Tally t := by
  cases hm with
  | call u dev blockno hpc =>
    exact h.same rfl (fun _ => ⟨rfl, rfl⟩) rfl nofun (by rw [hpc]; exact nofun) nofun
      (by rw [hpc]; rintro j (h | h) <;> cases h)
  | hit u dev blockno i hpc hfound =>
    rcases hi.listed with ⟨l, hl⟩
    refine h.same rfl (buf_same rfl rfl) rfl ?_ (by rw [hpc]; exact nofun) nofun
      (by rw [hpc]; rintro j (h | h) <;> cases h)
    intro j hj
    cases hj
    right
    rw [(hl.holds_of_cached hfound).1]
    exact hi.dev u dev blockno hpc
  | miss u dev blockno i hpc _ hv => exact h.miss hi hpc hv rfl rfl rfl
  | lock u i hpc =>
    refine h.same rfl (buf_same rfl rfl) rfl ?_ (by rw [hpc]; exact nofun) nofun ?_
    · intro j hj
      exact .inl (by rw [hpc]; exact hj)
    · rw [hpc]
      rintro j (hj | hj) <;> cases hj
      exact .inl (.inr rfl)
  | ready u i hpc hvalid =>
    refine h.same rfl (fun _ => ⟨rfl, rfl⟩) rfl ?_ (by rw [hpc]; exact nofun) nofun ?_
    · intro j hj
      exact .inl (by rw [hpc]; exact hj)
    · rw [hpc]
      rintro j (hj | hj) <;> cases hj
      exact .inr hvalid
  | issue u i hpc => exact h.issue hpc rfl rfl rfl
  | done u i d hpc => exact h.done hpc rfl rfl rfl
  | unlock u i hpc =>
    refine h.same rfl (buf_same rfl rfl) rfl ?_ (by rw [hpc]; exact nofun) nofun
      (by rw [hpc]; rintro j (h | h) <;> cases h)
    intro j hj
    exact .inl (by rw [hpc]; exact hj)
  | drop u i hpc =>
    rcases brelse_spec s u i with ⟨hbuf, hpcs, -, -, hunread, -⟩
    refine h.same hpcs ?_ hunread nofun (by rw [hpc]; exact nofun) nofun
      (by rw [hpc]; rintro j (h | h) <;> cases h)
    rw [hbuf]
    exact buf_same rfl rfl
  | write u i d | pin u i | unpin i => exact h.congr rfl rfl (buf_same (by rfl) (by rfl))
  | bwrite | panic => exact h.congr rfl rfl fun _ => ⟨rfl, rfl⟩

end Tally

/-! ## The words -/

section Words

variable {s t : St U δ} {u : U} {i : Fin NBUF}

omit [DecidableEq U] in
theorem pending_eq_zero (h : ∀ i, s.unread i ≠ true) : pending s = 0 := by
  rw [pending, Finset.card_eq_zero, Finset.filter_eq_empty_iff]
  exact fun i _ => h i

theorem brelse_counters (s : St U δ) (u : U) (i : Fin NBUF) :
    (brelse s u i).read_cache_counter = s.read_cache_counter ∧
      (brelse s u i).read_cache_hit_counter = s.read_cache_hit_counter ∧
      (brelse s u i).write_cahce_counter = s.write_cahce_counter ∧
      (brelse s u i).read_disk_counter = s.read_disk_counter ∧
      (brelse s u i).hits = s.hits ∧ (brelse s u i).misses = s.misses ∧
      (brelse s u i).reads = s.reads := by
  unfold brelse
  simp only
  split <;> exact ⟨rfl, rfl, rfl, rfl, rfl, rfl, rfl⟩

omit [DecidableEq U] in
/-- While a lookup is under way `bcache.lock` is held, so it is the only one. -/
theorem Inv.inflight_one [Fintype U] (hi : Inv s) {dev blockno : BitVec 32}
    (hpc : s.pc u = .look dev blockno) : inflight s = 1 := by
  have hlook : (s.pc u).looks = some () := by rw [hpc]; rfl
  have hlock : s.lock = some u := (hi.looks () u).mpr hlook
  unfold inflight
  rw [if_neg (by rw [hlock]; exact nofun)]

theorem ofNat_succ {n m : Nat} (h : m = n + 1) : BitVec.ofNat 64 n + 1 = BitVec.ofNat 64 m := by
  rw [h]
  exact (BitVec.ofNat_add n 1).symm

theorem Words.moves [Fintype U] (h : Words s) (ht : Tally s) (hi : Inv s) (hm : Moves s t) :
    Words t := by
  cases hm with
  | call u dev blockno hpc hlock =>
    have hzero : inflight s = 0 := if_pos hlock
    refine ⟨?_, h.hit, h.write, h.disk, h.missed⟩
    show s.read_cache_counter + 1 = BitVec.ofNat 64 (s.hits + s.misses + 1)
    rw [h.read, hzero]
    exact ofNat_succ rfl
  | hit u dev blockno i hpc =>
    have hone := hi.inflight_one hpc
    refine ⟨?_, ?_, h.write, h.disk, h.missed⟩
    · show s.read_cache_counter = BitVec.ofNat 64 (s.hits + 1 + s.misses + 0)
      rw [h.read, hone]
      congr 1
      omega
    · show s.read_cache_hit_counter + 1 = _
      rw [h.hit]
      exact ofNat_succ rfl
  | miss u dev blockno i hpc habsent hv =>
    have hone := hi.inflight_one hpc
    have hcard := card_update_true (ht.victim_read hi hv)
    refine ⟨?_, h.hit, ?_, h.disk, ?_⟩
    · show s.read_cache_counter = BitVec.ofNat 64 (s.hits + (s.misses + 1) + 0)
      rw [h.read, hone]
      congr 1
    · show s.write_cahce_counter + 1 = _
      rw [h.write]
      exact ofNat_succ rfl
    · have := h.missed
      unfold pending at this ⊢
      show s.misses + 1 = s.reads + _
      rw [hcard]
      omega
  | issue u i hpc hvalid =>
    have hcard := card_update_false (ht.unread_of_locked hi hpc hvalid)
    refine ⟨h.read, h.hit, h.write, ?_, ?_⟩
    · show s.read_disk_counter + 1 = _
      rw [h.disk]
      exact ofNat_succ rfl
    · have := h.missed
      unfold pending at this ⊢
      show s.misses = s.reads + 1 + (Finset.univ.filter fun j =>
        update s.unread i false j = true).card
      omega
  | drop u i hpc hlock =>
    rcases brelse_counters s u i with ⟨hread, hhit, hwrite, hdisk, hh, hmi, hr⟩
    rcases brelse_spec s u i with ⟨-, -, hlk, -, hunread, -⟩
    refine ⟨?_, by rw [hhit, hh]; exact h.hit, by rw [hwrite, hmi]; exact h.write,
      by rw [hdisk, hr]; exact h.disk, ?_⟩
    · unfold inflight
      rw [hread, hh, hmi, hlk]
      exact h.read
    · unfold pending
      rw [hmi, hr, hunread]
      exact h.missed
  | lock | ready | done | write | bwrite | unlock | pin | unpin | panic =>
    exact ⟨h.read, h.hit, h.write, h.disk, h.missed⟩

variable [Fintype U]

theorem reachable_tally (h : (sys U δ).Reachable s) : Inv s ∧ Tally s ∧ Words s := by
  refine h.invariant (fun s => Inv s ∧ Tally s ∧ Words s) ?_ ?_
  · intro s h₀
    refine ⟨.init h₀, ?_, ?_⟩
    · rcases h₀ with ⟨hbuf, -, -, -, -, -, -, -, hpc, -, hhist, -⟩
      intro j
      have hun : s.unread j = false := (hhist j).2.2
      refine ⟨fun u hu => ?_, fun hdev => absurd (hbuf j).2.1 hdev, ?_, fun _ _ => hun, ?_⟩
      · rw [hpc u] at hu
        cases hu
      · rw [hun]
        exact nofun
      · rw [hun]
        exact nofun
    · rcases h₀ with ⟨-, -, hlock, hread, hhit, hwrite, hdisk, -, -, -, hhist, -, hh, hm, hr⟩
      have hnone : pending s = 0 := pending_eq_zero fun i => by rw [(hhist i).2.2]; exact nofun
      have hzero : inflight s = 0 := if_pos hlock
      exact ⟨by rw [hread, hh, hm, hzero]; rfl, by rw [hhit, hh]; rfl, by rw [hwrite, hm]; rfl,
        by rw [hdisk, hr]; rfl, by rw [hm, hr, hnone]⟩
  · intro s t l ⟨hi, ht, hw⟩ hs
    have hm := step_moves hs
    exact ⟨hi.moves hm, ht.moves hi hm, hw.moves ht hi hm⟩

/-- No session is between the start of `bread` and its return. -/
def noBread (s : St U δ) : Prop := ∀ u, s.pc u = .out ∨ (∃ i, s.pc u = .held i) ∨ ∃ i, s.pc u = .rel i

/-- In every reachable state with `bcache.lock` free every lookup counted is a hit or a miss;
always, the misses exceed the disk reads by the buffers whose read is still to be issued, and
by none when no `bread` is under way. The counters are words of 64 bits: the comparison of
the two is one of the events counted, and of the words until they wrap. -/
theorem counters_agree (h : (sys U δ).Reachable s) :
    (s.lock = none →
      s.read_cache_counter = s.read_cache_hit_counter + s.write_cahce_counter) ∧
    s.write_cahce_counter - s.read_disk_counter = BitVec.ofNat 64 (pending s) ∧
    s.write_cahce_counter = BitVec.ofNat 64 s.misses ∧
    s.read_disk_counter = BitVec.ofNat 64 s.reads ∧ s.reads ≤ s.misses ∧
    (s.misses < 2 ^ 64 → s.read_disk_counter ≤ s.write_cahce_counter) ∧
    (noBread s → s.read_disk_counter = s.write_cahce_counter) := by
  rcases reachable_tally h with ⟨hi, ht, hw⟩
  have hsum : s.write_cahce_counter = s.read_disk_counter + BitVec.ofNat 64 (pending s) := by
    rw [hw.write, hw.disk, hw.missed, BitVec.ofNat_add]
  refine ⟨?_, ?_, hw.write, hw.disk, by have := hw.missed; omega, ?_, ?_⟩
  · intro hlock
    have hzero : inflight s = 0 := if_pos hlock
    rw [hw.read, hw.hit, hw.write, hzero, Nat.add_zero, BitVec.ofNat_add]
  · rw [hsum, BitVec.add_comm]
    exact BitVec.add_sub_cancel ..
  · intro hlt
    have := hw.missed
    rw [hw.disk, hw.write, BitVec.le_def, BitVec.toNat_ofNat, BitVec.toNat_ofNat,
      Nat.mod_eq_of_lt hlt, Nat.mod_eq_of_lt (by omega)]
    omega
  · intro hno
    have hnone : pending s = 0 := pending_eq_zero fun i hun => by
      rcases (ht i).waits hun with ⟨u, hu⟩
      rcases hno u with h' | ⟨j, h'⟩ | ⟨j, h'⟩ <;> rw [h'] at hu <;> rcases hu with hu | hu <;>
        cases hu
    rw [hsum, hnone]
    exact (BitVec.add_zero _).symm

end Words

/-- Two sessions read one block; the second, which hits, issues the disk read. -/
def stealRun : List (Lbl Bool Nat) :=
  [.bread false 1 5, .go false, .bread true 1 5, .go true, .go true, .go true, .done true 55]

theorem counters_agree_stealRun :
    ∃ s, (sys Bool Nat).Reachable s ∧ s.lock = none ∧ s.misses = 1 ∧ s.hits = 1 ∧
      s.read_cache_counter = s.read_cache_hit_counter + s.write_cahce_counter ∧
      s.read_disk_counter ≤ s.write_cahce_counter := by
  obtain ⟨s, hreach, hlock, hmisses, hhits⟩ : ∃ s, (sys Bool Nat).Reachable s ∧ s.lock = none ∧
      s.misses = 1 ∧ s.hits = 1 := System.reaches (boot_init 0) stealRun (by decide +kernel)
  rcases counters_agree hreach with ⟨hread, -, -, -, -, hle, -⟩
  exact ⟨s, hreach, hlock, hmisses, hhits, hread hlock, hle (by rw [hmisses]; decide)⟩

end Xv6.Cache
