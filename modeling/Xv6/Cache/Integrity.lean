import Xv6.Cache.Basic
import Xv6.Lib.Holding
import Xv6.Lib.Uses

/-!
# Xv6.Cache.Integrity — the buffer cache keeps its list, its blocks and its references

The pointers form the ring of all buffers, most recently released first; a buffer's
reference count is the number of sessions on it and of pins; two buffers never hold one
block. So what `bget` recycles is a buffer without users, the one released longest ago.
-/

namespace Xv6.Cache

open Lib Function List

variable {U δ : Type} [DecidableEq U]

/-! ## What a step does -/

/-- The steps, one constructor for each thing that can happen. -/
inductive Moves (s : St U δ) : St U δ → Prop where
  | call (u : U) (dev blockno : BitVec 32) (hpc : s.pc u = .out) (hlock : s.lock = none)
      (hdev : dev ≠ 0) :
      Moves s { s.goto u (.look dev blockno) with
        lock := some u
        read_cache_counter := s.read_cache_counter + 1 }
  | hit (u : U) (dev blockno : BitVec 32) (i : Fin NBUF) (hpc : s.pc u = .look dev blockno)
      (hfound : cached s dev blockno = some (some i)) :
      Moves s { (s.modify i fun b => { b with refcnt := b.refcnt + 1 }).goto u (.wait i) with
        read_cache_hit_counter := s.read_cache_hit_counter + 1
        lock := none
        hits := s.hits + 1 }
  | miss (u : U) (dev blockno : BitVec 32) (i : Fin NBUF) (hpc : s.pc u = .look dev blockno)
      (habsent : ∀ j, cached s dev blockno ≠ some (some j)) (hvictim : victim s = some (some i)) :
      Moves s { (s.modify i fun b =>
          { b with dev := dev, blockno := blockno, valid := false, refcnt := 1 }).goto u
          (.wait i) with
        write_cahce_counter := s.write_cahce_counter + 1
        lock := none
        misses := s.misses + 1
        unread := update s.unread i true }
  | lock (u : U) (i : Fin NBUF) (hpc : s.pc u = .wait i) (hfree : (s.buf i).lock = none) :
      Moves s ((s.modify i fun b => { b with lock := some u }).goto u (.locked i))
  | ready (u : U) (i : Fin NBUF) (hpc : s.pc u = .locked i) (hvalid : (s.buf i).valid = true) :
      Moves s (s.goto u (.held i))
  | issue (u : U) (i : Fin NBUF) (hpc : s.pc u = .locked i) (hvalid : (s.buf i).valid = false) :
      Moves s { s.goto u (.reading i) with
        read_disk_counter := s.read_disk_counter + 1
        reads := s.reads + 1
        unread := update s.unread i false }
  | done (u : U) (i : Fin NBUF) (d : δ) (hpc : s.pc u = .reading i) :
      Moves s ((s.modify i fun b => { b with data := d, valid := true }).goto u (.held i))
  | write (u : U) (i : Fin NBUF) (d : δ) (hpc : s.pc u = .held i) :
      Moves s (s.modify i fun b => { b with data := d })
  | bwrite (u : U) (i : Fin NBUF) (hpc : s.pc u = .held i) :
      Moves s { s with write_disk_counter := s.write_disk_counter + 1 }
  | unlock (u : U) (i : Fin NBUF) (hpc : s.pc u = .held i) :
      Moves s ((s.modify i fun b => { b with lock := none }).goto u (.rel i))
  | drop (u : U) (i : Fin NBUF) (hpc : s.pc u = .rel i) (hlock : s.lock = none) :
      Moves s (brelse s u i)
  | pin (u : U) (i : Fin NBUF) (hpc : s.pc u = .held i) (hlock : s.lock = none) :
      Moves s { s.modify i fun b => { b with refcnt := b.refcnt + 1 } with
        pins := update s.pins i (s.pins i + 1) }
  | unpin (i : Fin NBUF) (hpin : 0 < s.pins i) (hlock : s.lock = none) :
      Moves s { s.modify i fun b => { b with refcnt := b.refcnt - 1 } with
        pins := update s.pins i (s.pins i - 1) }
  | panic (x : Panic) : Moves s { s with panicked := some x }

theorem bget_moves (s : St U δ) (u : U) (dev blockno : BitVec 32) (hpc : s.pc u = .look dev blockno) :
    Moves s (bget s u dev blockno) := by
  unfold bget
  split
  case h_1 i hfound => exact .hit u dev blockno i hpc hfound
  case h_2 habsent =>
    split
    case h_1 i hvictim => exact .miss u dev blockno i hpc habsent hvictim
    case h_2 => exact .panic .noBuffers

variable {s t : St U δ}

theorem step_moves {l : Lbl U δ} (h : step s l = some t) : Moves s t := by
  unfold step at h
  split at h
  case isTrue => cases h
  case isFalse =>
    cases l with
    | bread u dev blockno =>
      simp only at h
      split at h
      case isTrue hen =>
        cases h
        exact .call u dev blockno hen.1 hen.2.1 hen.2.2
      case isFalse => cases h
    | go u =>
      simp only at h
      unfold go at h
      split at h
      case h_1 dev blockno hpc =>
        cases h
        exact bget_moves s u dev blockno hpc
      case h_2 i hpc =>
        split at h
        case isTrue hfree =>
          cases h
          exact .lock u i hpc hfree
        case isFalse => cases h
      case h_3 i hpc =>
        split at h
        case isTrue hvalid =>
          cases h
          exact .ready u i hpc hvalid
        case isFalse hvalid =>
          cases h
          exact .issue u i hpc (by simpa using hvalid)
      case h_4 i hpc =>
        split at h
        case isTrue hlock =>
          cases h
          exact .drop u i hpc hlock
        case isFalse => cases h
      all_goals cases h
    | done u d =>
      simp only at h
      split at h
      case h_1 i hpc =>
        cases h
        exact .done u i d hpc
      case h_2 => cases h
    | write u d =>
      simp only at h
      split at h
      case h_1 i hpc =>
        cases h
        exact .write u i d hpc
      case h_2 => cases h
    | bwrite u =>
      simp only at h
      split at h
      case h_1 i hpc =>
        split at h
        · cases h
          exact .bwrite u i hpc
        · cases h
          exact .panic .bwrite
      case h_2 => cases h
    | brelse u =>
      simp only at h
      split at h
      case h_1 i hpc =>
        split at h
        · cases h
          exact .unlock u i hpc
        · cases h
          exact .panic .brelse
      case h_2 => cases h
    | bpin u =>
      simp only at h
      split at h
      case h_1 i hpc =>
        split at h
        case isTrue hlock =>
          cases h
          exact .pin u i hpc hlock
        case isFalse => cases h
      case h_2 => cases h
    | bunpin i =>
      simp only at h
      split at h
      case isTrue hen =>
        cases h
        exact .unpin i hen.1 hen.2
      case isFalse => cases h

/-- What `brelse` leaves as it was, and the buffer it changes. -/
theorem brelse_spec (s : St U δ) (u : U) (i : Fin NBUF) :
    (brelse s u i).buf = update s.buf i
        { s.buf i with refcnt := (s.buf i).refcnt - 1 } ∧
      (brelse s u i).pc = update s.pc u .out ∧ (brelse s u i).lock = s.lock ∧
      (brelse s u i).pins = s.pins ∧ (brelse s u i).unread = s.unread ∧
      (brelse s u i).panicked = s.panicked := by
  unfold brelse
  simp only
  split <;> exact ⟨rfl, rfl, rfl, rfl, rfl, rfl⟩

/-! ## References -/

/-- The buffer a session has a reference to. -/
def Pc.on : Pc → Option (Fin NBUF)
  | .out | .look .. => none
  | .wait i | .locked i | .reading i | .held i | .rel i => some i

/-- The buffer a session has locked. -/
def Pc.holds : Pc → Option (Fin NBUF)
  | .locked i | .reading i | .held i => some i
  | _ => none

/-- `bcache.lock` is in the hand of a session that looks up a block. -/
def Pc.looks : Pc → Option Unit
  | .look .. => some ()
  | _ => none

variable {b : Buf U δ} {pc : Pc}

section Refs

variable [Fintype U]

def sessions (s : St U δ) (i : Fin NBUF) : Nat := uses (fun u => (s.pc u).on) i

def Counted (s : St U δ) : Prop := ∀ i, (s.buf i).refcnt = sessions s i + s.pins i

variable {u : U}

theorem sessions_goto (h : t.pc = update s.pc u pc) (i : Fin NBUF) :
    sessions t i + (if (s.pc u).on = some i then 1 else 0) =
      sessions s i + if pc.on = some i then 1 else 0 := by
  have hcomp : (fun v => (t.pc v).on) = update (fun v => (s.pc v).on) u pc.on := by
    rw [h]
    funext v
    exact apply_update (fun _ => Pc.on) s.pc u pc v
  unfold sessions
  rw [hcomp]
  exact uses_update (fun v => (s.pc v).on) u pc.on i

variable {i : Fin NBUF}

omit [DecidableEq U] in
/-- A buffer that a session is on has a reference. -/
theorem Counted.pos (h : Counted s) (hon : (s.pc u).on = some i) :
    0 < (s.buf i).refcnt := by
  have : 0 < sessions s i := uses_pos (f := fun u => (s.pc u).on) hon
  rw [h i]
  omega

/-- A step that moves a session between places with the same reference. -/
theorem Counted.same (h : Counted s) (hpc : t.pc = update s.pc u pc) (hon : pc.on = (s.pc u).on)
    (hbuf : ∀ i, (t.buf i).refcnt = (s.buf i).refcnt) (hpins : t.pins = s.pins) :
    Counted t := by
  intro i
  have := sessions_goto hpc i
  rw [hon] at this
  rw [hbuf i, h i, hpins]
  omega

omit [DecidableEq U] in
/-- A step that gives buffer `i` a reference more or less. -/
theorem Counted.change (h : Counted s) (hbuf : t.buf = update s.buf i b)
    (hself : b.refcnt = sessions t i + t.pins i)
    (hother : ∀ j ≠ i, sessions t j + t.pins j = sessions s j + s.pins j) : Counted t := by
  intro j
  rw [hbuf]
  by_cases hj : j = i
  · subst hj
    rw [update_self]
    exact hself
  · rw [update_of_ne hj, h j, hother j hj]

/-- The session that `bget` serves had no reference before. -/
theorem Counted.enter (h : Counted s) (hnone : (s.pc u).on = none)
    (hpc : t.pc = update s.pc u (.wait i)) (hbuf : t.buf = update s.buf i b)
    (hb : b.refcnt = (s.buf i).refcnt + 1) (hpins : t.pins = s.pins) :
    Counted t := by
  have hgoto := sessions_goto hpc
  rw [hnone] at hgoto
  refine h.change hbuf ?_ fun j hj => ?_
  · have : sessions t i = sessions s i + 1 := by simpa [Pc.on] using hgoto i
    rw [hb, h i, this, hpins]
    omega
  · have : sessions t j = sessions s j := by simpa [Pc.on, Ne.symm hj] using hgoto j
    rw [this, hpins]

/-- The session that ends in `brelse` has none after it. -/
theorem sessions_leave (h : t.pc = update s.pc u .out) (hon : (s.pc u).on = some i) :
    sessions t i + 1 = sessions s i ∧ ∀ j ≠ i, sessions t j = sessions s j := by
  have hgoto := sessions_goto h
  rw [hon] at hgoto
  refine ⟨by simpa [Pc.on] using hgoto i, fun j hj => ?_⟩
  simpa [Pc.on, Ne.symm hj] using hgoto j

theorem Counted.moves (h : Counted s)
    (hvictim : ∀ i, victim s = some (some i) → (s.buf i).refcnt = 0) (hm : Moves s t) :
    Counted t := by
  cases hm with
  | call u dev blockno hpc | ready u i hpc | issue u i hpc =>
    exact h.same rfl (by rw [hpc]; rfl) (fun _ => rfl) rfl
  | lock u i hpc | unlock u i hpc | done u i d hpc =>
    exact h.same rfl (by rw [hpc]; rfl) (update_field Buf.refcnt (by rfl)) rfl
  | write u i d hpc => exact fun j => (update_field Buf.refcnt (by rfl) j).trans (h j)
  | bwrite | panic => exact h
  | hit u dev blockno i hpc => exact h.enter (by rw [hpc]; rfl) rfl rfl rfl rfl
  | miss u dev blockno i hpc habsent hv =>
    -- nobody was on the buffer, and it had no pin
    exact h.enter (by rw [hpc]; rfl) rfl rfl (by rw [hvictim i hv]) rfl
  | drop u i hpc =>
    rcases brelse_spec s u i with ⟨hbuf, hpcs, -, hpins, -⟩
    rcases sessions_leave hpcs (by rw [hpc]; rfl) with ⟨hin, hout⟩
    refine h.change hbuf ?_ fun j hj => by rw [hout j hj, hpins]
    have := h i
    rw [hpins]
    show (s.buf i).refcnt - 1 = _
    omega
  | pin u i hpc =>
    refine h.change rfl ?_ fun j hj => congrArg (sessions s j + ·) (update_of_ne hj ..)
    have := h i
    show (s.buf i).refcnt + 1 = sessions s i + update s.pins i (s.pins i + 1) i
    rw [update_self]
    omega
  | unpin i hpin =>
    refine h.change rfl ?_ fun j hj => congrArg (sessions s j + ·) (update_of_ne hj ..)
    have := h i
    show (s.buf i).refcnt - 1 = sessions s i + update s.pins i (s.pins i - 1) i
    rw [update_self]
    omega

end Refs

/-! ## The list -/

/-- The pointers form the list `l` of all buffers, the most recently released first. -/
structure Listed (s : St U δ) (l : List (Fin NBUF)) : Prop where
  ring : Ring s.next s.prev none (l.map some)
  all : ∀ i, i ∈ l
  order : l.Pairwise fun i j => s.last j ≤ s.last i
  last_le : ∀ i, s.last i ≤ s.clock

section Listed

omit [DecidableEq U]

variable {s t : St U δ} {l : List (Fin NBUF)} {dev blockno : BitVec 32} {i : Fin NBUF}

section
variable (h : Listed s l)
include h

theorem Listed.length_lt : (l.map some).length < NBUF + 1 := by
  have hnodup : l.Nodup := (nodup_cons.mp h.ring.nodup).2.of_map
  have := hnodup.length_le_card
  rw [Fintype.card_fin] at this
  rw [length_map]
  omega

/-- The first loop of `bget` searches the list. -/
theorem Listed.cached_eq :
    cached s dev blockno = (l.find? fun i => (s.buf i).holds dev blockno).map some := by
  unfold cached
  rw [h.ring.walk_next _ h.length_lt, find?_map]
  rfl

/-- The second loop of `bget` searches it from its other end. -/
theorem Listed.victim_eq : victim s = (l.reverse.find? fun i => (s.buf i).refcnt = 0).map some := by
  unfold victim
  rw [h.ring.walk_prev _ h.length_lt, ← map_reverse, find?_map]
  rfl

theorem Listed.holds_of_cached (hc : cached s dev blockno = some (some i)) :
    (s.buf i).dev = dev ∧ (s.buf i).blockno = blockno := by
  rw [h.cached_eq] at hc
  rcases Option.map_eq_some_iff.mp hc with ⟨j, hj, hji⟩
  cases hji
  have := find?_some hj
  simpa [Buf.holds] using this

theorem Listed.absent (hc : ∀ j, cached s dev blockno ≠ some (some j)) (j : Fin NBUF) :
    ¬ ((s.buf j).dev = dev ∧ (s.buf j).blockno = blockno) := by
  intro hj
  rw [h.cached_eq] at hc
  match hfind : l.find? fun i => (s.buf i).holds dev blockno with
  | some i =>
    rw [hfind] at hc
    exact hc i rfl
  | none =>
    have := find?_eq_none.mp hfind j (h.all j)
    exact this (by simpa [Buf.holds] using hj)

/-- What `bget` recycles has no reference, and no buffer without one was released earlier. -/
theorem Listed.victim_spec (hv : victim s = some (some i)) :
    (s.buf i).refcnt = 0 ∧ ∀ j, (s.buf j).refcnt = 0 → s.last i ≤ s.last j := by
  rw [h.victim_eq] at hv
  rcases Option.map_eq_some_iff.mp hv with ⟨i', hfind, hi⟩
  cases hi
  rcases find?_eq_some_iff_append.mp hfind with ⟨hzero, newer, older, hsplit, hbusy⟩
  refine ⟨by simpa using hzero, fun j hj => ?_⟩
  have hrev := pairwise_reverse.mpr h.order
  rw [hsplit] at hrev
  have hmem : j ∈ newer ++ i :: older := by
    rw [← hsplit, mem_reverse]
    exact h.all j
  rcases mem_append.mp hmem with hin | hin
  · -- the loop passed it by, so it is in use
    have := hbusy j hin
    simp [hj] at this
  · rcases mem_cons.mp hin with rfl | hin
    · exact Nat.le_refl _
    · have := (pairwise_append.mp hrev).2.1
      exact (pairwise_cons.mp this).1 j hin

theorem Listed.same (hnext : t.next = s.next) (hprev : t.prev = s.prev) (hlast : t.last = s.last)
    (hclock : t.clock = s.clock) : Listed t l :=
  ⟨by rw [hnext, hprev]; exact h.ring, h.all, by rw [hlast]; exact h.order,
    by rw [hlast, hclock]; exact h.last_le⟩

/-- The assignments of `brelse` move the buffer to the front, where its time puts it. -/
theorem Listed.toFront
    (hnext : t.next = insertNext (unlinkNext s.next s.prev (some i)) none (some i))
    (hprev : t.prev = insertPrev (unlinkNext s.next s.prev (some i))
      (unlinkPrev s.next s.prev (some i)) none (some i))
    (hlast : t.last = update s.last i (s.clock + 1)) (hclock : t.clock = s.clock + 1) :
    ∃ l', Listed t l' := by
  rcases append_of_mem (h.all i) with ⟨l₁, l₂, rfl⟩
  have hnodup : (l₁ ++ i :: l₂).Nodup := (nodup_cons.mp h.ring.nodup).2.of_map
  have hnot : i ∉ l₁ ++ l₂ := (nodup_cons.mp (nodup_middle.mp hnodup)).1
  have hne : ∀ j ∈ l₁ ++ l₂, j ≠ i := fun j hj e => hnot (e ▸ hj)
  have hring := h.ring
  rw [map_append, map_cons] at hring
  have hout := hring.unlink
  rw [← map_append] at hout
  refine ⟨i :: (l₁ ++ l₂), ?_, ?_, ?_, ?_⟩
  · rw [hnext, hprev]
    refine hout.insert ?_
    simpa using hnot
  · intro j
    exact perm_middle.mem_iff.mp (h.all j)
  · rw [hlast, pairwise_cons]
    refine ⟨fun j hj => ?_, ?_⟩
    · rw [update_self, update_of_ne (hne j hj)]
      exact Nat.le_succ_of_le (h.last_le j)
    · have hsub : (l₁ ++ l₂).Sublist (l₁ ++ i :: l₂) :=
        (List.Sublist.refl l₁).append (sublist_cons_self i l₂)
      refine (h.order.sublist hsub).imp_of_mem ?_
      intro a b ha hb hab
      rwa [update_of_ne (hne a ha), update_of_ne (hne b hb)]
  · intro j
    rw [hlast, hclock]
    by_cases hj : j = i
    · rw [hj, update_self]
    · rw [update_of_ne hj]
      exact Nat.le_succ_of_le (h.last_le j)

end

/-- `binit` links the buffers one after the other behind the head. -/
theorem binit_ring : ∃ l : List (Fin NBUF), Ring binit.1 binit.2 none (l.map some) ∧ ∀ i, i ∈ l := by
  have hfold : ∀ (bs l : List (Fin NBUF)) (next prev : Node → Node), (bs ++ l).Nodup →
      Ring next prev none (l.map some) →
      Ring (bs.foldl (fun p b => (insertNext p.1 none (some b), insertPrev p.1 p.2 none (some b)))
          (next, prev)).1
        (bs.foldl (fun p b => (insertNext p.1 none (some b), insertPrev p.1 p.2 none (some b)))
          (next, prev)).2 none ((bs.reverse ++ l).map some) := by
    intro bs
    induction bs with
    | nil => exact fun l next prev _ hr => hr
    | cons b bs ih =>
      intro l next prev hnodup hr
      have hb : b ∉ bs ++ l := (nodup_cons.mp hnodup).1
      have hnew := hr.insert (b := some b) (by simp_all)
      rw [reverse_cons, append_assoc, singleton_append]
      refine ih (b :: l) _ _ ?_ hnew
      exact nodup_middle.mpr hnodup
  refine ⟨(List.finRange NBUF).reverse ++ [], hfold (List.finRange NBUF) [] _ _ ?_ Ring.empty, ?_⟩
  · simpa using nodup_finRange NBUF
  · intro i
    simp

end Listed

theorem Listed.moves {l : List (Fin NBUF)} (h : Listed s l) (hm : Moves s t) :
    ∃ l', Listed t l' := by
  cases hm with
  | drop u i =>
    unfold brelse
    simp only
    split
    · exact h.toFront (by rfl) (by rfl) (by rfl) (by rfl)
    · exact ⟨l, h.same (by rfl) (by rfl) (by rfl) (by rfl)⟩
  | _ => exact ⟨l, h.same (by rfl) (by rfl) (by rfl) (by rfl)⟩

/-! ## The invariant -/

structure Inv [Fintype U] (s : St U δ) : Prop where
  listed : ∃ l, Listed s l
  counted : Counted s
  uniq : ∀ i j, (s.buf i).dev ≠ 0 → (s.buf i).dev = (s.buf j).dev →
    (s.buf i).blockno = (s.buf j).blockno → i = j
  locks : Holding (fun i => (s.buf i).lock) fun u => (s.pc u).holds
  looks : Holding (fun _ : Unit => s.lock) fun u => (s.pc u).looks
  dev : ∀ u dev blockno, s.pc u = .look dev blockno → dev ≠ 0
  valid : ∀ u i, s.pc u = .held i → (s.buf i).valid = true
  reading : ∀ u i, s.pc u = .reading i → (s.buf i).valid = false
  pinned : ∀ i, 0 < s.pins i → (s.buf i).valid = true

section Inv

variable {s t : St U δ} {u : U} {i : Fin NBUF}

/-! ### Locks -/

theorem holds_goto (hpc : t.pc = update s.pc u pc) :
    (t.pc u).holds = pc.holds ∧ ∀ v ≠ u, (t.pc v).holds = (s.pc v).holds := by
  refine ⟨by rw [hpc, update_self], fun v hv => ?_⟩
  rw [hpc, update_of_ne hv]

omit [DecidableEq U] in
theorem lock_update (b : Buf U δ) : (fun j => (update s.buf i b j).lock) =
    update (fun j => (s.buf j).lock) i b.lock :=
  funext fun j => apply_update (fun _ => Buf.lock) s.buf i b j

omit [DecidableEq U] in
theorem lock_same (hb : b.lock = (s.buf i).lock) :
    (fun j => (update s.buf i b j).lock) = fun j => (s.buf j).lock := by
  rw [lock_update, hb]
  exact update_eq_self ..

theorem locks_moves (h : Holding (fun i => (s.buf i).lock) fun u => (s.pc u).holds)
    (hm : Moves s t) : Holding (fun i => (t.buf i).lock) fun u => (t.pc u).holds := by
  have hgo : ∀ {t : St U δ} {u : U} {pc : Pc}, t.pc = update s.pc u pc →
      Handle u ((s.pc u).holds) pc.holds (fun i => (s.buf i).lock) (fun i => (t.buf i).lock) →
      Holding (fun i => (t.buf i).lock) fun u => (t.pc u).holds := by
    intro t u pc hpc hhand
    rcases holds_goto hpc with ⟨hat, hoff⟩
    refine h.handle (c := u) ?_ hoff
    show Handle u (s.pc u).holds (t.pc u).holds _ _
    rw [hat]
    exact hhand
  cases hm with
  | call u dev blockno hpc => exact hgo rfl (.keep (by rw [hpc]; rfl) rfl)
  | ready u i hpc => exact hgo rfl (.keep (by rw [hpc]; rfl) rfl)
  | issue u i hpc => exact hgo rfl (.keep (by rw [hpc]; rfl) rfl)
  | hit u dev blockno i hpc => exact hgo rfl (.keep (by rw [hpc]; rfl) (lock_same rfl))
  | miss u dev blockno i hpc => exact hgo rfl (.keep (by rw [hpc]; rfl) (lock_same rfl))
  | done u i d hpc => exact hgo rfl (.keep (by rw [hpc]; rfl) (lock_same rfl))
  | lock u i hpc hfree => exact hgo rfl (.take i hfree (by rw [hpc]; rfl) rfl (lock_update _))
  | unlock u i hpc => exact hgo rfl (.put i (by rw [hpc]; rfl) rfl (lock_update _))
  | drop u i hpc =>
    rcases brelse_spec s u i with ⟨hbuf, hpcs, -⟩
    refine hgo hpcs (.keep (by rw [hpc]; rfl) ?_)
    rw [hbuf]
    exact lock_same rfl
  | write u i d | pin u i | unpin i =>
    show Holding (fun j => (update s.buf i _ j).lock) _
    rw [lock_same (by rfl)]
    exact h
  | bwrite | panic => exact h

theorem looks_moves (h : Holding (fun _ : Unit => s.lock) fun u => (s.pc u).looks)
    (hm : Moves s t) : Holding (fun _ : Unit => t.lock) fun u => (t.pc u).looks := by
  have hgo : ∀ {t : St U δ} {u : U} {pc : Pc}, t.pc = update s.pc u pc →
      Handle u ((s.pc u).looks) pc.looks (fun _ : Unit => s.lock) (fun _ => t.lock) →
      Holding (fun _ : Unit => t.lock) fun u => (t.pc u).looks := by
    intro t u pc hpc hhand
    refine h.handle (c := u) ?_ fun v hv => by rw [hpc, update_of_ne hv]
    show Handle u (s.pc u).looks (t.pc u).looks _ _
    rw [hpc, update_self]
    exact hhand
  cases hm with
  | call u dev blockno hpc hlock =>
    exact hgo rfl (.take () hlock (by rw [hpc]; rfl) rfl (update_unit ..))
  | hit u dev blockno i hpc => exact hgo rfl (.put () (by rw [hpc]; rfl) rfl (update_unit ..))
  | miss u dev blockno i hpc => exact hgo rfl (.put () (by rw [hpc]; rfl) rfl (update_unit ..))
  | lock u i hpc | ready u i hpc | issue u i hpc | unlock u i hpc | done u i d hpc =>
    exact hgo rfl (.keep (by rw [hpc]; rfl) rfl)
  | drop u i hpc =>
    rcases brelse_spec s u i with ⟨-, hpcs, hlock, -⟩
    exact hgo hpcs (.keep (by rw [hpc]; rfl) (by rw [hlock]))
  | write | pin | unpin | bwrite | panic => exact h

/-! ### Blocks and their contents -/

variable {j : Fin NBUF}

/-- A step leaves a buffer that has references on its block, and valid if it was. -/
theorem block_moves (hm : Moves s t)
    (hvictim : ∀ i, victim s = some (some i) → (s.buf i).refcnt = 0) (hpos : 0 < (s.buf j).refcnt) :
    (t.buf j).dev = (s.buf j).dev ∧ (t.buf j).blockno = (s.buf j).blockno ∧
      ((s.buf j).valid = true → (t.buf j).valid = true) := by
  have hupd : ∀ {i : Fin NBUF} {b : Buf U δ}, b.dev = (s.buf i).dev →
      b.blockno = (s.buf i).blockno → ((s.buf i).valid = true → b.valid = true) →
      (update s.buf i b j).dev = (s.buf j).dev ∧
      (update s.buf i b j).blockno = (s.buf j).blockno ∧
      ((s.buf j).valid = true → (update s.buf i b j).valid = true) := by
    intro i b hdev hblock hvalid
    by_cases hj : j = i
    · subst hj
      rw [update_self]
      exact ⟨hdev, hblock, hvalid⟩
    · rw [update_of_ne hj]
      exact ⟨rfl, rfl, id⟩
  cases hm with
  | miss u dev blockno i hpc habsent hv =>
    have hj : j ≠ i := by
      rintro rfl
      rw [hvictim j hv] at hpos
      cases hpos
    show (update s.buf i _ j).dev = _ ∧ (update s.buf i _ j).blockno = _ ∧
      (_ → (update s.buf i _ j).valid = true)
    rw [update_of_ne hj]
    exact ⟨rfl, rfl, id⟩
  | hit u dev blockno i | lock u i | write u i d | unlock u i | pin u i | unpin i =>
    exact hupd (by rfl) (by rfl) id
  | done u i d => exact hupd (by rfl) (by rfl) fun _ => rfl
  | drop u i =>
    rw [(brelse_spec s u i).1]
    exact hupd rfl rfl id
  | call | ready | issue | bwrite | panic => exact ⟨rfl, rfl, id⟩

theorem uniq_moves {l : List (Fin NBUF)} (hl : Listed s l)
    (h : ∀ i j, (s.buf i).dev ≠ 0 → (s.buf i).dev = (s.buf j).dev →
      (s.buf i).blockno = (s.buf j).blockno → i = j) (hm : Moves s t) :
    ∀ i j, (t.buf i).dev ≠ 0 → (t.buf i).dev = (t.buf j).dev →
      (t.buf i).blockno = (t.buf j).blockno → i = j := by
  have hsame : ∀ {k : Fin NBUF} {b : Buf U δ}, b.dev = (s.buf k).dev →
      b.blockno = (s.buf k).blockno → ∀ i,
      (update s.buf k b i).dev = (s.buf i).dev ∧
        (update s.buf k b i).blockno = (s.buf i).blockno := by
    intro k b hdev hblock i
    exact ⟨update_field Buf.dev hdev i, update_field Buf.blockno hblock i⟩
  have hkeep : (∀ i, (t.buf i).dev = (s.buf i).dev ∧ (t.buf i).blockno = (s.buf i).blockno) →
      ∀ i j, (t.buf i).dev ≠ 0 → (t.buf i).dev = (t.buf j).dev →
        (t.buf i).blockno = (t.buf j).blockno → i = j := by
    intro hk i j
    rw [(hk i).1, (hk i).2, (hk j).1, (hk j).2]
    exact h i j
  cases hm with
  | miss u dev blockno k hpc habsent hv =>
    -- the block was not in the cache
    have hnew := hl.absent habsent
    intro i j
    show (update s.buf k _ i).dev ≠ 0 →
      (update s.buf k _ i).dev = (update s.buf k _ j).dev →
      (update s.buf k _ i).blockno = (update s.buf k _ j).blockno → _
    by_cases hi : i = k <;> by_cases hj : j = k
    · exact fun _ _ _ => hi.trans hj.symm
    · rw [hi, update_self, update_of_ne hj]
      exact fun _ hd hb => absurd ⟨hd.symm, hb.symm⟩ (hnew j)
    · rw [hj, update_self, update_of_ne hi]
      exact fun _ hd hb => absurd ⟨hd, hb⟩ (hnew i)
    · rw [update_of_ne hi, update_of_ne hj]
      exact h i j
  | hit u dev blockno i | lock u i | write u i d | unlock u i | pin u i | unpin i | done u i d =>
    exact hkeep (hsame (by rfl) (by rfl))
  | drop u i =>
    rw [(brelse_spec s u i).1] at hkeep ⊢
    exact hkeep (hsame rfl rfl)
  | call | ready | issue | bwrite | panic => exact hkeep fun _ => ⟨rfl, rfl⟩

/-- How a session comes to look up a block, to have a buffer, and to wait for the disk. -/
def Pc.Arrives (t : St U δ) : Pc → Prop
  | .look dev _ => dev ≠ 0
  | .held j => (t.buf j).valid = true
  | .reading j => (t.buf j).valid = false
  | _ => True

theorem pc_moves (hm : Moves s t) (v : U) : t.pc v = s.pc v ∨ (t.pc v).Arrives t := by
  have hgo : ∀ {u : U} {pc : Pc}, t.pc = update s.pc u pc → pc.Arrives t →
      t.pc v = s.pc v ∨ (t.pc v).Arrives t := by
    intro u pc hpc harrives
    rw [hpc]
    by_cases hv : v = u
    · rw [hv, update_self]
      exact .inr harrives
    · exact .inl (update_of_ne hv _ _)
  cases hm with
  | call u dev blockno hpc hlock hdev => exact hgo rfl hdev
  | ready u i hpc hvalid | issue u i hpc hvalid => exact hgo rfl hvalid
  | done u i d hpc =>
    refine hgo rfl ?_
    show (update s.buf i _ i).valid = true
    rw [update_self]
  | hit u | miss u | lock u | unlock u => exact hgo rfl trivial
  | drop u i => exact hgo (brelse_spec s u i).2.1 trivial
  | write | pin | unpin | bwrite | panic => exact .inl rfl

/-- Only a disk read makes a buffer valid, and the session that waited for it has it then. -/
theorem valid_of_moves (hm : Moves s t) (hvalid : (t.buf j).valid = true) :
    (s.buf j).valid = true ∨ ∃ u, s.pc u = .reading j ∧ t.pc u = .held j := by
  have hupd : ∀ {i : Fin NBUF} {b : Buf U δ}, (update s.buf i b j).valid = true →
      (b.valid = true → (s.buf i).valid = true) → (s.buf j).valid = true := by
    intro i b h hb
    by_cases hj : j = i
    · subst hj
      rw [update_self] at h
      exact hb h
    · rwa [update_of_ne hj] at h
  cases hm with
  | done u i d hpc =>
    by_cases hj : j = i
    · subst hj
      exact .inr ⟨u, hpc, update_self ..⟩
    · have : (update s.buf i _ j).valid = true := hvalid
      rw [update_of_ne hj] at this
      exact .inl this
  | miss u dev blockno i => exact .inl (hupd hvalid nofun)
  | hit u dev blockno i | lock u i | write u i d | unlock u i | pin u i | unpin i =>
    exact .inl (hupd hvalid id)
  | drop u i =>
    rw [(brelse_spec s u i).1] at hvalid
    exact .inl (hupd hvalid id)
  | call | ready | issue | bwrite | panic => exact .inl hvalid

theorem pins_of_moves (hm : Moves s t) (hpos : 0 < t.pins j) :
    0 < s.pins j ∨ ∃ u, s.pc u = .held j := by
  cases hm with
  | pin u i hpc =>
    by_cases hj : j = i
    · exact .inr ⟨u, hj ▸ hpc⟩
    · have : 0 < update s.pins i (s.pins i + 1) j := hpos
      rw [update_of_ne hj] at this
      exact .inl this
  | unpin i hpin =>
    by_cases hj : j = i
    · exact .inl (hj ▸ hpin)
    · have : 0 < update s.pins i (s.pins i - 1) j := hpos
      rw [update_of_ne hj] at this
      exact .inl this
  | drop u i =>
    rw [(brelse_spec s u i).2.2.2.1] at hpos
    exact .inl hpos
  | _ => exact .inl hpos

/-! ### Every run -/

variable [Fintype U]

theorem Inv.moves (h : Inv s) (hm : Moves s t) : Inv t := by
  rcases h.listed with ⟨l, hl⟩
  have hvictim : ∀ i, victim s = some (some i) → (s.buf i).refcnt = 0 :=
    fun i hi => (hl.victim_spec hi).1
  have hlocks := locks_moves h.locks hm
  have hstays : ∀ {j : Fin NBUF}, 0 < (s.buf j).refcnt → (s.buf j).valid = true →
      (t.buf j).valid = true := fun hpos hv => (block_moves hm hvictim hpos).2.2 hv
  have hheld : ∀ {v : U} {j : Fin NBUF}, s.pc v = .held j → (t.buf j).valid = true := by
    intro v j hv
    exact hstays (h.counted.pos (u := v) (by rw [hv]; rfl)) (h.valid v j hv)
  refine ⟨hl.moves hm, h.counted.moves hvictim hm, uniq_moves hl h.uniq hm, hlocks,
    looks_moves h.looks hm, ?_, ?_, ?_, ?_⟩
  · intro v dev blockno hv
    rcases pc_moves hm v with hold | hnew
    · exact h.dev v dev blockno (hold.symm.trans hv)
    · rwa [hv] at hnew
  · intro v j hv
    rcases pc_moves hm v with hold | hnew
    · exact hheld (hold.symm.trans hv)
    · rwa [hv] at hnew
  · intro v j hv
    rcases pc_moves hm v with hold | hnew
    · -- the lock of the buffer keeps another disk read of it away
      by_contra hne
      rcases valid_of_moves hm (by simpa using hne) with hv' | ⟨u, -, hu⟩
      · rw [h.reading v j (hold.symm.trans hv)] at hv'
        cases hv'
      · have hu' : (t.pc u).holds = some j := by rw [hu]; rfl
        have hv' : (t.pc v).holds = some j := by rw [hv]; rfl
        have hsame := ((hlocks j u).mpr hu').symm.trans ((hlocks j v).mpr hv')
        cases hsame
        rw [hu] at hv
        cases hv
    · rwa [hv] at hnew
  · intro j hj
    rcases pins_of_moves hm hj with hpin | ⟨u, hu⟩
    · refine hstays ?_ (h.pinned j hpin)
      rw [h.counted j]
      omega
    · exact hheld hu

omit [DecidableEq U] in
theorem Inv.init (h : Init s) : Inv s := by
  rcases h with ⟨hbuf, hring, hlock, -, -, -, -, -, hpc, -, hhist, hclock, -⟩
  have hnext : s.next = binit.1 := congrArg Prod.fst hring
  have hprev : s.prev = binit.2 := congrArg Prod.snd hring
  rcases binit_ring with ⟨l, hl, hall⟩
  refine ⟨⟨l, by rw [hnext, hprev]; exact hl, hall, ?_, ?_⟩, ?_, ?_, ?_, ?_, ?_, ?_, ?_, ?_⟩
  · refine pairwise_of_forall fun i j => ?_
    rw [(hhist i).2.1, (hhist j).2.1]
  · intro i
    rw [(hhist i).2.1]
    exact Nat.zero_le _
  · intro i
    have hnone : sessions s i = 0 := by
      refine uses_eq_zero.mpr fun u => ?_
      rw [hpc u]
      exact nofun
    rw [(hbuf i).2.2.2.1, hnone, (hhist i).1]
  · intro i j hi
    exact absurd (hbuf i).2.1 hi
  · intro i u
    show (s.buf i).lock = some u ↔ (s.pc u).holds = some i
    rw [(hbuf i).2.2.2.2, hpc u]
    exact ⟨nofun, nofun⟩
  · intro k u
    show s.lock = some u ↔ (s.pc u).looks = some k
    rw [hlock, hpc u]
    exact ⟨nofun, nofun⟩
  all_goals
    intro u
    first
      | rw [(hhist u).1]
        exact nofun
      | rw [hpc u]
        exact nofun

theorem reachable_inv (h : (sys U δ).Reachable s) : Inv s :=
  h.invariant Inv (fun _ h₀ => .init h₀) fun _ _ _ hi hs => hi.moves (step_moves hs)

/-! ## Integrity -/

/-- The contents of a pinned buffer change by the writes of a session that has it. -/
theorem Inv.data_moves (h : Inv s) (hm : Moves s t) (hpin : 0 < s.pins i) :
    (t.buf i).data = (s.buf i).data ∨
      ∃ u d, s.pc u = .held i ∧ t = s.modify i fun b => { b with data := d } := by
  cases hm with
  | write u k d hpc =>
    by_cases hi : i = k
    · exact .inr ⟨u, d, hi ▸ hpc, hi ▸ rfl⟩
    · exact .inl (congrArg Buf.data (update_of_ne hi ..))
  | done u k d hpc =>
    -- a disk read fills a buffer that is not valid yet
    have hi : i ≠ k := by
      rintro rfl
      have := h.reading u i hpc
      rw [h.pinned i hpin] at this
      cases this
    exact .inl (congrArg Buf.data (update_of_ne hi ..))
  | hit u dev blockno k | miss u dev blockno k | lock u k | unlock u k | pin u k | unpin k =>
    exact .inl (update_field Buf.data (by rfl) i)
  | drop u k =>
    rw [(brelse_spec s u k).1]
    exact .inl (update_field Buf.data (by rfl) i)
  | call | ready | issue | bwrite | panic => exact .inl rfl

/-- Integrity of the buffer cache, in every state that sessions reach: the pointers are one
ring of all buffers; a block is in at most one buffer; a buffer with references stays on its
block, and a pinned one keeps its contents but for the writes of who has it locked; and a
`bget` of a block not in the cache gets the buffer that, of those without references, was
given back longest ago. -/
theorem cache_integrity (h : (sys U δ).Reachable s) :
    (∃ l : List (Fin NBUF), l.Nodup ∧ (∀ i, i ∈ l) ∧ Ring s.next s.prev none (l.map some)) ∧
    (∀ i j, (s.buf i).dev ≠ 0 → (s.buf i).dev = (s.buf j).dev →
      (s.buf i).blockno = (s.buf j).blockno → i = j) ∧
    (∀ lbl t i, step s lbl = some t → 0 < (s.buf i).refcnt →
      (t.buf i).dev = (s.buf i).dev ∧ (t.buf i).blockno = (s.buf i).blockno) ∧
    (∀ lbl t i, step s lbl = some t → 0 < s.pins i →
      0 < (s.buf i).refcnt ∧ ((t.buf i).data = (s.buf i).data ∨
        ∃ u d, s.pc u = .held i ∧ t = s.modify i fun b => { b with data := d })) ∧
    (∀ u dev blockno t i, s.pc u = .look dev blockno →
      (∀ j, ¬ ((s.buf j).dev = dev ∧ (s.buf j).blockno = blockno)) →
      step s (.go u) = some t → t.pc u = .wait i →
      (s.buf i).refcnt = 0 ∧ ∀ j, (s.buf j).refcnt = 0 → s.last i ≤ s.last j) := by
  have hi := reachable_inv h
  rcases hi.listed with ⟨l, hl⟩
  refine ⟨⟨l, (nodup_cons.mp hl.ring.nodup).2.of_map, hl.all, hl.ring⟩, hi.uniq, ?_, ?_, ?_⟩
  · intro lbl t i hs hpos
    have := block_moves (step_moves hs) (fun i hv => (hl.victim_spec hv).1) hpos
    exact ⟨this.1, this.2.1⟩
  · intro lbl t i hs hpin
    refine ⟨?_, hi.data_moves (step_moves hs) hpin⟩
    rw [hi.counted i]
    omega
  intro u dev blockno t i hpc hmiss hs hwait
  have hbget : t = bget s u dev blockno := by
    unfold step at hs
    split at hs
    · cases hs
    · simp only [hpc, go] at hs
      exact (Option.some.inj hs).symm
  subst hbget
  unfold bget at hwait
  split at hwait
  case h_1 k hk => exact absurd (hl.holds_of_cached hk) (hmiss k)
  case h_2 =>
    split at hwait
    case h_1 k hk =>
      have : update s.pc u (.wait k) u = .wait i := hwait
      rw [update_self] at this
      cases this
      exact hl.victim_spec hk
    case h_2 =>
      have : s.pc u = .wait i := hwait
      rw [hpc] at this
      cases this

end Inv

/-- Session `false` reads block 5, pins it and gives it back; session `true` looks for
block 6. -/
def pinRun : List (Lbl Bool Nat) :=
  [.bread false 1 5, .go false, .go false, .go false, .done false 55, .bpin false,
   .brelse false, .go false, .bread true 1 6]

theorem cache_integrity_pinRun :
    ∃ s, (sys Bool Nat).Reachable s ∧ (∃ i, s.pins i = 1) ∧ s.pc true = .look 1 6 ∧
      ∀ t i, step s (.go true) = some t → t.pc true = .wait i →
        (s.buf i).refcnt = 0 ∧ ∀ j, (s.buf j).refcnt = 0 → s.last i ≤ s.last j := by
  obtain ⟨s, hreach, hpins, hpc, hmiss⟩ : ∃ s, (sys Bool Nat).Reachable s ∧
      (∃ i, s.pins i = 1) ∧ s.pc true = .look 1 6 ∧
      ∀ j, ¬ ((s.buf j).dev = 1 ∧ (s.buf j).blockno = 6) :=
    System.reaches (boot_init 0) pinRun (by decide +kernel)
  exact ⟨s, hreach, hpins, hpc, fun t i => (cache_integrity hreach).2.2.2.2 true 1 6 t i hpc hmiss⟩

end Xv6.Cache
