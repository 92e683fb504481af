import Xv6.Itable.Basic
import Xv6.Lib.Uses

/-!
# Xv6.Itable.Copies — pointers, locks and copies of inodes

The invariant of the inode table in two layers. `Tokens` says that reference counts are the
numbers of pointers, that a lock is held through a pointer, and that an `iput` and an `ialloc`
have their pointers for themselves. `Copies` says what the copy in an entry is worth: with the
lock free, in the hands of a process, and at every place of `ilock` and of the freeing path.

What makes `Copies` hold next to `iput`'s freeing path is the type on disk: it is not zero for
as long as a valid copy can be found, so `ialloc` picks a number only once the old copy has
been given up.
-/

namespace Xv6.Itable

open Lib Fs
open Function (update update_self update_of_ne)

variable {n : Nat} {P K : Type}

/-! ## What a place says -/

/-- The pointer and the entry that a call is working on. -/
def Pc.on : Pc n K → Option (K × Fin n)
  | .lock _ k i | .put _ k i => some (k, i)
  | .idle | .allocScan .. | .allocGet .. => none

/-- The same, where the call has locked the entry. -/
def Pc.holding : Pc n K → Option (K × Fin n)
  | .lock .load k i | .lock .loaded k i => some (k, i)
  | .put .ref _ _ => none
  | .put _ k i => some (k, i)
  | .idle | .lock .wait _ _ | .allocScan .. | .allocGet .. => none

/-- The pointer that a call has for itself. -/
def Pc.exclusive : Pc n K → Option K
  | .put _ k _ | .allocScan k .. | .allocGet k .. => some k
  | .idle | .lock .. => none

/-- The pointer that a call is going to set. -/
def Pc.fresh : Pc n K → Option K
  | .allocScan k .. | .allocGet k .. => some k
  | .idle | .lock .. | .put .. => none

/-- The copy in the entry `e` is the inode `x` on disk. -/
structure Coherent (e : Entry P K) (x : DiskInode) : Prop where
  d : e.d = x.d
  gen : e.gen = x.gen
  type : e.d.type ≠ .none

/-- A process that has locked the entry may use its copy. -/
structure Held (e : Entry P K) (x : DiskInode) : Prop where
  valid : e.valid = true
  gen : e.gen = x.gen
  clean : e.dirty = false → e.d = x.d
  type : e.d.type ≠ .none
  disk : x.d.type ≠ .none

/-- What a call knows about the entry it has locked. -/
def Busy (e : Entry P K) (x : DiskInode) : Pc n K → Prop
  | .lock .load _ _ => e.valid = true → Coherent e x
  | .lock .loaded _ _ => e.d.type ≠ .none → Coherent e x
  | .put .trunc _ _ | .put .truncUpdate _ _ => e.d.type ≠ .none ∧ x.d.type ≠ .none
  | .put .type _ _ | .put .update _ _ => x.d.type ≠ .none
  | .put .unlock _ _ => e.valid = false
  | _ => True

variable {e : Entry P K}

theorem Coherent.held {x : DiskInode} (h : Coherent e x) (hv : e.valid = true) :
    Held e x :=
  ⟨hv, h.gen, fun _ => h.d, h.type, h.d ▸ h.type⟩

/-- The pointers, the locks and the calls fit together. -/
structure Tokens [Fintype K] (s : St n P K) : Prop where
  count : ∀ i, (s.inode i).ref = uses s.ptr i
  lock : ∀ i p k, (s.inode i).lock = some (p, k) → s.ptr k = some i
  on : ∀ p k i, (s.pc p).on = some (k, i) → s.ptr k = some i
  holding : ∀ p k i, (s.pc p).holding = some (k, i) → (s.inode i).lock = some (p, k)
  fresh : ∀ p k, (s.pc p).fresh = some k → s.ptr k = none
  alone : ∀ p q k, (s.pc p).exclusive = some k → (s.pc q).token = some k → p = q
  quiet : ∀ p q k i, (s.pc p).exclusive = some k → (s.inode i).lock = some (q, k) →
    (s.pc p).holding = some (k, i)

/-- The copies are right. -/
structure Copies (s : St n P K) : Prop where
  unique : ∀ i j, 0 < (s.inode i).ref → 0 < (s.inode j).ref → (s.inode i).dev = (s.inode j).dev →
    (s.inode i).inum = (s.inode j).inum → i = j
  free : ∀ i, 0 < (s.inode i).ref → (s.inode i).lock = none → (s.inode i).valid = true →
    Coherent (s.inode i) (s.onDisk i)
  held : ∀ i p k, (s.inode i).lock = some (p, k) → (s.pc p).holding ≠ some (k, i) →
    Held (s.inode i) (s.onDisk i)
  busy : ∀ p k i, (s.pc p).holding = some (k, i) → Busy (s.inode i) (s.onDisk i) (s.pc p)

section
variable {s t : St n P K} {p q : P} {k : K} {i j : Fin n} {pc : Pc n K}

theorem Pc.on_of_holding (h : pc.holding = some (k, i)) : pc.on = some (k, i) := by
  cases pc with
  | lock stage k i => cases stage <;> first | exact h | cases h
  | put stage k i => cases stage <;> first | exact h | cases h
  | idle | allocScan | allocGet => cases h

theorem Pc.token_of_on (h : pc.on = some (k, i)) : pc.token = some k := by
  cases pc <;> cases h <;> rfl

theorem Pc.token_of_exclusive (h : pc.exclusive = some k) : pc.token = some k := by
  cases pc <;> cases h <;> rfl

theorem Pc.token_of_fresh (h : pc.fresh = some k) : pc.token = some k := by
  cases pc <;> cases h <;> rfl

/-! ## The disk -/

theorem setDisk_of_ne (s : St n P K) {a b a' b' : Nat} (x : DiskInode) (h : ¬ (a' = a ∧ b' = b)) :
    (s.setDisk a b x).disk a' b' = s.disk a' b' := by
  unfold St.setDisk
  by_cases ha : a' = a
  · subst ha
    simp only [update_self]
    exact update_of_ne (fun hb => h ⟨rfl, hb⟩) _ _
  · simp only [update_of_ne ha]

theorem setDisk_self (s : St n P K) (a b : Nat) (x : DiskInode) :
    (s.setDisk a b x).disk a b = x := by
  simp only [St.setDisk, update_self]

/-! ## Pointers and locks -/

/-- A field that the new entry has as the old one. -/
theorem field_update {α : Type} (hinode : t.inode = update s.inode i e) (f : Entry P K → α)
    (he : f e = f (s.inode i)) (j : Fin n) : f (t.inode j) = f (s.inode j) := by
  rw [hinode]
  exact update_field f he j

/-- The place that `p` goes to suits the pointers and the locks after the step. -/
structure Suits (s t : St n P K) (p : P) (pc : Pc n K) : Prop where
  on : ∀ k j, pc.on = some (k, j) → t.ptr k = some j
  holding : ∀ k j, pc.holding = some (k, j) → (t.inode j).lock = some (p, k)
  fresh : ∀ k, pc.fresh = some k → t.ptr k = none
  alone : ∀ q k, q ≠ p → pc.exclusive = some k → (s.pc q).token ≠ some k
  token : ∀ q k, q ≠ p → (s.pc q).exclusive = some k → pc.token ≠ some k
  quiet : ∀ q k j, pc.exclusive = some k → (t.inode j).lock = some (q, k) →
    pc.holding = some (k, j)

theorem Suits.idle : Suits s t p .idle :=
  ⟨nofun, nofun, nofun, nofun, nofun, nofun⟩

section
variable [Fintype K]

theorem Tokens.ref_pos (h : Tokens s) (hk : s.ptr k = some i) : 0 < (s.inode i).ref := by
  rw [h.count i]
  exact uses_pos hk

/-- Only the process that has locked an entry works under the lock. -/
theorem Tokens.others (h : Tokens s) (hp : (s.inode i).lock = some (p, k)) (q : P) (k' : K)
    (hqp : q ≠ p) : (s.pc q).holding ≠ some (k', i) := by
  intro hq
  have hlock := h.holding q k' i hq
  rw [hp] at hlock
  cases hlock
  exact hqp rfl

/-- The locks after a step of `p` suit the pointers and the calls of the others. -/
structure Locks (s t : St n P K) (p : P) : Prop where
  ptr : ∀ j q k, (t.inode j).lock = some (q, k) → s.ptr k = some j
  holding : ∀ q k j, q ≠ p → (s.pc q).holding = some (k, j) → (t.inode j).lock = some (q, k)
  quiet : ∀ q q' k j, q ≠ p → (s.pc q).exclusive = some k → (t.inode j).lock = some (q', k) →
    (s.pc q).holding = some (k, j)

theorem Tokens.same_locks (h : Tokens s) (hlock : ∀ j, (t.inode j).lock = (s.inode j).lock) :
    Locks s t p := by
  refine ⟨?_, ?_, ?_⟩
  · intro j q k
    rw [hlock]
    exact h.lock j q k
  · intro q k j _
    rw [hlock]
    exact h.holding q k j
  · intro q q' k j _ hq
    rw [hlock]
    exact h.quiet q q' k j hq

/-- The lock of entry `i`, which no other call works under, is given up or taken through a
pointer that no other call has for itself. -/
theorem Tokens.relock (h : Tokens s) (hinode : t.inode = update s.inode i e)
    (hmine : ∀ q k, q ≠ p → (s.pc q).holding ≠ some (k, i))
    (he : ∀ q k, e.lock = some (q, k) → s.ptr k = some i ∧
      ∀ q' ≠ p, (s.pc q').exclusive ≠ some k) : Locks s t p := by
  refine ⟨?_, ?_, ?_⟩
  · intro j q k hj
    by_cases hji : j = i
    · rw [hinode, hji, update_self] at hj
      rw [hji]
      exact (he q k hj).1
    · rw [hinode, update_of_ne hji] at hj
      exact h.lock j q k hj
  · intro q k j hqp hq
    rw [hinode, update_of_ne fun (hji : j = i) => hmine q k hqp (hji ▸ hq)]
    exact h.holding q k j hq
  · intro q q' k j hqp hq hj
    by_cases hji : j = i
    · rw [hinode, hji, update_self] at hj
      exact absurd hq ((he q' k hj).2 q hqp)
    · rw [hinode, update_of_ne hji] at hj
      exact h.quiet q q' k j hq hj

variable [DecidableEq P]

/-- Process `p` goes to `pc`, with pointers changed that nobody else uses. -/
theorem Tokens.step (h : Tokens s) (hcount : ∀ j, (t.inode j).ref = uses t.ptr j)
    (hpc : t.pc = update s.pc p pc) (hlocks : Locks s t p) (hnew : Suits s t p pc)
    (hlocked : ∀ j q k, (t.inode j).lock = some (q, k) → t.ptr k = s.ptr k)
    (hused : ∀ q k, q ≠ p → (s.pc q).token = some k → t.ptr k = s.ptr k) : Tokens t := by
  obtain ⟨hself, hother⟩ := Function.eq_update_iff.mp hpc
  refine ⟨hcount, ?_, ?_, ?_, ?_, ?_, ?_⟩
  · intro j q k hj
    rw [hlocked j q k hj]
    exact hlocks.ptr j q k hj
  · intro q k j hq
    by_cases hqp : q = p
    · rw [hqp, hself] at hq
      exact hnew.on k j hq
    · rw [hother q hqp] at hq
      rw [hused q k hqp (Pc.token_of_on hq)]
      exact h.on q k j hq
  · intro q k j hq
    by_cases hqp : q = p
    · rw [hqp, hself] at hq
      rw [hqp]
      exact hnew.holding k j hq
    · rw [hother q hqp] at hq
      exact hlocks.holding q k j hqp hq
  · intro q k hq
    by_cases hqp : q = p
    · rw [hqp, hself] at hq
      exact hnew.fresh k hq
    · rw [hother q hqp] at hq
      rw [hused q k hqp (Pc.token_of_fresh hq)]
      exact h.fresh q k hq
  · intro q q' k hq hq'
    by_cases hqp : q = p
    · by_cases hqp' : q' = p
      · rw [hqp, hqp']
      · rw [hqp, hself] at hq
        rw [hother q' hqp'] at hq'
        exact absurd hq' (hnew.alone q' k hqp' hq)
    · rw [hother q hqp] at hq
      by_cases hqp' : q' = p
      · rw [hqp', hself] at hq'
        exact absurd hq' (hnew.token q k hqp hq)
      · rw [hother q' hqp'] at hq'
        exact h.alone q q' k hq hq'
  · intro q q' k j hq hj
    by_cases hqp : q = p
    · rw [hqp, hself] at hq ⊢
      exact hnew.quiet q' k j hq hj
    · rw [hother q hqp] at hq ⊢
      exact hlocks.quiet q q' k j hqp hq hj

section
variable (h : Tokens s) (href : ∀ j, (t.inode j).ref = (s.inode j).ref) (hptr : t.ptr = s.ptr)
  (hpc : t.pc = update s.pc p pc) (hlocks : Locks s t p)
include h href hptr hpc hlocks

/-- The same, with all pointers as they were. -/
theorem Tokens.goes (hnew : Suits s t p pc) : Tokens t :=
  h.step (fun j => by rw [href, hptr, h.count]) hpc hlocks hnew (fun _ _ _ _ => by rw [hptr])
    fun _ _ _ _ => by rw [hptr]

/-- A place of the call that the process at `pc'` is in. -/
structure Pc.Continues (pc pc' : Pc n K) : Prop where
  on : pc.on = pc'.on
  fresh : pc.fresh = pc'.fresh
  token : pc.token = pc'.token
  exclusive : pc.exclusive = pc'.exclusive

/-- The call of `p` goes on. -/
theorem Tokens.goes_on (hgo : pc.Continues (s.pc p))
    (hholding : ∀ k j, pc.holding = some (k, j) → (t.inode j).lock = some (p, k))
    (hquiet : ∀ q k j, (s.pc p).exclusive = some k → (t.inode j).lock = some (q, k) →
      pc.holding = some (k, j)) : Tokens t := by
  refine h.goes href hptr hpc hlocks ⟨?_, hholding, ?_, ?_, ?_, by rwa [hgo.exclusive]⟩
  · rw [hgo.on, hptr]
    exact h.on p
  · rw [hgo.fresh, hptr]
    exact h.fresh p
  · intro q k hqp hp hq
    rw [hgo.exclusive] at hp
    exact hqp (h.alone p q k hp hq).symm
  · intro q k hqp hq hp
    rw [hgo.token] at hp
    exact hqp (h.alone q p k hq hp)

end

/-! ## New and dropped pointers -/

variable [DecidableEq K]

variable (h : Tokens s) (hinode : t.inode = update s.inode i e) (hlock : e.lock = (s.inode i).lock)
  (hpc : t.pc = update s.pc p .idle) (hunused : ∀ q ≠ p, (s.pc q).token ≠ some k)
include h hinode hlock hpc hunused

/-- The call of `p` ends with the pointer `k`, which nobody else uses, set or dropped. -/
theorem Tokens.reptr {o : Option (Fin n)} (hptr : t.ptr = update s.ptr k o)
    (href : e.ref + (if s.ptr k = some i then 1 else 0) =
      (s.inode i).ref + if o = some i then 1 else 0)
    (honly : ∀ j ≠ i, s.ptr k ≠ some j ∧ o ≠ some j)
    (hunlocked : ∀ j q, (s.inode j).lock ≠ some (q, k)) : Tokens t := by
  have hlocks := field_update hinode Entry.lock hlock
  refine h.step ?_ hpc (h.same_locks hlocks) .idle ?_ ?_
  · intro j
    have huses := uses_update s.ptr k o j
    rw [← hptr, ← h.count j] at huses
    rw [hinode]
    by_cases hj : j = i
    · subst hj
      rw [update_self]
      omega
    · rw [if_neg (honly j hj).1, if_neg (honly j hj).2] at huses
      rw [update_of_ne hj]
      exact huses.symm
  · intro j q k' hj
    rw [hptr, update_of_ne]
    rintro rfl
    exact hunlocked j q (hlocks j ▸ hj)
  · intro q k' hqp hq
    rw [hptr, update_of_ne]
    rintro rfl
    exact hunused q hqp hq

/-- A call sets the pointer `k` to entry `i`. -/
theorem Tokens.set_ptr (hk : s.ptr k = none) (href : e.ref = (s.inode i).ref + 1)
    (hptr : t.ptr = update s.ptr k (some i)) : Tokens t := by
  refine h.reptr hinode hlock hpc hunused hptr ?_ ?_ ?_
  · simpa [hk] using href
  · rw [hk]
    exact fun j hj => ⟨nofun, fun heq => hj (Option.some.inj heq).symm⟩
  · intro j q hj
    rw [h.lock j q k hj] at hk
    cases hk

/-- A call drops the pointer `k` to entry `i`. -/
theorem Tokens.drop_ptr (hk : s.ptr k = some i) (href : e.ref = (s.inode i).ref - 1)
    (hptr : t.ptr = update s.ptr k none)
    (hunlocked : ∀ j q, (s.inode j).lock ≠ some (q, k)) : Tokens t := by
  have hpos := h.ref_pos hk
  refine h.reptr hinode hlock hpc hunused hptr ?_ ?_ hunlocked
  · simp only [hk, if_true, reduceCtorEq, if_false]
    omega
  · rw [hk]
    exact fun j hj => ⟨fun heq => hj (Option.some.inj heq).symm, nofun⟩

end

/-! ## Copies -/

/-- The copy in an entry, and what it is a copy of, are as before. -/
structure Same (e e' : Entry P K) : Prop where
  d : e'.d = e.d
  gen : e'.gen = e.gen
  valid : e'.valid = e.valid
  dirty : e'.dirty = e.dirty

section
variable {e e' : Entry P K} {x : DiskInode}

theorem Coherent.congr (h : Coherent e x) (hsame : Same e e') : Coherent e' x :=
  ⟨hsame.d.trans h.d, hsame.gen.trans h.gen, hsame.d ▸ h.type⟩

theorem Held.congr (h : Held e x) (hsame : Same e e') : Held e' x :=
  ⟨hsame.valid.trans h.valid, hsame.gen.trans h.gen,
    fun hd => hsame.d.trans (h.clean (hsame.dirty.symm.trans hd)), hsame.d ▸ h.type, h.disk⟩

/-- While the copy may be of use, the inode on disk is as before. -/
theorem Busy.congr {x' : DiskInode} (h : Busy e x pc) (hsame : Same e e')
    (hx : x.d.type ≠ .none → x' = x) : Busy e' x' pc := by
  have hcoherent : Coherent e x → Coherent e' x' := fun hc => by
    rw [hx (hc.d ▸ hc.type)]
    exact hc.congr hsame
  cases pc with
  | lock stage k i =>
    cases stage with
    | wait => trivial
    | load => exact fun hv => hcoherent (h (hsame.valid.symm.trans hv))
    | loaded => exact fun hv => hcoherent (h (hsame.d ▸ hv))
  | put stage k i =>
    cases stage with
    | ref | valid => trivial
    | trunc | truncUpdate =>
      rw [hx h.2]
      exact ⟨hsame.d ▸ h.1, h.2⟩
    | type | update =>
      rw [hx h]
      exact h
    | unlock => exact hsame.valid.trans h
  | idle | allocScan | allocGet => trivial

end

/-- Entry `j` keeps its copy and its lock, and its inode on disk for as long as there can be a
copy of it. -/
structure Unmoved (s t : St n P K) (j : Fin n) : Prop where
  same : Same (s.inode j) (t.inode j)
  lock : (t.inode j).lock = (s.inode j).lock
  ref : 0 < (t.inode j).ref → 0 < (s.inode j).ref
  disk : 0 < (s.inode j).ref → (s.onDisk j).d.type ≠ .none → t.onDisk j = s.onDisk j

theorem Unmoved.of_eq (h : t.inode j = s.inode j)
    (hdisk : 0 < (s.inode j).ref → (s.onDisk j).d.type ≠ .none →
      t.disk (s.inode j).dev (s.inode j).inum = s.onDisk j) : Unmoved s t j := by
  refine ⟨?_, ?_, ?_, ?_⟩ <;> try unfold St.onDisk
  all_goals rw [h]
  · exact ⟨rfl, rfl, rfl, rfl⟩
  · exact id
  · exact hdisk

/-- Entry `i` becomes `e`, for the same inode and with as many references, and the inode on disk
becomes `x`. -/
structure Edit (s t : St n P K) (i : Fin n) (e : Entry P K) (x : DiskInode) : Prop where
  inode : t.inode = update s.inode i e
  dev : e.dev = (s.inode i).dev
  inum : e.inum = (s.inode i).inum
  ref : e.ref = (s.inode i).ref
  here : t.disk (s.inode i).dev (s.inode i).inum = x
  disk : ∀ a b, ¬ (a = (s.inode i).dev ∧ b = (s.inode i).inum) → t.disk a b = s.disk a b

section
variable [DecidableEq P] {pc : Pc n K} (h : Copies s)
include h

/-- The rule for a step of `p`: an entry is unmoved and `p` is not at work on it, or nobody but
`p` is at work on it. -/
theorem Copies.step [Fintype K] (hs : Tokens s) (hpc : t.pc = update s.pc p pc)
    (hunique : ∀ i j, 0 < (t.inode i).ref → 0 < (t.inode j).ref →
      (t.inode i).dev = (t.inode j).dev → (t.inode i).inum = (t.inode j).inum → i = j)
    (hentry : ∀ j, Unmoved s t j ∧ (∀ k, (s.pc p).holding ≠ some (k, j) ∧ pc.holding ≠ some (k, j)) ∨
      ((t.inode j).lock = none → (t.inode j).valid = true → Coherent (t.inode j) (t.onDisk j)) ∧
      (∀ q k, (t.inode j).lock = some (q, k) →
        q = p ∧ (pc.holding ≠ some (k, j) → Held (t.inode j) (t.onDisk j))) ∧
      (∀ q k, q ≠ p → (s.pc q).holding ≠ some (k, j)) ∧
      (pc.holding ≠ none → Busy (t.inode j) (t.onDisk j) pc)) : Copies t := by
  obtain ⟨hself, hother⟩ := Function.eq_update_iff.mp hpc
  refine ⟨hunique, fun j hj hlock hvalid => ?_, fun j q k hlock hq => ?_, fun q k j hq => ?_⟩
  · rcases hentry j with ⟨hun, -⟩ | ⟨hfree, -⟩
    · rw [hun.lock] at hlock
      have hc := h.free j (hun.ref hj) hlock (hun.same.valid.symm.trans hvalid)
      rw [hun.disk (hun.ref hj) (hc.d ▸ hc.type)]
      exact hc.congr hun.same
    · exact hfree hlock hvalid
  · rcases hentry j with ⟨hun, hoff⟩ | ⟨-, hheld, -⟩
    · rw [hun.lock] at hlock
      have hh : Held (s.inode j) (s.onDisk j) := by
        apply h.held j q k hlock
        by_cases hqp : q = p
        · rw [hqp]
          exact (hoff k).1
        · rwa [hother q hqp] at hq
      rw [hun.disk (hs.ref_pos (hs.lock j q k hlock)) hh.disk]
      exact hh.congr hun.same
    · rcases hheld q k hlock with ⟨rfl, hh⟩
      rw [hself] at hq
      exact hh hq
  · by_cases hqp : q = p
    · rw [hqp, hself] at hq ⊢
      rcases hentry j with ⟨-, hoff⟩ | ⟨-, -, -, hbusy⟩
      · exact absurd hq (hoff k).2
      · exact hbusy (by rw [hq]; nofun)
    · rw [hother q hqp] at hq ⊢
      rcases hentry j with ⟨hun, -⟩ | ⟨-, -, hmine, -⟩
      · exact (h.busy q k j hq).congr hun.same
          (hun.disk (hs.ref_pos (hs.on q k j (Pc.on_of_holding hq))))
      · exact absurd hq (hmine q k hqp)

/-- A step of `p` on entry `i` and on its inode on disk. -/
theorem Copies.at_entry [Fintype K] {x : DiskInode} (hs : Tokens s) (hedit : Edit s t i e x)
    (hpos : 0 < (s.inode i).ref) (hpc : t.pc = update s.pc p pc)
    -- nobody else is at work on the entry, and p on no other
    (hmine : ∀ q k, q ≠ p → (s.pc q).holding ≠ some (k, i))
    (hhere : ∀ k j, (s.pc p).holding = some (k, j) ∨ pc.holding = some (k, j) → j = i)
    (hfree : e.lock = none → e.valid = true → Coherent e x)
    (hheld : ∀ q k, e.lock = some (q, k) → q = p ∧ (pc.holding ≠ some (k, i) → Held e x))
    (hbusy : pc.holding ≠ none → Busy e x pc) : Copies t := by
  have hat : t.inode i = e := by rw [hedit.inode, update_self]
  have hati : t.onDisk i = x := by
    unfold St.onDisk
    rw [hat, hedit.dev, hedit.inum, hedit.here]
  have hname : ∀ {α : Type} (f : Entry P K → α), f e = f (s.inode i) →
      ∀ j, f (t.inode j) = f (s.inode j) := fun f => field_update hedit.inode f
  refine h.step hs hpc ?_ fun j => ?_
  · intro j j' hj hj' hd hn
    rw [hname _ hedit.ref] at hj hj'
    rw [hname _ hedit.dev, hname _ hedit.dev] at hd
    rw [hname _ hedit.inum, hname _ hedit.inum] at hn
    exact h.unique j j' hj hj' hd hn
  · by_cases hji : j = i
    · rw [hji, hat, hati]
      exact .inr ⟨hfree, hheld, hmine, hbusy⟩
    refine .inl ⟨.of_eq (by rw [hedit.inode, update_of_ne hji]) fun hjref _ => ?_,
      fun k => ⟨fun hk => hji (hhere k j (.inl hk)), fun hk => hji (hhere k j (.inr hk))⟩⟩
    -- another entry in use is for another inode
    exact hedit.disk _ _ fun heq => hji (h.unique j i hjref hpos heq.1 heq.2)

/-- References come and go, and `p` is under no lock. -/
theorem Copies.recount [Fintype K] (hs : Tokens s) (hinode : t.inode = update s.inode i e)
    (hdev : e.dev = (s.inode i).dev) (hinum : e.inum = (s.inode i).inum)
    (hlock : e.lock = (s.inode i).lock) (hsame : Same (s.inode i) e)
    (href : 0 < e.ref → 0 < (s.inode i).ref) (hdisk : t.disk = s.disk)
    (hpc : t.pc = update s.pc p pc) (hp : (s.pc p).holding = none) (ht : pc.holding = none) :
    Copies t := by
  have hname : ∀ {α : Type} (f : Entry P K → α), f e = f (s.inode i) →
      ∀ j, f (t.inode j) = f (s.inode j) := fun f => field_update hinode f
  have hpos : ∀ j, 0 < (t.inode j).ref → 0 < (s.inode j).ref := by
    intro j hj
    rw [hinode] at hj
    by_cases hji : j = i
    · rw [hji, update_self] at hj
      rw [hji]
      exact href hj
    · rwa [update_of_ne hji] at hj
  refine h.step hs hpc ?_ fun j => .inl ⟨⟨?_, hname _ hlock j, hpos j, fun _ _ => ?_⟩, ?_⟩
  · intro j j' hj hj' hd hn
    rw [hname _ hdev, hname _ hdev] at hd
    rw [hname _ hinum, hname _ hinum] at hn
    exact h.unique j j' (hpos j hj) (hpos j' hj') hd hn
  · exact ⟨hname _ hsame.d j, hname _ hsame.gen j, hname _ hsame.valid j, hname _ hsame.dirty j⟩
  · unfold St.onDisk
    rw [hname _ hdev j, hname _ hinum j, hdisk]
  · rw [hp, ht]
    exact fun _ => ⟨nofun, nofun⟩

/-- An entry that is not in use is taken for an inode that has none. -/
theorem Copies.recycle [Fintype K] (hs : Tokens s) (hinode : t.inode = update s.inode i e)
    (hempty : (s.inode i).ref = 0) (hvalid : e.valid = false) (hlock : e.lock = (s.inode i).lock)
    (hdisk : t.disk = s.disk)
    (hnew : ∀ j, 0 < (s.inode j).ref → ¬ ((s.inode j).dev = e.dev ∧ (s.inode j).inum = e.inum))
    (hpc : t.pc = update s.pc p pc) (hp : (s.pc p).holding = none) (ht : pc.holding = none) :
    Copies t := by
  have hat : t.inode i = e := by rw [hinode, update_self]
  have hoff : ∀ j ≠ i, t.inode j = s.inode j := fun j hj => by
    rw [hinode, update_of_ne hj]
  have hunlocked : ∀ q k, (s.inode i).lock ≠ some (q, k) := by
    intro q k hq
    have hpos := hs.ref_pos (hs.lock i q k hq)
    omega
  refine h.step hs hpc ?_ fun j => ?_
  · intro j j' hj hj' hd hn
    by_cases hji : j = i <;> by_cases hji' : j' = i
    · rw [hji, hji']
    · rw [hji, hat, hoff j' hji'] at hd hn
      rw [hoff j' hji'] at hj'
      exact absurd ⟨hd.symm, hn.symm⟩ (hnew j' hj')
    · rw [hji', hat, hoff j hji] at hd hn
      rw [hoff j hji] at hj
      exact absurd ⟨hd, hn⟩ (hnew j hj)
    · rw [hoff j hji, hoff j' hji'] at hd hn
      rw [hoff j hji] at hj
      rw [hoff j' hji'] at hj'
      exact h.unique j j' hj hj' hd hn
  · by_cases hji : j = i
    · rw [hji, hat, hvalid, hlock]
      exact .inr ⟨nofun, fun q k hq => absurd hq (hunlocked q k),
        fun q k _ hq => hunlocked q k (hs.holding q k i hq), fun hne => absurd ht hne⟩
    rw [hp, ht]
    exact .inl ⟨.of_eq (hoff j hji) fun _ _ => by rw [hdisk]; rfl, fun _ => ⟨nofun, nofun⟩⟩

/-- A free inode on disk may be allocated: no valid copy of it can be found. -/
theorem Copies.alloc [Fintype K] (hs : Tokens s) (hinode : t.inode = s.inode)
    (hdisk : ∀ a b, (s.disk a b).d.type ≠ .none → t.disk a b = s.disk a b)
    (hpc : t.pc = update s.pc p pc) (hp : (s.pc p).holding = none) (ht : pc.holding = none) :
    Copies t := by
  refine h.step hs hpc (by rw [hinode]; exact h.unique) fun j => .inl ⟨.of_eq ?_ ?_, ?_⟩
  · rw [hinode]
  · exact fun _ hj => hdisk _ _ hj
  · rw [hp, ht]
    exact fun _ => ⟨nofun, nofun⟩

end

end

end Xv6.Itable
