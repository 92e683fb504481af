import Xv6.Itable.Copies

/-!
# Xv6.Itable.Coherence — the table and the disk agree

Every action keeps `Tokens` and `Copies`. So an inode has one entry at most, an unlocked valid
copy is the inode on disk, and what a process finds in an entry after `ilock` belongs to the
present allocation of its number, also if it was allocated while another process was still in
the freeing `iput` of that number.
-/

namespace Xv6.Itable

open Lib Fs Function

variable {n : Nat} {P K : Type} [Fintype K]

structure Inv (s : St n P K) : Prop where
  tokens : Tokens s
  copies : Copies s
  -- iput does not sleep under itable.lock, and no pointer is left without its count
  panic : s.panic ≠ some .schedLocks ∧ s.panic ≠ some .ilock ∧ s.panic ≠ some .iunlock

/-- What a process that has locked an entry and is in no call may use. -/
theorem Inv.holds {s : St n P K} {p : P} {i : Fin n} (h : Inv s) (hp : s.Holds p i) :
    ∃ k, (s.inode i).lock = some (p, k) ∧ Held (s.inode i) (s.onDisk i) := by
  rcases Option.map_eq_some_iff.mp hp.2 with ⟨⟨q, k⟩, hlock, rfl⟩
  refine ⟨k, hlock, h.copies.held i q k hlock ?_⟩
  rw [hp.1]
  nofun

theorem init_inv {s : St n P K} (hs : Init s) : Inv s := by
  have hpc : ∀ p, s.pc p = .idle := hs.pc
  refine ⟨⟨?_, ?_, ?_, ?_, ?_, ?_, ?_⟩, ⟨?_, ?_, ?_, ?_⟩, ?_⟩
  · intro i
    rw [(hs.inode i).1]
    exact (uses_eq_zero.mpr fun k => by rw [hs.ptr k]; nofun).symm
  · intro i p k hlock
    rw [(hs.inode i).2] at hlock
    cases hlock
  · simp only [hpc]
    nofun
  · simp only [hpc]
    nofun
  · simp only [hpc]
    nofun
  · simp only [hpc]
    nofun
  · simp only [hpc]
    nofun
  · intro i j hi
    rw [(hs.inode i).1] at hi
    omega
  · intro i hi
    rw [(hs.inode i).1] at hi
    omega
  · intro i p k hlock
    rw [(hs.inode i).2] at hlock
    cases hlock
  · simp only [hpc]
    nofun
  · rw [hs.panic]
    exact ⟨nofun, nofun, nofun⟩

section
variable [DecidableEq P] {s t : St n P K} {p : P} {k : K} {i : Fin n}

/-! ## Actions on a locked entry -/

variable {pc : Pc n K} {e : Entry P K}

/-- A process that has locked `i`, in a call that goes on or ends or outside all calls, works on
it and keeps the lock. -/
theorem Inv.works {x : DiskInode} (h : Inv s) (hmine : (s.inode i).lock = some (p, k))
    (hedit : Edit s t i e x) (hlock : e.lock = (s.inode i).lock) (hptr : t.ptr = s.ptr)
    (hpc : t.pc = update s.pc p pc) (hhere : ∀ k j, (s.pc p).holding = some (k, j) → j = i)
    (hnext : pc = .idle ∧ Held e x ∨ pc.Continues (s.pc p) ∧ pc.holding = (s.pc p).holding ∧
      (s.pc p).holding = some (k, i) ∧ Busy e x pc)
    (hpanic : t.panic ≠ some .schedLocks ∧ t.panic ≠ some .ilock ∧ t.panic ≠ some .iunlock) :
    Inv t := by
  have hlocks := field_update hedit.inode Entry.lock hlock
  have hrefs := field_update hedit.inode Entry.ref hedit.ref
  have hpos := h.tokens.ref_pos (h.tokens.lock i p k hmine)
  refine ⟨?_, ?_, hpanic⟩
  · rcases hnext with ⟨rfl, -⟩ | ⟨hgo, hholding, -⟩
    · exact h.tokens.goes hrefs hptr hpc (h.tokens.same_locks hlocks) .idle
    refine h.tokens.goes_on hrefs hptr hpc (h.tokens.same_locks hlocks) hgo ?_ ?_
    · intro k' j hj
      rw [hlocks]
      exact h.tokens.holding p k' j (hholding ▸ hj)
    · intro q k' j hk hj
      rw [hlocks] at hj
      rw [hholding]
      exact h.tokens.quiet p q k' j hk hj
  · refine h.copies.at_entry h.tokens hedit hpos hpc (h.tokens.others hmine) ?_ ?_ ?_ ?_
    · rintro k' j (hj | hj)
      · exact hhere k' j hj
      · rcases hnext with ⟨rfl, -⟩ | ⟨-, hholding, -⟩
        · cases hj
        · exact hhere k' j (hholding ▸ hj)
    · rw [hlock, hmine]
      nofun
    · intro q k' hq
      rw [hlock, hmine] at hq
      cases hq
      refine ⟨rfl, fun hne => ?_⟩
      rcases hnext with ⟨-, hheld⟩ | ⟨-, hholding, hp, -⟩
      · exact hheld
      · exact absurd (hholding.trans hp) hne
    · rcases hnext with ⟨rfl, -⟩ | ⟨-, -, -, hbusy⟩
      · exact fun hne => absurd rfl hne
      · exact fun _ => hbusy

/-- The call of `p` under the lock of `i` goes on or ends. -/
theorem Inv.proceeds {x : DiskInode} (h : Inv s) (hp : (s.pc p).holding = some (k, i))
    (hedit : Edit s t i e x) (hlock : e.lock = (s.inode i).lock) (hptr : t.ptr = s.ptr)
    (hpc : t.pc = update s.pc p pc) (hnext : pc = .idle ∧ Held e x ∨ pc.Continues (s.pc p) ∧
      pc.holding = some (k, i) ∧ Busy e x pc)
    (hpanic : t.panic ≠ some .schedLocks ∧ t.panic ≠ some .ilock ∧ t.panic ≠ some .iunlock) :
    Inv t := by
  refine h.works (h.tokens.holding p k i hp) hedit hlock hptr hpc ?_ ?_ hpanic
  · rw [hp]
    rintro k' j ⟨⟩
    rfl
  · exact hnext.imp_right fun ⟨hgo, hholding, hbusy⟩ => ⟨hgo, hholding.trans hp.symm, hp, hbusy⟩

/-- The lock of `i` is put down, with the copy as it has to be. -/
theorem Inv.unlocks (h : Inv s) (hmine : (s.inode i).lock = some (p, k))
    (hedit : Edit s t i e (s.onDisk i)) (hlock : e.lock = none) (hptr : t.ptr = s.ptr)
    (hpc : t.pc = update s.pc p pc) (hgo : pc.Continues (s.pc p)) (hpcs : pc.holding = none)
    (hhere : ∀ k j, (s.pc p).holding = some (k, j) → j = i)
    (hcoherent : e.valid = true → Coherent e (s.onDisk i)) (hpanic : t.panic = s.panic) :
    Inv t := by
  have hothers := h.tokens.others hmine
  have hlocks : Locks s t p := by
    refine h.tokens.relock hedit.inode hothers ?_
    rw [hlock]
    nofun
  have hpos := h.tokens.ref_pos (h.tokens.lock i p k hmine)
  refine ⟨?_, ?_, hpanic ▸ h.panic⟩
  · refine h.tokens.goes_on (field_update hedit.inode Entry.ref hedit.ref) hptr hpc hlocks hgo ?_ ?_
    · rw [hpcs]
      nofun
    -- the pointer that the call has for itself held no lock but this one
    intro q k' j hk hj
    rw [hedit.inode] at hj
    by_cases hji : j = i
    · rw [hji, update_self, hlock] at hj
      cases hj
    · rw [update_of_ne hji] at hj
      exact absurd (hhere k' j (h.tokens.quiet p q k' j hk hj)) hji
  · refine h.copies.at_entry h.tokens hedit hpos hpc hothers ?_ (fun _ => hcoherent) ?_ ?_
    · rintro k' j (hj | hj)
      · exact hhere k' j hj
      · rw [hpcs] at hj
        cases hj
    · rw [hlock]
      nofun
    · exact fun hne => absurd hpcs hne

/-- A free lock is taken by a call of `p` through `k`. -/
theorem Inv.locks (h : Inv s) (hptr : s.ptr k = some i) (hfree : (s.inode i).lock = none)
    (hpc : t.pc = update s.pc p pc) (hp : (s.pc p).holding = none)
    (hinode : t.inode = update s.inode i { s.inode i with lock := some (p, k) })
    (hdisk : t.disk = s.disk) (hptrs : t.ptr = s.ptr) (hon : pc.on = some (k, i))
    (hholding : pc.holding = some (k, i)) (hfresh : pc.fresh = none)
    (hexcl : ∀ k', pc.exclusive = some k' → k' = k ∧ s.Unused k) (htoken : pc.token = some k)
    (hkept : ∀ q ≠ p, (s.pc q).exclusive ≠ some k)
    (hbusy : Busy { s.inode i with lock := some (p, k) } (s.onDisk i) pc)
    (hpanic : t.panic = s.panic) : Inv t := by
  have hothers : ∀ q k', q ≠ p → (s.pc q).holding ≠ some (k', i) := by
    intro q k' _ hq
    rw [h.tokens.holding q k' i hq] at hfree
    cases hfree
  have hat : t.inode i = { s.inode i with lock := some (p, k) } := by
    rw [hinode, update_self]
  refine ⟨?_, ?_, hpanic ▸ h.panic⟩
  · refine h.tokens.goes (field_update hinode Entry.ref rfl) hptrs hpc
      (h.tokens.relock hinode hothers ?_) ⟨?_, ?_, ?_, ?_, ?_, ?_⟩
    · rintro q k' he
      cases he
      exact ⟨hptr, hkept⟩
    · rw [hon, hptrs]
      rintro k' j hj
      cases hj
      exact hptr
    · rw [hholding]
      rintro k' j hj
      cases hj
      rw [hat]
    · rw [hfresh]
      nofun
    · intro q k' hqp hk hq
      rcases hexcl k' hk with ⟨rfl, hun⟩
      exact hun.1 q hq
    · intro q k' hqp hq hk
      rw [htoken] at hk
      cases hk
      exact hkept q hqp hq
    intro q k' j hk hj
    rcases hexcl k' hk with ⟨rfl, hun⟩
    rw [hinode] at hj
    by_cases hji : j = i
    · rw [hji]
      exact hholding
    · rw [update_of_ne hji] at hj
      exact absurd hj (hun.2 j q)
  · refine h.copies.at_entry h.tokens ⟨hinode, rfl, rfl, rfl, by rw [hdisk]; rfl, fun _ _ _ =>
      by rw [hdisk]⟩ (h.tokens.ref_pos hptr) hpc hothers ?_ nofun ?_ fun _ => hbusy
    · rintro k' j (hj | hj)
      · rw [hp] at hj
        cases hj
      · rw [hholding] at hj
        cases hj
        rfl
    · rintro q k' hq
      cases hq
      exact ⟨rfl, fun hne => absurd hholding hne⟩

/-- A call begins. -/
theorem Inv.begins (h : Inv s) (hp : s.pc p = .idle) (hpc : pc.holding = none)
    (hnew : Suits s (s.goto p pc) p pc) : Inv (s.goto p pc) := by
  have hhold : (s.pc p).holding = none := by rw [hp]; rfl
  exact ⟨h.tokens.goes (fun _ => rfl) rfl rfl (h.tokens.same_locks fun _ => rfl) hnew,
    h.copies.alloc h.tokens rfl (fun _ _ _ => rfl) rfl hhold hpc, h.panic⟩

/-! ## `ilock` -/

/-- The first action of `ilock`. -/
theorem ilock_inv (h : Inv s) (hp : s.pc p = .idle) (hptr : s.ptr k = some i) (hkept : s.Kept k) :
    Inv (s.goto p (.lock .wait k i)) := by
  refine h.begins hp rfl ⟨?_, nofun, nofun, nofun, ?_, nofun⟩
  · rintro k' j hj
    cases hj
    exact hptr
  -- who has k for itself is dropping it, since it is set
  intro q k' _ hq hk
  cases hk
  cases hpc : s.pc q with
  | put stage k' j =>
    rw [hpc] at hq
    exact hkept q (by rw [hpc]; exact hq)
  | allocScan | allocGet =>
    have hnone := h.tokens.fresh q k (by rw [hpc] at hq ⊢; exact hq)
    rw [hptr] at hnone
    cases hnone
  | idle | lock =>
    rw [hpc] at hq
    cases hq

theorem lockStep_inv {stage : LockStage} (h : Inv s) (hp : s.pc p = .lock stage k i)
    (hs : lockStep s p k i stage = some t) : Inv t := by
  cases stage with
  | wait =>
    simp only [lockStep, Option.ite_none_right_eq_some, Option.some.injEq] at hs
    rcases hs with ⟨hfree, rfl⟩
    have hptr : s.ptr k = some i := h.tokens.on p k i (by rw [hp]; rfl)
    refine h.locks hptr hfree rfl (by rw [hp]; rfl) rfl rfl rfl rfl rfl rfl nofun rfl ?_ ?_ rfl
    · intro q hqp hq
      exact hqp (h.tokens.alone q p k hq (by rw [hp]; rfl))
    · exact fun hv => (h.copies.free i (h.tokens.ref_pos hptr) hfree hv).congr ⟨rfl, rfl, rfl, rfl⟩
  | load =>
    simp only [lockStep, Option.some.injEq] at hs
    subst hs
    have hhold : (s.pc p).holding = some (k, i) := by rw [hp]; rfl
    have hbusy := h.copies.busy p k i hhold
    rw [hp] at hbusy
    split
    case isTrue hv =>
      exact h.proceeds hhold ⟨(update_eq_self i s.inode).symm, rfl, rfl, rfl, rfl, fun _ _ _ => rfl⟩
        rfl rfl rfl (.inl ⟨rfl, (hbusy hv).held hv⟩) h.panic
    case isFalse =>
      refine h.proceeds hhold ⟨rfl, rfl, rfl, rfl, rfl, fun _ _ _ => rfl⟩ rfl rfl rfl (.inr ?_) h.panic
      rw [hp]
      exact ⟨⟨rfl, rfl, rfl, rfl⟩, rfl, fun htype => ⟨rfl, rfl, htype⟩⟩
  | loaded =>
    simp only [lockStep, Option.some.injEq] at hs
    subst hs
    have hhold : (s.pc p).holding = some (k, i) := by rw [hp]; rfl
    have hbusy := h.copies.busy p k i hhold
    rw [hp] at hbusy
    split
    case isTrue htype =>
      -- the panic "ilock: no type": the lock stays with `p`
      refine h.proceeds hhold ⟨rfl, rfl, rfl, rfl, rfl, fun _ _ _ => rfl⟩ rfl rfl
        (update_eq_self p s.pc).symm (.inr ⟨⟨rfl, rfl, rfl, rfl⟩, hhold, ?_⟩) ⟨nofun, nofun, nofun⟩
      rw [hp]
      exact fun hne => absurd htype hne
    case isFalse htype =>
      have hc := hbusy htype
      exact h.proceeds hhold ⟨rfl, rfl, rfl, rfl, rfl, fun _ _ _ => rfl⟩ rfl rfl rfl
        (.inl ⟨rfl, rfl, hc.gen, fun _ => hc.d, hc.type, hc.d ▸ hc.type⟩) h.panic

/-! ## `ialloc` -/

/-- The first action of `ialloc`. -/
theorem ialloc_inv {dev inum : Nat} {type : FType} (h : Inv s) (hp : s.pc p = .idle)
    (hk : s.ptr k = none) (hunused : s.Unused k) : Inv (s.goto p (.allocScan k dev type inum)) := by
  refine h.begins hp rfl ⟨nofun, nofun, ?_, ?_, ?_, ?_⟩
  · rintro k' hk'
    cases hk'
    exact hk
  · rintro q k' - hk'
    cases hk'
    exact hunused.1 q
  · rintro q k' - hq hk'
    cases hk'
    exact hunused.1 q (Pc.token_of_exclusive hq)
  · rintro q k' j hk' hj
    cases hk'
    exact absurd hj (hunused.2 j q)

/-- An `ialloc` goes on, having changed no inode but a free one. -/
theorem Inv.scans (h : Inv s) (hk : (s.pc p).fresh = some k) (hinode : t.inode = s.inode)
    (hptr : t.ptr = s.ptr) (hdisk : ∀ a b, (s.disk a b).d.type ≠ .none → t.disk a b = s.disk a b)
    (hpc : t.pc = update s.pc p pc) (hnext : pc = .idle ∨ pc.fresh = some k)
    (hpanic : t.panic = s.panic) : Inv t := by
  have hfresh : ∀ {pc : Pc n K}, pc.fresh = some k → pc.on = none ∧ pc.holding = none ∧
      pc.token = some k ∧ pc.exclusive = some k := by
    intro pc hpc
    cases pc <;> cases hpc <;> exact ⟨rfl, rfl, rfl, rfl⟩
  rcases hfresh hk with ⟨hon, hhold, htoken, hexcl⟩
  have hlocks : Locks s t p := h.tokens.same_locks fun j => by rw [hinode]
  have href : ∀ j, (t.inode j).ref = (s.inode j).ref := fun j => by rw [hinode]
  rcases hnext with rfl | hnext
  · exact ⟨h.tokens.goes href hptr hpc hlocks .idle, h.copies.alloc h.tokens hinode hdisk hpc hhold rfl,
      hpanic ▸ h.panic⟩
  rcases hfresh hnext with ⟨hon', hhold', htoken', hexcl'⟩
  refine ⟨?_, h.copies.alloc h.tokens hinode hdisk hpc hhold hhold', hpanic ▸ h.panic⟩
  refine h.tokens.goes_on href hptr hpc hlocks ⟨hon'.trans hon.symm, hnext.trans hk.symm,
    htoken'.trans htoken.symm, hexcl'.trans hexcl.symm⟩ ?_ ?_
  · rw [hhold']
    nofun
  -- no lock is held through a pointer that is not set
  intro q k' j hk' hj
  rw [hexcl] at hk'
  cases hk'
  rw [hinode] at hj
  have hset := h.tokens.lock j q k hj
  rw [h.tokens.fresh p k hk] at hset
  cases hset

variable {ninodes : Nat}

theorem allocVisit_inv {dev inum : Nat} {type : FType} (h : Inv s)
    (hp : s.pc p = .allocScan k dev type inum) :
    Inv (allocVisit s p ninodes k dev type inum) := by
  have hk : (s.pc p).fresh = some k := by rw [hp]; rfl
  unfold allocVisit
  split
  case isTrue =>
    split
    case isTrue hfree =>
      refine h.scans hk rfl rfl ?_ rfl (.inr rfl) rfl
      intro a b hne
      refine setDisk_of_ne s _ ?_
      rintro ⟨rfl, rfl⟩
      exact hne hfree
    case isFalse => exact h.scans hk rfl rfl (fun _ _ _ => rfl) rfl (.inr rfl) rfl
  case isFalse => exact h.scans hk rfl rfl (fun _ _ _ => rfl) rfl (.inl rfl) rfl

/-! ## `iput` -/

section
variable [DecidableEq K]

/-- The last reference but for the pointer that the call has for itself. -/
theorem dropRef_inv (h : Inv s) (hptr : s.ptr k = some i) (hp : (s.pc p).holding = none)
    (hunused : ∀ q ≠ p, (s.pc q).token ≠ some k)
    (hunlocked : ∀ j q, (s.inode j).lock ≠ some (q, k)) : Inv (dropRef s p k i) := by
  refine ⟨h.tokens.drop_ptr rfl rfl rfl hunused hptr rfl rfl hunlocked, ?_, h.panic⟩
  exact h.copies.recount h.tokens rfl rfl rfl rfl ⟨rfl, rfl, rfl, rfl⟩
    (fun _ => h.tokens.ref_pos hptr) rfl rfl hp rfl

theorem iput_inv (h : Inv s) (hp : s.pc p = .idle) (hptr : s.ptr k = some i)
    (hunused : s.Unused k) : Inv (iput s p k i) := by
  have hhold : (s.pc p).holding = none := by rw [hp]; rfl
  unfold iput
  split
  case isTrue hfreeing =>
    rcases hfreeing with ⟨hone, hvalid, -⟩
    -- a process that has locked the entry would have another pointer to it
    have hfree : (s.inode i).lock = none := by
      by_contra hne
      rcases Option.ne_none_iff_exists'.mp hne with ⟨⟨q, k'⟩, hq⟩
      have heq := uses_one ((h.tokens.count i).symm.trans hone) hptr (h.tokens.lock i q k' hq)
      rw [heq] at hq
      exact hunused.2 i q hq
    rw [if_pos hfree]
    have hc := h.copies.free i (h.tokens.ref_pos hptr) hfree hvalid
    refine h.locks hptr hfree rfl hhold rfl rfl rfl rfl rfl rfl ?_ rfl ?_
      ⟨hc.type, hc.d ▸ hc.type⟩ rfl
    · rintro k' hk
      cases hk
      exact ⟨rfl, hunused⟩
    · intro q _ hq
      exact hunused.1 q (Pc.token_of_exclusive hq)
  case isFalse => exact dropRef_inv h hptr hhold (fun q _ => hunused.1 q) hunused.2

omit [DecidableEq K] in
/-- The freeing path goes on under the lock. -/
theorem Inv.frees {x : DiskInode} {stage stage' : PutStage} (h : Inv s)
    (hp : s.pc p = .put stage k i) (hpc : t.pc = update s.pc p (.put stage' k i))
    (hstage : stage ≠ .ref) (hstage' : stage' ≠ .ref) (hedit : Edit s t i e x)
    (hlock : e.lock = (s.inode i).lock) (hptr : t.ptr = s.ptr) (hpanic : t.panic = s.panic)
    (hbusy : Busy e x (.put stage' k i)) : Inv t := by
  have hhold : ∀ stage ≠ PutStage.ref, (Pc.put stage k i).holding = some (k, i) := by
    intro stage hne
    cases stage <;> first | rfl | exact absurd rfl hne
  refine h.proceeds (by rw [hp]; exact hhold stage hstage) hedit hlock hptr hpc
    (.inr ⟨?_, hhold stage' hstage', hbusy⟩) (hpanic ▸ h.panic)
  rw [hp]
  exact ⟨rfl, rfl, rfl, rfl⟩

theorem putStep_inv {stage : PutStage} (h : Inv s) (hp : s.pc p = .put stage k i) :
    Inv (putStep s p k i stage) := by
  have hptr : s.ptr k = some i := h.tokens.on p k i (by rw [hp]; rfl)
  have hbusy : ∀ k' j, (s.pc p).holding = some (k', j) → Busy (s.inode j) (s.onDisk j) (s.pc p) :=
    fun k' j => h.copies.busy p k' j
  rw [hp] at hbusy
  cases stage with
  | trunc =>
    exact h.frees hp rfl nofun nofun ⟨rfl, rfl, rfl, rfl, rfl, fun _ _ _ => rfl⟩ rfl rfl rfl
      (hbusy k i rfl)
  | truncUpdate =>
    exact h.frees hp rfl nofun nofun ⟨(update_eq_self i s.inode).symm, rfl, rfl, rfl,
      setDisk_self s _ _ _, fun _ _ => setDisk_of_ne s _⟩ rfl rfl rfl (hbusy k i rfl).1
  | type =>
    exact h.frees hp rfl nofun nofun ⟨rfl, rfl, rfl, rfl, rfl, fun _ _ _ => rfl⟩ rfl rfl rfl
      (hbusy k i rfl)
  | update =>
    exact h.frees hp rfl nofun nofun ⟨(update_eq_self i s.inode).symm, rfl, rfl, rfl,
      setDisk_self s _ _ _, fun _ _ => setDisk_of_ne s _⟩ rfl rfl rfl trivial
  | valid =>
    exact h.frees hp rfl nofun nofun ⟨rfl, rfl, rfl, rfl, rfl, fun _ _ _ => rfl⟩ rfl rfl rfl rfl
  | unlock =>
    have hinvalid : (s.inode i).valid = false := hbusy k i rfl
    refine h.unlocks (h.tokens.holding p k i (by rw [hp]; rfl))
      ⟨rfl, rfl, rfl, rfl, rfl, fun _ _ _ => rfl⟩ rfl rfl rfl ?_ rfl ?_ ?_ rfl
    · rw [hp]
      exact ⟨rfl, rfl, rfl, rfl⟩
    · rw [hp]
      rintro k' j hj
      cases hj
      rfl
    · intro hv
      rw [show _ = (s.inode i).valid from rfl, hinvalid] at hv
      cases hv
  | ref =>
    refine dropRef_inv h hptr (by rw [hp]; rfl) ?_ ?_
    · intro q hqp hq
      exact hqp (h.tokens.alone p q k (by rw [hp]; rfl) hq).symm
    · intro j q hj
      have hh := h.tokens.quiet p q k j (by rw [hp]; rfl) hj
      rw [hp] at hh
      cases hh

/-! ## `iget` and `idup` -/

/-- An entry in use gets one more pointer. -/
theorem Inv.refer (h : Inv s) (hk : s.ptr k = none) (hp : (s.pc p).holding = none)
    (hunused : ∀ q ≠ p, (s.pc q).token ≠ some k) (hpos : 0 < (s.inode i).ref)
    (hpc : t.pc = update s.pc p .idle)
    (hinode : t.inode = update s.inode i { s.inode i with ref := (s.inode i).ref + 1 })
    (hdisk : t.disk = s.disk) (hptr : t.ptr = update s.ptr k (some i))
    (hpanic : t.panic = s.panic) : Inv t :=
  ⟨h.tokens.set_ptr hinode rfl hpc hunused hk rfl hptr,
    h.copies.recount h.tokens hinode rfl rfl rfl ⟨rfl, rfl, rfl, rfl⟩ (fun _ => hpos) hdisk hpc hp rfl,
    hpanic ▸ h.panic⟩

/-- `iget` by a process whose call ends with it. -/
theorem iget_inv (dev inum : Nat) (h : Inv s) (hk : s.ptr k = none) (hp : (s.pc p).holding = none)
    (hunused : ∀ q ≠ p, (s.pc q).token ≠ some k) :
    Inv ((iget s k dev inum).goto p .idle) := by
  unfold iget
  split
  case h_1 i hi =>
    have hfound := List.find?_some hi
    simp only [decide_eq_true_eq] at hfound
    exact h.refer hk hp hunused hfound.1 rfl rfl rfl rfl rfl
  case h_2 hnone =>
    split
    case h_1 =>
      refine ⟨h.tokens.goes (fun _ => rfl) rfl rfl (h.tokens.same_locks fun _ => rfl) .idle, ?_,
        ⟨nofun, nofun, nofun⟩⟩
      exact h.copies.alloc h.tokens rfl (fun _ _ _ => rfl) rfl hp rfl
    case h_2 i hi =>
      have hempty := List.find?_some hi
      simp only [decide_eq_true_eq] at hempty
      refine ⟨h.tokens.set_ptr rfl rfl rfl hunused hk (by rw [hempty]) rfl, ?_, h.panic⟩
      refine h.copies.recycle h.tokens rfl hempty rfl rfl rfl ?_ rfl hp rfl
      intro j hj heq
      have hno := List.find?_eq_none.mp hnone j (List.mem_finRange j)
      simp only [decide_eq_true_eq] at hno
      exact hno ⟨hj, heq⟩

theorem runPc_inv (h : Inv s) (hs : runPc ninodes s p (s.pc p) = some t) :
    Inv t := by
  generalize hp : s.pc p = pc at hs
  cases pc with
  | idle =>
    cases hs
  | lock stage k i =>
    exact lockStep_inv h hp hs
  | put stage k i =>
    cases hs
    exact putStep_inv h hp
  | allocScan k dev type inum =>
    cases hs
    exact allocVisit_inv h hp
  | allocGet k dev inum =>
    cases hs
    refine iget_inv _ _ h (h.tokens.fresh p k (by rw [hp]; rfl)) (by rw [hp]; rfl) ?_
    intro q hqp hq
    exact hqp (h.tokens.alone p q k (by rw [hp]; rfl) hq).symm

/-! ## Runs -/

variable [Fintype P]

theorem step_inv {l : Lbl n P K} (h : Inv s) (hs : step ninodes s l = some t) :
    Inv t := by
  unfold step at hs
  split at hs
  case isTrue => cases hs
  cases l with
  | iget p k dev inum =>
    have hpcs : (iget s k dev inum).pc = s.pc := by
      unfold iget
      split
      · rfl
      · split <;> rfl
    rcases of_ite_eq_some hs with ⟨⟨hp, hk, hunused⟩, rfl⟩
    have hinv := iget_inv (p := p) dev inum h hk (by rw [hp]; rfl)
      fun q _ => hunused.1 q
    unfold St.goto at hinv
    rwa [← hp, ← hpcs, update_eq_self] at hinv
  | idup p k k' =>
    dsimp only at hs
    split at hs
    · cases hs
    next i hi =>
    rcases of_ite_eq_some hs with ⟨⟨hp, -, hk, hunused⟩, rfl⟩
    exact h.refer (p := p) hk (by rw [hp]; rfl) (fun q _ => hunused.1 q) (h.tokens.ref_pos hi)
      (by rw [← hp]; exact (update_eq_self p s.pc).symm) rfl rfl rfl rfl
  | ilock p k =>
    dsimp only at hs
    split at hs
    · cases hs
    next i hi =>
    rcases of_ite_eq_some hs with ⟨⟨hp, hkept⟩, rfl⟩
    -- a pointer is a reference, so there is no panic
    have hpos := h.tokens.ref_pos hi
    rw [if_neg (by omega)]
    exact ilock_inv h hp hi hkept
  | change p i d =>
    rcases of_ite_eq_some hs with ⟨hp, rfl⟩
    rcases h.holds hp with ⟨k, hlock, hheld⟩
    exact h.works hlock ⟨rfl, rfl, rfl, rfl, rfl, fun _ _ _ => rfl⟩ rfl rfl
      (hp.1 ▸ (update_eq_self p s.pc).symm) (by rw [hp.1]; nofun)
      (.inl ⟨rfl, hheld.valid, hheld.gen, nofun, hheld.type, hheld.disk⟩) h.panic
  | iupdate p i =>
    rcases of_ite_eq_some hs with ⟨hp, rfl⟩
    rcases h.holds hp with ⟨k, hlock, hheld⟩
    exact h.works hlock
      ⟨rfl, rfl, rfl, rfl, setDisk_self _ _ _ _, fun _ _ => setDisk_of_ne _ _⟩ rfl rfl
      (hp.1 ▸ (update_eq_self p s.pc).symm) (by rw [hp.1]; nofun)
      (.inl ⟨rfl, hheld.valid, hheld.gen, fun _ => rfl, hheld.type, hheld.type⟩) h.panic
  | iunlock p k =>
    dsimp only at hs
    split at hs
    · cases hs
    next i hi =>
    rcases of_ite_eq_some hs with ⟨⟨hp, hlock, hclean⟩, rfl⟩
    have hpos := h.tokens.ref_pos hi
    rw [if_neg (by omega)]
    have hheld := h.copies.held i p k hlock (by rw [hp]; nofun)
    refine h.unlocks hlock ⟨rfl, rfl, rfl, rfl, rfl, fun _ _ _ => rfl⟩ rfl rfl
      (update_eq_self p s.pc).symm ⟨rfl, rfl, rfl, rfl⟩ ?_ ?_ ?_ rfl
    · rw [hp]
      rfl
    · rw [hp]
      nofun
    · exact fun _ => ⟨hheld.clean hclean, hheld.gen, hheld.type⟩
  | iput p k =>
    dsimp only at hs
    split at hs
    · cases hs
    next i hi =>
    rcases of_ite_eq_some hs with ⟨⟨hp, hunused⟩, rfl⟩
    exact iput_inv h hp hi hunused
  | ialloc p k dev type =>
    rcases of_ite_eq_some hs with ⟨⟨hp, hk, hunused, -⟩, rfl⟩
    exact ialloc_inv h hp hk hunused
  | run p => exact runPc_inv h hs

theorem reachable_inv (h : (sys n P K ninodes).Reachable s) : Inv s :=
  h.invariant Inv (fun _ => init_inv) fun _ _ _ hinv hs => step_inv hinv hs

/-- Counts are exact, and locks are held through pointers. -/
theorem ref_exact (h : (sys n P K ninodes).Reachable s) (i : Fin n) :
    (s.inode i).ref = uses s.ptr i ∧
    ∀ p k, (s.inode i).lock = some (p, k) → s.ptr k = some i :=
  ⟨(reachable_inv h).tokens.count i, (reachable_inv h).tokens.lock i⟩

/-- In every reachable state an inode has at most one entry in use, and an unlocked valid copy is
the inode on disk. A process that has come through `ilock` finds a copy of the present allocation
of the number, which differs from the disk only by changes that are not copied back yet. Nobody
sleeps with `itable.lock` held, and no lock is taken or put down without a reference. -/
theorem inode_table_coherent {ninodes : Nat} (h : (sys n P K ninodes).Reachable s) :
    (∀ i j, 0 < (s.inode i).ref → 0 < (s.inode j).ref → (s.inode i).dev = (s.inode j).dev →
      (s.inode i).inum = (s.inode j).inum → i = j) ∧
    (∀ i, 0 < (s.inode i).ref → (s.inode i).lock = none → (s.inode i).valid = true →
      (s.inode i).d = (s.onDisk i).d) ∧
    (∀ p i, s.Holds p i → (s.inode i).valid = true ∧ (s.inode i).gen = (s.onDisk i).gen ∧
      ((s.inode i).dirty = false → (s.inode i).d = (s.onDisk i).d)) ∧
    s.panic ≠ some .schedLocks ∧ s.panic ≠ some .ilock ∧ s.panic ≠ some .iunlock := by
  have hi := reachable_inv h
  refine ⟨hi.copies.unique, ?_, ?_, hi.panic⟩
  · intro i hpos hlock hvalid
    exact (hi.copies.free i hpos hlock hvalid).d
  · intro p i hp
    rcases hi.holds hp with ⟨k, -, hheld⟩
    exact ⟨hheld.valid, hheld.gen, hheld.clean⟩

end

end

/-- One entry, no pointers, and a disk of free inodes. -/
def boot : St 1 Bool Bool where
  inode _ := ⟨0, 0, 0, none, false, .zero, 0, false⟩
  disk _ _ := ⟨.zero, 0⟩
  ptr _ := none
  pc _ := .idle
  panic := none

/-- Process `false` frees the inode it has allocated and written to; while it is between
`ip->type = 0` on disk and `ip->valid = 0`, process `true` allocates the number for a directory
and waits for the lock of the same entry. -/
def reuseRun : List (Lbl 1 Bool Bool) :=
  List.flatten [
    [.ialloc false false 1 .file, .run false, .run false, .ilock false false],
    List.replicate 3 (.run false),
    [.change false 0 { Dinode.zero with size := 7 }, .iupdate false 0, .iunlock false false,
      .iput false false],
    List.replicate 4 (.run false),
    [.ialloc true true 1 .dir, .run true, .run true, .ilock true true, .run false, .run false],
    [.run true, .run false, .run true, .run true]]

theorem boot_init : Init boot := ⟨fun _ => ⟨rfl, rfl⟩, fun _ => rfl, fun _ => rfl, rfl⟩

theorem inode_table_coherent_reuseRun :
    ∃ s, (sys 1 Bool Bool 2).Reachable s ∧ s.Holds true 0 ∧ (s.onDisk 0).gen = 2 ∧
      (s.onDisk 0).d.type = .dir ∧ (s.onDisk 0).d.size = 0 ∧ (s.inode 0).d = (s.onDisk 0).d := by
  obtain ⟨s, hreach, hholds, hgen, htype, hsize, hclean⟩ : ∃ s, (sys 1 Bool Bool 2).Reachable s ∧
      s.Holds true 0 ∧ (s.onDisk 0).gen = 2 ∧ (s.onDisk 0).d.type = .dir ∧
      (s.onDisk 0).d.size = 0 ∧ (s.inode 0).dirty = false :=
    System.reaches boot_init reuseRun (by decide +kernel)
  exact ⟨s, hreach, hholds, hgen, htype, hsize,
    ((inode_table_coherent hreach).2.2.1 true 0 hholds).2.2 hclean⟩

theorem ref_exact_ialloc : ∃ s, (sys 1 Bool Bool 2).Reachable s ∧ uses s.ptr 0 = 1 := by
  have hexec : (sys 1 _ _ 2).exec boot (reuseRun.take 3) = some _ := rfl
  have hreach := (System.Reachable.init boot_init).exec hexec
  exact ⟨_, hreach, (ref_exact hreach 0).1.symm⟩

end Xv6.Itable
