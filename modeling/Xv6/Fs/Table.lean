import Xv6.Fs.Trunc

/-!
# Xv6.Fs.Table — the inode table keeps the invariant

References and locks. A table entry may hold a copy of an inode that differs from the disk
only while it is locked, so the copy that is unlocked must have been written back; and an
inode that is given up with its last reference is freed with all its blocks.
-/

namespace Xv6.Fs

open Lib Function List

section
variable {sb : Super} {v : Nat → Dinode} {s : St} {E : Stop → Prop} {i : Nat}

/-- A new table entry that tells no more than is to be seen of inode `i`. -/
theorem InvOn.setEntry {x : Inode} (h : Inv sb v s) (hcopy : x.Live → x.d = v i ∧ (v i).type ≠ .none)
    (hdisk : ¬ (x.Live ∧ x.locked = true) → s.dinode i = v i) (hpin : x.locked = true → 0 < x.ref) :
    Inv sb v { s with inode := update s.inode i x } := by
  have hi : Agree sb i (v i) x (s.dinode i) := ⟨hcopy, hdisk, h.dtype i, hpin, h.range i⟩
  have hall := h.agree_update hi
  rw [update_eq_self, update_eq_self] at hall
  exact .of_agree hall h.reserved h.own h.whole

/-- Without references there is no copy. -/
theorem not_live_of_ref {ip : Inode} (h : ip.ref = 0) : ¬ ip.Live := by
  intro hlive
  have hpos := hlive.1
  omega

/-- What is free on disk is not in memory either. -/
theorem InvOn.not_live (h : Inv sb v s) (hfree : (v i).type = .none) : ¬ (s.inode i).Live :=
  fun hlive => (h.copy i hlive).2 hfree

/-! ## References -/

theorem iget_spec (hroom : 0 < (s.inode i).ref ∨ s.used sb < NINODE ∨ E .noInodes)
    (h : Inv sb v s) :
    wp E (iget sb i) (fun _ t => Inv sb v t ∧ ∃ ip,
      t = { s with inode := update s.inode i ip } ∧
      ip.ref = (s.inode i).ref + 1 ∧ ip.locked = (s.inode i).locked ∧
      (0 < (s.inode i).ref → ip = { s.inode i with ref := (s.inode i).ref + 1 })) s := by
  rw [iget, wp_bind, wp_get]
  refine wp_if (fun hpos => ?_) fun hzero => ?_
  · rw [wp_setInode]
    refine ⟨h.setEntry (fun hl => h.copy i ⟨hpos, hl.2⟩) (fun hn => h.disk i fun hc => ?_)
      fun _ => Nat.succ_pos _, _, rfl, rfl, rfl, fun _ => rfl⟩
    exact hn ⟨⟨Nat.succ_pos _, hc.1.2⟩, hc.2⟩
  have href : (s.inode i).ref = 0 := by omega
  rw [wp_ite]
  have hroom' := (hroom.resolve_left hzero).resolve_left
  refine ⟨fun hfull => (wp_throw _).mpr (hroom' (Nat.not_lt_of_le hfull)), fun _ => ?_⟩
  rw [wp_setInode]
  refine ⟨h.setEntry (fun hl => ?_) (fun _ => h.disk i fun hc => ?_) fun _ => Nat.one_pos,
    _, rfl, ?_, rfl, fun hpos => absurd hpos hzero⟩
  · cases hl.2
  · exact not_live_of_ref href hc.1
  · rw [href]

/-! ## Locks -/

/-- `ilock` shows the inode as it is. -/
theorem ilock_spec (h : Inv sb v s) (href : 0 < (s.inode i).ref ∨ E .ilock)
    (hlock : (s.inode i).locked = false ∨ E .asleep) (htype : (v i).type ≠ .none ∨ E .noType) :
    wp E (ilock i) (fun _ t => Inv sb v t ∧ Locked v t i ∧ (s.inode i).locked = false ∧
      t = { s with inode := update s.inode i ⟨(s.inode i).ref, true, true, v i⟩ }) s := by
  rw [ilock, wp_bind, wp_get]
  refine wp_if (fun hz => (wp_throw _).mpr (href.resolve_left (by omega))) fun hpos => ?_
  refine wp_if (fun hl => (wp_throw _).mpr (hlock.resolve_left (by rw [hl]; decide))) fun hl => ?_
  have href' : 0 < (s.inode i).ref := by omega
  have hfree : (s.inode i).locked = false := Bool.of_not_eq_true hl
  have hdisk : s.dinode i = v i := h.disk i fun hc => hl hc.2
  have hset : (v i).type ≠ .none → Inv sb v
      { s with inode := update s.inode i ⟨(s.inode i).ref, true, true, v i⟩ } := fun ht =>
    h.setEntry (fun _ => ⟨rfl, ht⟩) (fun _ => hdisk) fun _ => href'
  have hlocked : Locked v
      { s with inode := update s.inode i ⟨(s.inode i).ref, true, true, v i⟩ } i := by
    refine ⟨?_, ?_, hdisk⟩
    · simp only [update_self]
      exact ⟨href', rfl⟩
    · simp only [update_self]
  refine wp_if (fun hv => ?_) fun _ => ?_
  · -- a valid copy is the inode
    rcases h.copy i ⟨href', hv⟩ with ⟨hd, ht⟩
    rw [wp_setInode, hd, hv]
    exact ⟨hset ht, hlocked, hfree, rfl⟩
  · rw [wp_bind, wp_setInode, hdisk]
    refine wp_if (fun ht => (wp_throw _).mpr (htype.resolve_left fun hn => hn ht)) fun ht => ?_
    exact wp_ret ⟨hset ht, hlocked, hfree, rfl⟩

theorem iunlock_spec (h : Inv sb v s) (hl : Locked v s i) :
    wp E (iunlock i) (fun _ t => Inv sb v t ∧
      t = { s with inode := update s.inode i { s.inode i with locked := false } }) s := by
  have hpos := hl.live.1
  rw [iunlock, wp_bind, wp_get, if_neg, wp_setInode]
  · exact ⟨h.setEntry (fun hlive => h.copy i hlive) (fun _ => hl.disk) (by rintro ⟨⟩), rfl⟩
  · rw [hl.locked]
    rintro (⟨⟨⟩⟩ | hz)
    omega

/-! ## Allocation -/

/-- A free inode on disk becomes one without contents. -/
theorem InvOn.setNew {d : Dinode} (h : Inv sb v s) (hfree : (v i).type = .none) (h1 : 0 < i)
    (hn : i < sb.ninodes) (hslots : ∀ k ≤ NDIRECT, d.addrs k = 0) (hsize : d.size = 0) :
    Inv sb (update v i d) { s with dinode := update s.dinode i d } := by
  have hi : Agree sb i d (s.inode i) d :=
    ⟨fun hl => absurd hl (h.not_live hfree), fun _ => rfl, rfl, h.pin i, fun _ => ⟨h1, hn⟩⟩
  have hall := h.agree_update hi
  rw [update_eq_self] at hall
  refine .of_agree hall h.reserved (h.own.congr fun x b => ?_) (h.whole_update fun _ bn hbn => ?_)
  · -- neither the free inode nor the new one has a block
    unfold Holds
    by_cases hxi : x.1 = i
    · rw [hxi, update_self, slot_empty hslots, hfree]
      constructor
      · rintro ⟨-, hb, hb0⟩
        exact absurd hb.symm hb0
      · rintro ⟨ht, -⟩
        exact absurd rfl ht
    · rw [update_of_ne hxi]
  · rw [hsize] at hbn
    exact absurd hbn (Nat.not_lt_zero _)

/-- `ialloc` has taken the free inode `i`. -/
structure NewInode (sb : Super) (type : FType) (v : Nat → Dinode) (s : St) (i : Nat) (t : St) :
    Prop where
  free : (v i).type = .none
  range : 0 < i ∧ i < sb.ninodes
  inv : Inv sb (update v i { Dinode.zero with type }) t
  block : t.block = s.block
  inode : ∀ j, j ≠ i → t.inode j = s.inode j
  dinode : ∀ j, j ≠ i → t.dinode j = s.dinode j
  ref : (t.inode i).ref = (s.inode i).ref + 1
  locked : (t.inode i).locked = (s.inode i).locked

theorem ialloc_spec {type : FType} (hE : E .noInodes) (h : Inv sb v s) :
    wp E (ialloc sb type) (fun x t =>
      (x = none ∧ t = s ∧ ∀ i, 0 < i → i < sb.ninodes → (v i).type ≠ .none) ∨
      ∃ i, x = some i ∧ NewInode sb type v s i t) s := by
  rw [ialloc, wp_bind, wp_get]
  cases hfind : (List.range sb.ninodes).find? fun i => 1 ≤ i ∧ (s.dinode i).type = .none with
  | none =>
    refine wp_ret (.inl ⟨rfl, rfl, fun i hpos hlt hfree => ?_⟩)
    have hno := find?_eq_none.mp hfind i (mem_range.mpr hlt)
    rw [← h.dtype] at hfree
    exact hno (decide_eq_true ⟨hpos, hfree⟩)
  | some j =>
    have hj : 1 ≤ j ∧ (s.dinode j).type = .none := by simpa using find?_some hfind
    have hlt : j < sb.ninodes := mem_range.mp (mem_of_find?_eq_some hfind)
    have hfree : (v j).type = .none := by rw [← h.dtype, hj.2]
    rw [wp_bind, wp_modify]
    refine wp_call (iget_spec (.inr (.inr hE)) (h.setNew hfree hj.1 hlt (fun _ _ => rfl) rfl))
      fun _ t ht => ?_
    obtain ⟨hinv, ip, rfl, href, hlocked, -⟩ := ht
    refine wp_ret (.inr ⟨j, rfl, hfree, ⟨hj.1, hlt⟩, hinv, rfl, fun k hk => ?_,
      fun k hk => ?_, ?_, ?_⟩)
    · simp only [update_of_ne hk]
    · simp only [update_of_ne hk]
    · simp only [update_self, href]
    · simp only [update_self, hlocked]

/-! ## The last reference -/

/-- The inode `i` is gone, with its blocks. -/
theorem InvOn.freed {bitmap : Nat → Bool} {ip : Inode} {d : Dinode} (h : Inv sb v s)
    (hown : Owned sb.Data bitmap fun x b => Holds v s.block x b ∧ x.1 ≠ i)
    (hrest : ∀ b, ¬ sb.Data b → bitmap b = s.bitmap b) (hd : d.type = .none)
    (hvalid : ip.valid = false) (hlock : ip.locked = false) :
    Inv sb (update v i d)
      { s with bitmap, inode := update s.inode i ip,
               dinode := update s.dinode i d } := by
  have hi : Agree sb i d ip d := by
    refine ⟨fun hl => ?_, fun _ => rfl, rfl, fun hl => ?_, fun hne => absurd hd hne⟩
    · rw [hl.2] at hvalid
      cases hvalid
    · rw [hl] at hlock
      cases hlock
  refine .of_agree (h.agree_update hi) (fun b hb => ?_) (hown.congr fun x b => ?_)
    (h.whole_update fun hne => absurd hd hne)
  · have hout : ¬ sb.Data b := fun hD => by
      have hge := hD.1
      omega
    exact (hrest b hout).trans (h.reserved b hb)
  · unfold Holds
    by_cases hxi : x.1 = i
    · rw [hxi, update_self]
      exact ⟨fun hx => absurd hd hx.1, fun hx => absurd rfl hx.2⟩
    · rw [update_of_ne hxi]
      exact ⟨fun hx => ⟨hx, hxi⟩, And.left⟩

/-- The inode goes with its last reference. -/
def Inode.Doomed (ip : Inode) : Prop := ip.ref = 1 ∧ ip.valid = true ∧ ip.d.nlink = 0

/-- `iput` has freed the inode `i`. -/
structure Freed (sb : Super) (v : Nat → Dinode) (s : St) (i : Nat) (w : Nat → Dinode) (t : St) :
    Prop where
  doomed : (s.inode i).Doomed
  inv : Inv sb w t
  block : t.block = s.block
  entry : (t.inode i).ref = 0 ∧ (t.inode i).locked = false
  gone : (w i).type = .none
  inode : ∀ j, j ≠ i → t.inode j = s.inode j
  dinode : ∀ j, j ≠ i → t.dinode j = s.dinode j
  other : ∀ j, j ≠ i → w j = v j

/-- `iput` gives up a reference, and with the last one an inode that has no links. -/
theorem iput_spec (h : Inv sb v s) (href : 0 < (s.inode i).ref)
    (hlast : (s.inode i).ref = 1 → (s.inode i).locked = false) :
    wp E (iput i) (fun _ t =>
      (¬ (s.inode i).Doomed ∧ Inv sb v t ∧
        t = { s with inode := update s.inode i
                      { s.inode i with ref := (s.inode i).ref - 1 } }) ∨
      ∃ w, Freed sb v s i w t) s := by
  rw [iput, wp_bind, iputBegin, wp_bind, wp_get]
  refine wp_if (fun hc => ?_) fun hc => ?_
  · obtain ⟨hone, hvalid, hlink⟩ := hc
    obtain ⟨hd, ht⟩ := h.copy i ⟨href, hvalid⟩
    have hlock := hlast hone
    rw [if_neg (by rw [hlock]; decide), wp_bind, wp_setInode, wp_pure, if_pos rfl, wp_bind]
    refine wp_mono (ifree_spec (v := v) h.own (by simp only [update_self]; exact hd) ht)
      fun _ t htr => ?_
    obtain ⟨bitmap, rfl, hown, hrest⟩ := htr
    rw [dropRef, wp_setInode]
    simp only [update_self, update_idem]
    refine .inr ⟨_, ⟨hone, hvalid, hlink⟩, h.freed hown hrest rfl rfl rfl, rfl, ?_, ?_,
      fun j hj => ?_, fun j hj => ?_, fun j hj => ?_⟩
    · simp only [update_self, hone]
      exact ⟨trivial, trivial⟩
    · rw [update_self]
    · simp only [update_of_ne hj]
    · simp only [update_of_ne hj]
    · rw [update_of_ne hj]
  · rw [wp_bind, dropRef, wp_setInode, wp_pure, if_neg (by decide), wp_pure]
    refine .inl ⟨hc, h.setEntry (fun hl => ?_) (fun hn => ?_) fun hl => ?_, rfl⟩
    · exact h.copy i ⟨href, hl.2⟩
    · refine h.disk i fun hc => hn ⟨⟨?_, hc.1.2⟩, hc.2⟩
      have hne : (s.inode i).ref ≠ 1 := fun hone => by
        rw [hlast hone] at hc
        cases hc.2
      show 0 < (s.inode i).ref - 1
      omega
    · have hne : (s.inode i).ref ≠ 1 := fun hone => by
        rw [hlast hone] at hl
        cases hl
      show 0 < (s.inode i).ref - 1
      omega

end

end Xv6.Fs
