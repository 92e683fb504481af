import Mathlib.Data.Multiset.AddSub
import Mathlib.Data.Multiset.Basic
import Xv6.Fs.Dir

/-!
# Xv6.Fs.Context — the inode table during a call

A call that works on the file system holds some references and some locks. `Ctx E sb B r H L v s`
says so: the call holds the references `H` and the locks `L`, `r` counts all other references,
and `B` are the inodes that others have locked. What is to be seen of the inodes is `v`. An inode
without links is kept by a reference of `r`, so the call never frees an inode by dropping a
reference of `H`; it does so only with a reference of `r`. `E` are the ways in which the call may
stop.
-/

namespace Xv6.Fs

open Lib Function Multiset

structure Ctx (E : Stop → Prop) (sb : Super) (B : Nat → Prop) (r : Nat → Nat) (H : Multiset Nat)
    (L : List Nat) (v : Nat → Dinode) (s : St) : Prop where
  inv : Inv sb v s
  ref : ∀ i, (s.inode i).ref = r i + H.count i
  mine : ∀ i ∈ L, Locked v s i
  busy : ∀ i, (s.inode i).locked = true → i ∈ L ∨ B i
  others : ∀ i, B i → E .asleep ∧ 0 < r i
  held : ∀ i, 0 < r i → (v i).type ≠ .none
  orphan : ∀ i, (v i).type ≠ .none → (v i).nlink = 0 → 0 < r i ∧ (s.inode i).valid = true
  dirs : ∀ i, (v i).type = .dir → Aligned ((v i).bytes s.block)

/-- The inodes that are in the table for `r`. -/
def usedBy (sb : Super) (r : Nat → Nat) : Nat := (List.range sb.ninodes).countP fun i => 0 < r i

section
variable {E : Stop → Prop} {sb : Super} {B : Nat → Prop} {r : Nat → Nat} {H : Multiset Nat}
  {L : List Nat} {v w : Nat → Dinode} {s t : St} {i j dp : Nat} {name : Name}

section
variable (h : Ctx E sb B r H L v s)
include h

theorem Ctx.used_le : s.used sb ≤ usedBy sb r + H.card := by
  rw [St.used, usedBy, List.countP_eq_length_filter, List.countP_eq_length_filter,
    ← length_toList, ← List.length_append]
  refine (List.subperm_of_subset (List.nodup_range.filter _) fun i hi => ?_).length_le
  simp only [List.mem_filter, decide_eq_true_eq, List.mem_append, mem_toList] at hi ⊢
  rw [h.ref] at hi
  by_cases hmem : i ∈ H
  · exact .inr hmem
  · rw [count_eq_zero_of_notMem hmem] at hi
    exact .inl hi

/-- Only the entry `i` of the table has changed. -/
theorem Ctx.setEntry {H' : Multiset Nat} {L' : List Nat} (hinv : Inv sb v t)
    (hblock : t.block = s.block) (hdinode : t.dinode = s.dinode)
    (hother : ∀ j ≠ i, t.inode j = s.inode j) (href : (t.inode i).ref = r i + H'.count i)
    (hcount : ∀ j ≠ i, H'.count j = H.count j)
    (hlock : (t.inode i).locked = true ↔ i ∈ L' ∨ (s.inode i).locked = true ∧ i ∉ L)
    (hlocks : ∀ j ≠ i, (j ∈ L' ↔ j ∈ L)) (hmine : i ∈ L' → Locked v t i)
    (hvalid : 0 < r i → (s.inode i).valid = true → (t.inode i).valid = true) :
    Ctx E sb B r H' L' v t := by
  refine ⟨hinv, fun j => ?_, fun j hj => ?_, fun j hj => ?_, h.others, h.held, fun j ht hn => ?_,
    fun j hj => ?_⟩
  · by_cases hji : j = i
    · rw [hji, href]
    · rw [hother j hji, hcount j hji, h.ref]
  · by_cases hji : j = i
    · rw [hji] at hj ⊢
      exact hmine hj
    have hl := h.mine j ((hlocks j hji).mp hj)
    refine ⟨?_, ?_, ?_⟩
    · rw [hother j hji]
      exact hl.live
    · rw [hother j hji]
      exact hl.locked
    · rw [hdinode]
      exact hl.disk
  · by_cases hji : j = i
    · rw [hji] at hj ⊢
      obtain hin | ⟨hl, hout⟩ := hlock.mp hj
      · exact .inl hin
      · exact .inr ((h.busy i hl).resolve_left hout)
    · rw [hother j hji] at hj
      rw [hlocks j hji]
      exact h.busy j hj
  · obtain ⟨hpos, hval⟩ := h.orphan j ht hn
    by_cases hji : j = i
    · rw [hji] at hpos hval ⊢
      exact ⟨hpos, hvalid hpos hval⟩
    · rw [hother j hji]
      exact ⟨hpos, hval⟩
  · rw [hblock]
    exact h.dirs j hj

/-! ## References -/

theorem iget_ctx (hroom : 0 < r i + H.count i ∨ usedBy sb r + H.card < NINODE ∨ E .noInodes) :
    wp E (iget sb i) (fun _ t => Ctx E sb B r (i ::ₘ H) L v t ∧ t.block = s.block) s := by
  have hroom' : 0 < (s.inode i).ref ∨ s.used sb < NINODE ∨ E .noInodes := by
    rw [h.ref]
    exact hroom.imp_right fun hr => hr.imp_left fun hlt => lt_of_le_of_lt h.used_le hlt
  refine wp_mono (iget_spec hroom' h.inv) fun _ t ht => ?_
  obtain ⟨hinv, ip, rfl, href, hlocked, hsame⟩ := ht
  have hself : update s.inode i ip i = ip := update_self i ip s.inode
  refine ⟨h.setEntry (i := i) hinv rfl rfl (fun j hj => update_of_ne hj _ _) ?_
    (fun j hj => count_cons_of_ne hj H) ?_ (fun _ _ => Iff.rfl) (fun hi => ?_)
    fun hpos hval => ?_, rfl⟩
  · simp only [hself, count_cons_self, href, h.ref, Nat.add_assoc]
  · simp only [hself, hlocked]
    refine ⟨fun hl => ?_, fun hl => ?_⟩
    · by_cases hi : i ∈ L
      · exact .inl hi
      · exact .inr ⟨hl, hi⟩
    · obtain hi | hl := hl
      · exact (h.mine i hi).locked
      · exact hl.1
  · have hl := h.mine i hi
    refine ⟨?_, ?_, hl.disk⟩
    · simp only [hself]
      rw [hsame hl.live.1]
      exact ⟨Nat.succ_pos _, hl.live.2⟩
    · simp only [hself, hlocked]
      exact hl.locked
  · have hpos' : 0 < (s.inode i).ref := by
      rw [h.ref]
      omega
    simp only [hself]
    rw [hsame hpos']
    exact hval

theorem idup_ctx (hpos : 0 < r i + H.count i) :
    wp E (idup i) (fun _ t => Ctx E sb B r (i ::ₘ H) L v t ∧ t.block = s.block) s := by
  have hget := iget_ctx h (.inl hpos)
  rw [← h.ref] at hpos
  rwa [iget, wp_bind, wp_get, if_pos hpos] at hget

/-- The references of `H` keep no inode that has no links. -/
theorem Ctx.not_doomed (hi : i ∈ H) : ¬ (s.inode i).Doomed := by
  rintro ⟨hone, hvalid, hlink⟩
  have hcount : 0 < H.count i := count_pos.mpr hi
  rw [h.ref] at hone
  have hlive : (s.inode i).Live := ⟨by rw [h.ref]; omega, hvalid⟩
  obtain ⟨hd, ht⟩ := h.inv.copy i hlive
  rw [hd] at hlink
  have hpos := (h.orphan i ht hlink).1
  omega

/-- A reference of `H` is dropped. -/
theorem iput_ctx (hi : i ∈ H) (hL : i ∉ L) :
    wp E (iput i) (fun _ t => Ctx E sb B r (H.erase i) L v t ∧ t.block = s.block) s := by
  have hcount : 0 < H.count i := count_pos.mpr hi
  have hfree : (s.inode i).ref = 1 → (s.inode i).locked = false := by
    intro hone
    by_contra hl
    have hpos := (h.others i ((h.busy i (Bool.of_not_eq_false hl)).resolve_left hL)).2
    rw [h.ref] at hone
    omega
  refine wp_mono (iput_spec h.inv (by rw [h.ref]; omega) hfree) fun _ t ht => ?_
  obtain ⟨-, hinv, rfl⟩ | ⟨w, hw⟩ := ht
  · refine ⟨h.setEntry (i := i) hinv rfl rfl (fun j hj => update_of_ne hj _ _) ?_
      (fun j hj => count_erase_of_ne hj H) ?_ (fun _ _ => Iff.rfl)
      (fun hin => absurd hin hL) fun _ hval => ?_, rfl⟩
    · simp only [update_self, count_erase_self, h.ref]
      omega
    · simp only [update_self]
      exact ⟨fun hl => .inr ⟨hl, hL⟩, fun hl => hl.elim (fun hin => absurd hin hL) And.left⟩
    · simp only [update_self]
      exact hval
  · exact absurd hw.doomed (h.not_doomed hi)

/-! ## Locks -/

theorem ilock_ctx (hpos : 0 < r i + H.count i) (hL : i ∉ L)
    (htype : (v i).type ≠ .none ∨ E .noType) :
    wp E (ilock i) (fun _ t => Ctx E sb B r H (i :: L) v t ∧ t.block = s.block ∧
      (v i).type ≠ .none) s := by
  have hunlocked : (s.inode i).locked = false ∨ E .asleep := by
    by_contra hno
    rw [not_or] at hno
    exact hno.2 (h.others i ((h.busy i (Bool.of_not_eq_false hno.1)).resolve_left hL)).1
  refine wp_mono (ilock_spec h.inv (.inl (by rwa [h.ref])) hunlocked htype) fun _ t ht => ?_
  obtain ⟨hinv, hlocked, -, rfl⟩ := ht
  refine ⟨h.setEntry (i := i) hinv rfl rfl (fun j hj => update_of_ne hj _ _) ?_
    (fun _ _ => rfl) ?_ (fun j hj => ?_) (fun _ => hlocked) fun _ _ => ?_, rfl,
    (hinv.copy i hlocked.live).2⟩
  · simp only [update_self, h.ref]
  · simp only [update_self, List.mem_cons, true_or]
  · simp only [List.mem_cons, hj, false_or]
  · simp only [update_self]

end

theorem iunlock_ctx (h : Ctx E sb B r H (i :: L) v s) (hL : i ∉ L) :
    wp E (iunlock i) (fun _ t => Ctx E sb B r H L v t ∧ t.block = s.block) s := by
  refine wp_mono (iunlock_spec h.inv (h.mine i List.mem_cons_self)) fun _ t ht => ?_
  obtain ⟨hinv, rfl⟩ := ht
  refine ⟨h.setEntry (i := i) hinv rfl rfl (fun j hj => update_of_ne hj _ _) ?_
    (fun _ _ => rfl) ?_ (fun j hj => ?_) (fun hin => absurd hin hL) fun _ hval => ?_, rfl⟩
  · simp only [update_self, h.ref]
  · simp only [update_self, Bool.false_eq_true, false_iff, not_or, not_and, not_not]
    exact ⟨hL, fun _ => List.mem_cons_self⟩
  · simp only [List.mem_cons, hj, false_or]
  · simp only [update_self]
    exact hval

/-- The order of the locks does not matter. -/
theorem Ctx.swap (h : Ctx E sb B r H (i :: j :: L) v s) : Ctx E sb B r H (j :: i :: L) v s := by
  have hmem : ∀ k, k ∈ j :: i :: L ↔ k ∈ i :: j :: L := by
    intro k
    simp only [List.mem_cons]
    exact or_left_comm
  exact { h with mine := fun k hk => h.mine k ((hmem k).mp hk)
                 busy := fun k hk => (h.busy k hk).imp_left (hmem k).mpr }

theorem iunlockput_ctx (h : Ctx E sb B r H (i :: L) v s) (hi : i ∈ H) (hL : i ∉ L) :
    wp E (iunlockput i) (fun _ t => Ctx E sb B r (H.erase i) L v t ∧ t.block = s.block) s := by
  rw [iunlockput]
  refine wp_call (iunlock_ctx h hL) fun _ t ht => ?_
  refine wp_mono (iput_ctx ht.1 hi hL) fun _ u hu => ?_
  exact ⟨hu.1, hu.2.trans ht.2⟩

/-! ## Directories -/

/-- The entries of a locked directory. -/
theorem Ctx.isDir (h : Ctx E sb B r H L v s) (hdp : dp ∈ L) (hdir : (v dp).type = .dir) :
    IsDir sb v s dp ((v dp).bytes s.block) :=
  ⟨h.inv, (h.mine dp hdp).live, hdir, rfl, h.dirs dp hdir⟩

/-- What `dirlookup` finds it holds. -/
theorem dirlookup_ctx (h : Ctx E sb B r H L v s) (hdp : dp ∈ L) (hdir : (v dp).type = .dir)
    (hroom : usedBy sb r + H.card < NINODE ∨ E .noInodes) :
    wp E (dirlookup sb dp name) (fun x t =>
      x = ((entries ((v dp).bytes s.block)).lookup name).map (fun y => (y.1, y.2 * DESIZE)) ∧
      Ctx E sb B r (x.elim H fun y => y.1 ::ₘ H) L v t ∧ t.block = s.block) s := by
  refine (h.isDir hdp hdir).dirlookup (fun hnone => ?_) fun inum k hk => ?_
  · rw [hnone]
    exact ⟨rfl, h, rfl⟩
  · refine wp_mono (iget_ctx h (.inr hroom)) fun _ t ht => ?_
    rw [hk]
    exact ⟨rfl, ht⟩

end

end Xv6.Fs
