import Mathlib.Data.List.GetD
import Mathlib.Tactic.MkIffOfInductiveProp
import Xv6.Fs.Inv

/-!
# Xv6.Fs.Small — disks that can be checked

The invariant speaks about all inodes and all references. On a disk without indirect blocks
and without inodes behind the last one it is a finite question, which can be decided: this is
how the disks of the examples are shown to be good ones.
-/

namespace Xv6.Fs

open Lib

/-- A superblock with its three bounds checked at once. -/
def Super.checked (size nblocks ninodes : Nat)
    (h : nblocks < size ∧ size < 2 ^ 32 ∧ ninodes ≤ 2 ^ 16) : Super :=
  ⟨size, nblocks, ninodes, h.1, h.2.1, h.2.2⟩

/-- No block is in two direct slots. -/
def Apart (i j : Nat) (d e : Dinode) : Prop :=
  ∀ k < NDIRECT, ∀ l < NDIRECT, d.addrs k ≠ 0 ∧ d.addrs k = e.addrs l → i = j ∧ k = l

instance (i j : Nat) (d e : Dinode) : Decidable (Apart i j d e) :=
  inferInstanceAs (Decidable (∀ k < NDIRECT, ∀ l < NDIRECT, _ ∧ _ → _ ∧ _))

/-- An inode without an indirect block and without holes, whose blocks are in use. -/
@[mk_iff]
structure Dinode.Direct (sb : Super) (bitmap : Nat → Bool) (d : Dinode) : Prop where
  none : d.addrs NDIRECT = 0
  size : d.size ≤ NDIRECT * BSIZE
  full : ∀ bn < NDIRECT, bn * BSIZE < d.size → d.addrs bn ≠ 0
  sound : ∀ k < NDIRECT, d.addrs k ≠ 0 →
    (sb.datastart ≤ d.addrs k ∧ d.addrs k < sb.size) ∧ bitmap (d.addrs k) = true

instance (sb : Super) (bitmap : Nat → Bool) (d : Dinode) : Decidable (d.Direct sb bitmap) :=
  decidable_of_iff _ (Dinode.direct_iff sb bitmap d).symm

/-- The part of the invariant that is about the inodes, the free map and the blocks. -/
@[mk_iff]
structure Small (sb : Super) (bitmap : Nat → Bool) (ds : Nat → Dinode) : Prop where
  zero : (ds 0).type = .none
  reserved : ∀ b < sb.datastart, bitmap b = true
  direct : ∀ i < sb.ninodes, (ds i).type ≠ .none → (ds i).Direct sb bitmap
  unique : ∀ i < sb.ninodes, ∀ j < sb.ninodes, (ds i).type ≠ .none ∧ (ds j).type ≠ .none →
    Apart i j (ds i) (ds j)
  complete : ∀ b < sb.size, sb.datastart ≤ b → bitmap b = true →
    ∃ i ∈ List.range sb.ninodes, ∃ k ∈ List.range NDIRECT, (ds i).type ≠ .none ∧ (ds i).addrs k = b

instance (sb : Super) (bitmap : Nat → Bool) (ds : Nat → Dinode) :
    Decidable (Small sb bitmap ds) :=
  decidable_of_iff _ (small_iff sb bitmap ds).symm

section
variable {sb : Super} {bitmap : Nat → Bool} {ds : Nat → Dinode} {s : St} {i k : Nat}

/-- The references that are not empty are direct. -/
theorem Dinode.Direct.slot {d : Dinode} (h : d.Direct sb bitmap) (blk : Nat → Block) :
    slot d blk k = if k < NDIRECT then d.addrs k else 0 := by
  by_cases hk : k < NDIRECT
  · rw [if_pos hk, slot_low (le_of_lt hk)]
  · rw [if_neg hk]
    by_cases hind : k = NDIRECT
    · rw [hind, slot_low le_rfl, h.none]
    · exact slot_no_indirect (by omega) h.none

/-- The invariant, for a state whose inodes on disk and in the table are `ds`. -/
theorem Small.inv (h : Small sb s.bitmap ds) (hout : ∀ i, sb.ninodes ≤ i → (ds i).type = .none)
    (hdisk : s.dinode = ds)
    (hcopy : ∀ i, (s.inode i).Live → (s.inode i).d = ds i ∧ (ds i).type ≠ .none)
    (hpin : ∀ i, (s.inode i).locked = true → 0 < (s.inode i).ref) : Inv sb ds s := by
  have hlt : ∀ i, (ds i).type ≠ .none → i < sb.ninodes := by
    intro i hi
    by_contra hge
    exact hi (hout i (by omega))
  have hdir : ∀ i, (ds i).type ≠ .none → (ds i).Direct sb s.bitmap :=
    fun i hi => h.direct i (hlt i hi) hi
  have hslot : ∀ i k b, (ds i).type ≠ .none → Fs.slot (ds i) s.block k = b → b ≠ 0 →
      k < NDIRECT ∧ (ds i).addrs k = b := by
    intro i k b hi hk hb
    rw [(hdir i hi).slot] at hk
    split at hk
    · next hlow => exact ⟨hlow, hk⟩
    · exact absurd hk.symm hb
  refine ⟨hcopy, fun i _ => by rw [hdisk], fun i => by rw [hdisk], hpin, fun i hi => ?_,
    h.reserved, ⟨fun x y b hx hy => ?_, fun x b hx => ?_, fun b hb hu => ?_⟩,
    fun i _ hi bn hbn => ?_⟩
  · refine ⟨Nat.pos_of_ne_zero ?_, hlt i hi⟩
    rintro rfl
    exact hi h.zero
  · rcases hslot _ _ _ hx.1 hx.2.1 hx.2.2 with ⟨hxk, hxb⟩
    rcases hslot _ _ _ hy.1 hy.2.1 hy.2.2 with ⟨hyk, hyb⟩
    rcases h.unique x.1 (hlt _ hx.1) y.1 (hlt _ hy.1) ⟨hx.1, hy.1⟩ x.2 hxk y.2 hyk
      ⟨by rw [hxb]; exact hx.2.2, hxb.trans hyb.symm⟩ with ⟨h₁, h₂⟩
    exact Prod.ext h₁ h₂
  · rcases hslot _ _ _ hx.1 hx.2.1 hx.2.2 with ⟨hxk, hxb⟩
    have hsound := (hdir _ hx.1).sound x.2 hxk (by rw [hxb]; exact hx.2.2)
    rwa [hxb] at hsound
  · rcases h.complete b hb.2 hb.1 hu with ⟨i, hi, k, hk, ht, haddr⟩
    rw [List.mem_range] at hi hk
    refine ⟨(i, k), ht, ?_, ?_⟩
    · show Fs.slot (ds i) s.block k = b
      rw [(hdir i ht).slot, if_pos hk, haddr]
    · have hpos := Nat.sub_pos_of_lt sb.nblocks_lt
      have hge : sb.size - sb.nblocks ≤ b := hb.1
      omega
  · have hsize := (hdir i hi).size
    have hlow : bn < NDIRECT := by
      rw [← Nat.mul_lt_mul_right (a := BSIZE) (by decide)]
      omega
    refine ⟨lt_of_lt_of_le hlow (by decide), ?_⟩
    rw [slot_direct hlow]
    exact (hdir i hi).full bn hlow hbn

/-- What the table has of an inode that is not in use. -/
abbrev absent : Nat × Bool × Bool := (0, false, false)

/-- A state with the inodes `ds` on disk, and in memory what `tab` says of them: the references,
whether the copy is valid, and the lock. -/
def St.small (bitmap : Nat → Bool) (block : Nat → Block) (ds : List Dinode)
    (tab : List (Nat × Bool × Bool)) : St where
  bitmap := bitmap
  block := block
  dinode i := ds.getD i Dinode.zero
  inode i := ⟨(tab.getD i absent).1, (tab.getD i absent).2.1,
    (tab.getD i absent).2.2, ds.getD i Dinode.zero⟩

theorem St.small_inv {block : Nat → Block} {ds : List Dinode} {tab : List (Nat × Bool × Bool)}
    (h : Small sb bitmap fun i => ds.getD i Dinode.zero) (hlen : ds.length ≤ sb.ninodes)
    (htab : ∀ i < tab.length, ((tab.getD i absent).2.1 = true →
        (ds.getD i Dinode.zero).type ≠ .none) ∧
      ((tab.getD i absent).2.2 = true → 0 < (tab.getD i absent).1)) :
    Inv sb (St.small bitmap block ds tab).dinode (St.small bitmap block ds tab) := by
  have hout : ∀ i, tab.length ≤ i → tab.getD i absent = absent :=
    fun i hi => List.getD_eq_default _ _ hi
  refine Small.inv h (fun i hi => ?_) rfl (fun i hi => ⟨rfl, ?_⟩) fun i hi => ?_
  · show (ds.getD i Dinode.zero).type = .none
    rw [List.getD_eq_default _ _ (by omega)]
    rfl
  · have hvalid : (tab.getD i absent).2.1 = true := hi.2
    by_cases hlt : i < tab.length
    · exact (htab i hlt).1 hvalid
    · rw [hout i (by omega)] at hvalid
      cases hvalid
  · have hlocked : (tab.getD i absent).2.2 = true := hi
    by_cases hlt : i < tab.length
    · exact (htab i hlt).2 hlocked
    · rw [hout i (by omega)] at hlocked
      cases hlocked

/-- The outcome of a run that can be computed. -/
theorem exists_run {ε α : Type} {m : Except ε α} {p : α → Bool} (h : m.toOption.any p = true) :
    ∃ a, m = .ok a ∧ p a = true := by
  cases m with
  | ok a => exact ⟨a, rfl, h⟩
  | error e => cases h

/-- A block that begins with the bytes. -/
def blockOf (bytes : List Byte) : Block := fun j => bytes.getD j.val 0

end

end Xv6.Fs
