import Xv6.Lib.Owners
import Xv6.Fs.Basic

/-!
# Xv6.Fs.Inv — every data block has one owner

The invariant of the lower layers. It speaks about the inodes as they are to be seen: the
in-memory copy where there is a valid one, the inode on disk otherwise; `v` is this map
from numbers to inodes. The references of an inode are the slots of `addrs` and the
entries of its indirect block, numbered in one row, and a data block is marked in the
free map just when one of them holds it.
-/

namespace Xv6.Fs

open Lib Function List

/-! ## References -/

/-- Reference `k` of an inode: a direct slot, the indirect block, or an entry in it. -/
def slot (d : Dinode) (blk : Nat → Block) (k : Nat) : Nat :=
  if k ≤ NDIRECT then d.addrs k
  else if d.addrs NDIRECT = 0 ∨ NINDIRECT ≤ k - (NDIRECT + 1) then 0
  else ((blk (d.addrs NDIRECT)).getWord (k - (NDIRECT + 1))).toNat

/-- The reference that holds block `bn` of the contents. -/
def dataSlot (bn : Nat) : Nat := if bn < NDIRECT then bn else bn + 1

/-- Reference `x.2` of the allocated inode `x.1` names block `b`. -/
def Holds (v : Nat → Dinode) (blk : Nat → Block) (x : Nat × Nat) (b : Nat) : Prop :=
  (v x.1).type ≠ .none ∧ slot (v x.1) blk x.2 = b ∧ b ≠ 0

def Super.Data (sb : Super) (b : Nat) : Prop := sb.datastart ≤ b ∧ b < sb.size

/-- No holes: all blocks up to the size are there. -/
def Full (d : Dinode) (blk : Nat → Block) : Prop :=
  ∀ bn, bn * BSIZE < d.size → bn < MAXFILE ∧ slot d blk (dataSlot bn) ≠ 0

/-- Byte `off` of the contents. -/
def content (d : Dinode) (blk : Nat → Block) (off : Nat) : Byte :=
  (blk (slot d blk (dataSlot (off / BSIZE)))).byte (off % BSIZE)

/-- No block is free. -/
def St.DiskFull (s : St) (sb : Super) : Prop := ∀ b, b < sb.size → s.bitmap b = true

/-! ## The invariant -/

/-- The table entry holds what is to be seen of inode `i`. -/
def Inode.Live (ip : Inode) : Prop := 0 < ip.ref ∧ ip.valid = true

/-- What is to be seen of inode `i`. -/
def St.view (s : St) (i : Nat) : Dinode :=
  if 0 < (s.inode i).ref ∧ (s.inode i).valid then (s.inode i).d else s.dinode i

/-- The disk and the inode table are consistent, and the inodes in `F` have no holes. -/
structure InvOn (F : Nat → Prop) (sb : Super) (v : Nat → Dinode) (s : St) : Prop where
  copy : ∀ i, (s.inode i).Live → (s.inode i).d = v i ∧ (v i).type ≠ .none
  disk : ∀ i, ¬ ((s.inode i).Live ∧ (s.inode i).locked = true) → s.dinode i = v i
  dtype : ∀ i, (s.dinode i).type = (v i).type
  pin : ∀ i, (s.inode i).locked = true → 0 < (s.inode i).ref
  range : ∀ i, (v i).type ≠ .none → 0 < i ∧ i < sb.ninodes
  reserved : ∀ b, b < sb.datastart → s.bitmap b = true
  own : Owned sb.Data s.bitmap (Holds v s.block)
  whole : ∀ i, F i → (v i).type ≠ .none → Full (v i) s.block

/-- No file has holes. -/
abbrev Inv := InvOn fun _ => True

/-- The inode `i` is locked by the caller, who sees it as it is. -/
structure Locked (v : Nat → Dinode) (s : St) (i : Nat) : Prop where
  live : (s.inode i).Live
  locked : (s.inode i).locked = true
  disk : s.dinode i = v i

section
variable {F : Nat → Prop} {sb : Super} {v : Nat → Dinode} {s t : St} {E : Stop → Prop}
  {d d' : Dinode} {blk blk' : Nat → Block} {i k b : Nat}

/-- What the invariant says about one inode, of which `d` is to be seen: its table entry and its
place on disk. -/
structure Agree (sb : Super) (i : Nat) (d : Dinode) (ip : Inode) (din : Dinode) : Prop where
  copy : ip.Live → ip.d = d ∧ d.type ≠ .none
  disk : ¬ (ip.Live ∧ ip.locked = true) → din = d
  dtype : din.type = d.type
  pin : ip.locked = true → 0 < ip.ref
  range : d.type ≠ .none → 0 < i ∧ i < sb.ninodes

theorem InvOn.agree (h : InvOn F sb v s) (i : Nat) : Agree sb i (v i) (s.inode i) (s.dinode i) :=
  ⟨h.copy i, h.disk i, h.dtype i, h.pin i, h.range i⟩

theorem InvOn.of_agree (h : ∀ j, Agree sb j (v j) (s.inode j) (s.dinode j))
    (hreserved : ∀ b < sb.datastart, s.bitmap b = true)
    (hown : Owned sb.Data s.bitmap (Holds v s.block))
    (hfull : ∀ j, F j → (v j).type ≠ .none → Full (v j) s.block) : InvOn F sb v s :=
  ⟨fun j => (h j).copy, fun j => (h j).disk, fun j => (h j).dtype, fun j => (h j).pin,
    fun j => (h j).range, hreserved, hown, hfull⟩

/-- One inode changes. -/
theorem InvOn.agree_update {ip : Inode} {din : Dinode} (h : InvOn F sb v s) (hi : Agree sb i d ip din)
    (j : Nat) : Agree sb j (update v i d j) (update s.inode i ip j) (update s.dinode i din j) := by
  by_cases hj : j = i
  · subst hj
    rw [update_self, update_self, update_self]
    exact hi
  · rw [update_of_ne hj, update_of_ne hj, update_of_ne hj]
    exact h.agree j

theorem InvOn.full (h : Inv sb v s) (i : Nat) (hi : (v i).type ≠ .none) : Full (v i) s.block :=
  h.whole i trivial hi

theorem InvOn.whole_update (h : InvOn F sb v s) (hd : d.type ≠ .none → Full d s.block) (j : Nat)
    (hF : F j) (hj : (update v i d j).type ≠ .none) : Full (update v i d j) s.block := by
  by_cases hji : j = i
  · rw [hji, update_self] at hj ⊢
    exact hd hj
  · rw [update_of_ne hji] at hj ⊢
    exact h.whole j hF hj

theorem InvOn.view (h : InvOn F sb v s) : s.view = v := by
  funext i
  unfold St.view
  split
  · next hlive => exact (h.copy i hlive).1
  · next hlive => exact h.disk i fun hc => hlive hc.1

/-! ## Primitive state changes -/

variable {Q : Unit → St → Prop}

@[simp] theorem wp_setInode {f : Inode → Inode} :
    wp E (setInode i f) Q s ↔
      Q () { s with inode := update s.inode i (f (s.inode i)) } := by
  rw [setInode, wp_modify]

@[simp] theorem wp_setCopy {f : Dinode → Dinode} :
    wp E (setCopy i f) Q s ↔
      Q () { s with inode := update s.inode i
                      { s.inode i with d := f (s.inode i).d } } := by
  rw [setCopy, wp_setInode]

@[simp] theorem wp_setBlock {f : Block → Block} :
    wp E (setBlock b f) Q s ↔
      Q () { s with block := update s.block b (f (s.block b)) } := by
  rw [setBlock, wp_modify]

@[simp] theorem wp_setBit {x : Bool} :
    wp E (setBit b x) Q s ↔ Q () { s with bitmap := update s.bitmap b x } := by
  rw [setBit, wp_modify]

@[simp] theorem wp_iupdate :
    wp E (iupdate i) Q s ↔
      Q () { s with dinode := update s.dinode i (s.inode i).d } := by
  rw [iupdate, wp_modify]

/-! ## Slots -/

theorem slot_low (h : k ≤ NDIRECT) : slot d blk k = d.addrs k := by rw [slot, if_pos h]

theorem slot_no_indirect (h : NDIRECT < k) (h0 : d.addrs NDIRECT = 0) : slot d blk k = 0 := by
  rw [slot, if_neg (by omega), if_pos (.inl h0)]

/-- Without slots there are no references. -/
theorem slot_empty (h : ∀ m ≤ NDIRECT, d.addrs m = 0) : slot d blk k = 0 := by
  by_cases hk : k ≤ NDIRECT
  · rw [slot_low hk, h k hk]
  · exact slot_no_indirect (by omega) (h NDIRECT le_rfl)

theorem slot_entry {b : Nat → Block} {j : Nat} (hj : j < NINDIRECT) (h0 : d.addrs NDIRECT ≠ 0) :
    slot d b (NDIRECT + 1 + j) = ((b (d.addrs NDIRECT)).getWord j).toNat := by
  have hk : NDIRECT + 1 + j - (NDIRECT + 1) = j := by omega
  rw [slot, if_neg (by omega), hk, if_neg (by rintro (h | h) <;> omega)]

/-! The data blocks: direct slots, then the entries of the indirect block. -/

variable {bn : Nat}

theorem slot_direct (h : bn < NDIRECT) : slot d blk (dataSlot bn) = d.addrs bn := by
  rw [dataSlot, if_pos h, slot_low (le_of_lt h)]

theorem dataSlot_indirect (h : ¬ bn < NDIRECT) :
    dataSlot bn = NDIRECT + 1 + (bn - NDIRECT) := by
  rw [dataSlot, if_neg h]
  omega

theorem indirect_lt (h : ¬ bn < NDIRECT) (hbn : bn < MAXFILE) :
    bn - NDIRECT < NINDIRECT := by
  unfold MAXFILE at hbn
  omega

/-- A block of data behind the direct ones. -/
theorem slot_indirect (h : ¬ bn < NDIRECT) (hbn : bn < MAXFILE)
    (h0 : slot d blk (dataSlot bn) ≠ 0) :
    d.addrs NDIRECT ≠ 0 ∧ (blk (d.addrs NDIRECT)).getWord (bn - NDIRECT) ≠ 0 ∧
      slot d blk (dataSlot bn) = ((blk (d.addrs NDIRECT)).getWord (bn - NDIRECT)).toNat := by
  rw [dataSlot_indirect h] at h0 ⊢
  have hind : d.addrs NDIRECT ≠ 0 := fun hz => h0 (slot_no_indirect (by omega) hz)
  have hentry := slot_entry (b := blk) (indirect_lt h hbn) hind
  refine ⟨hind, fun hw => ?_, hentry⟩
  rw [hentry, hw] at h0
  exact h0 rfl

/-- References depend on the slots of `addrs` and on the indirect block. -/
theorem slot_congr (hlow : ∀ k ≤ NDIRECT, d'.addrs k = d.addrs k)
    (hind : d.addrs NDIRECT ≠ 0 → blk' (d.addrs NDIRECT) = blk (d.addrs NDIRECT)) (k : Nat) :
    slot d' blk' k = slot d blk k := by
  unfold slot
  rw [hlow NDIRECT le_rfl]
  split
  · next hk => rw [hlow k hk]
  · split
    · rfl
    · next hne => rw [hind fun h0 => hne (.inl h0)]

theorem dataSlot_ne (bn : Nat) : dataSlot bn ≠ NDIRECT := by
  unfold dataSlot
  split <;> omega

theorem dataSlot_inj {bn' : Nat} (h : dataSlot bn = dataSlot bn') : bn = bn' := by
  unfold dataSlot at h
  split at h <;> split at h <;> omega

theorem Holds.mk (ht : (v i).type ≠ .none) (h0 : slot (v i) blk k ≠ 0) :
    Holds v blk (i, k) (slot (v i) blk k) := ⟨ht, rfl, h0⟩

/-- Two references with one block are one. -/
theorem InvOn.slot_inj (h : InvOn F sb v s) {j m : Nat} (hi : (v i).type ≠ .none)
    (hj : (v j).type ≠ .none) (h0 : slot (v i) s.block k ≠ 0)
    (heq : slot (v i) s.block k = slot (v j) s.block m) : i = j ∧ k = m := by
  have hx := h.own.unique (i, k) (j, m) _ (Holds.mk hi h0) ⟨hj, heq.symm, h0⟩
  exact ⟨congrArg Prod.fst hx, congrArg Prod.snd hx⟩

/-- A block that an inode refers to is a data block in use. -/
theorem InvOn.slot_data (h : InvOn F sb v s) (hi : (v i).type ≠ .none) (h0 : slot (v i) s.block k ≠ 0) :
    sb.Data (slot (v i) s.block k) ∧ s.bitmap (slot (v i) s.block k) = true :=
  h.own.sound (i, k) _ (Holds.mk hi h0)

/-- A free block is in no reference. -/
theorem InvOn.slot_ne_free (h : InvOn F sb v s) (hi : (v i).type ≠ .none) (hb : s.bitmap b = false)
    (hb0 : b ≠ 0) : slot (v i) s.block k ≠ b :=
  fun he => h.own.not_holds hb (i, k) ⟨hi, he, hb0⟩

/-! ## The allocator -/

theorem Super.datastart_pos (sb : Super) : 0 < sb.datastart :=
  Nat.sub_pos_of_lt sb.nblocks_lt

/-- `balloc` takes a free block and clears it, or there is none. -/
theorem balloc_cases : wp E (balloc sb) (fun r t =>
    (r = 0 ∧ t = s ∧ s.DiskFull sb) ∨
    (r < sb.size ∧ s.bitmap r = false ∧
      t = { s with bitmap := update s.bitmap r true
                   block := update s.block r fun _ => 0 })) s := by
  rw [balloc, wp_bind, wp_get]
  cases hfind : (List.range sb.size).find? fun b => !s.bitmap b with
  | none =>
    refine wp_ret (.inl ⟨rfl, rfl, fun b hb => ?_⟩)
    simpa using find?_eq_none.mp hfind b (mem_range.mpr hb)
  | some b =>
    have hfree : s.bitmap b = false := by simpa using find?_some hfind
    have hlt : b < sb.size := mem_range.mp (mem_of_find?_eq_some hfind)
    rw [wp_bind, wp_setBit, wp_bind, bzero, wp_setBlock, wp_pure]
    exact .inr ⟨hlt, hfree, rfl⟩

theorem balloc_spec (h : InvOn F sb v s) :
    wp E (balloc sb) (fun r t =>
      (r = 0 ∧ t = s ∧ s.DiskFull sb) ∨
      (r ≠ 0 ∧ sb.Data r ∧ s.bitmap r = false ∧
        t = { s with bitmap := update s.bitmap r true
                     block := update s.block r fun _ => 0 })) s := by
  refine wp_mono balloc_cases fun r t ht => ht.imp_right fun ⟨hlt, hfree, hr⟩ => ?_
  have hge : sb.datastart ≤ r := by
    by_contra hlow
    rw [h.reserved r (by omega)] at hfree
    cases hfree
  have hpos := sb.datastart_pos
  exact ⟨by omega, ⟨hge, hlt⟩, hfree, hr⟩

/-- A block in use is freed without the panic. -/
theorem bfree_spec (hb : s.bitmap b = true) :
    wp E (bfree b) (fun _ t => t = { s with bitmap := update s.bitmap b false }) s := by
  rw [bfree, wp_bind, wp_get, if_neg (by rw [hb]; nofun), wp_setBit]

end

end Xv6.Fs
