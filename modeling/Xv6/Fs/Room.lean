import Mathlib.Data.Finset.Card
import Xv6.Fs.Context

/-!
# Xv6.Fs.Room — when there is room for an entry

`dirlink` takes the first empty entry of the directory, and one behind the last if there is none.
For that the directory may need a block, and the first time beyond the direct blocks one for the
addresses too. It fails just in case there are not that many free blocks, or the directory is as
large as a file can be.
-/

namespace Xv6.Fs

open Lib Function List

def St.freeBlocks (s : St) (sb : Super) : Finset Nat :=
  (Finset.range sb.size).filter fun b => s.bitmap b = false

/-- How many blocks `bmap` allocates for block `bn` of the contents. -/
def blocksNeeded (d : Dinode) (blk : Nat → Block) (bn : Nat) : Nat :=
  if slot d blk (dataSlot bn) ≠ 0 then 0
  else if bn < NDIRECT ∨ d.addrs NDIRECT ≠ 0 then 1
  else 2

/-- There is room for one more entry in the directory `d`. -/
def EntryRoom (sb : Super) (d : Dinode) (s : St) : Prop :=
  (entries (d.bytes s.block)).free < d.size / DESIZE ∨
    d.size + DESIZE ≤ MAXFILE * BSIZE ∧
      blocksNeeded d s.block (d.size / BSIZE) ≤ (s.freeBlocks sb).card

section
variable {E : Stop → Prop} {sb : Super} {v w : Nat → Dinode} {s t : St} {i k bn dp : Nat}
  {bytes : List Byte} {name : Name}

/-! ## Blocks -/

variable {b : Nat}

theorem mem_freeBlocks : b ∈ s.freeBlocks sb ↔ b < sb.size ∧ s.bitmap b = false := by
  rw [St.freeBlocks, Finset.mem_filter, Finset.mem_range]

theorem card_freeBlocks_full : (s.freeBlocks sb).card = 0 ↔ s.DiskFull sb := by
  rw [Finset.card_eq_zero, Finset.eq_empty_iff_forall_notMem]
  refine forall_congr' fun b => ?_
  rw [mem_freeBlocks, not_and, Bool.not_eq_false]

theorem freeBlocks_alloc (hb : s.bitmap b = false) (hlt : b < sb.size)
    (ht : t.bitmap = update s.bitmap b true) :
    (t.freeBlocks sb).card + 1 = (s.freeBlocks sb).card := by
  have herase : t.freeBlocks sb = (s.freeBlocks sb).erase b := by
    ext c
    rw [Finset.mem_erase, mem_freeBlocks, mem_freeBlocks, ht]
    by_cases hc : c = b
    · rw [hc, update_self]
      exact ⟨fun h => Bool.noConfusion h.2, fun h => absurd rfl h.1⟩
    · rw [update_of_ne hc]
      exact ⟨fun h => ⟨hc, h⟩, And.right⟩
  rw [herase, Finset.card_erase_add_one (mem_freeBlocks.mpr ⟨hlt, hb⟩)]

/-- Slot `k` of `addrs` is there, or a free block is taken for it. -/
theorem bmapAddr_room {Q : Nat → St → Prop} (h : Inv sb v s) (hlive : (s.inode i).Live)
    (hold : (v i).addrs k ≠ 0 → Q ((v i).addrs k) s)
    (hfull : (v i).addrs k = 0 → (s.freeBlocks sb).card = 0 → Q 0 s)
    (hnew : ∀ b t, (v i).addrs k = 0 → b ≠ 0 →
      (t.freeBlocks sb).card + 1 = (s.freeBlocks sb).card →
      t.block = update s.block b (fun _ => 0) → t.bitmap 0 = true → Q b t) :
    wp E (bmapAddr sb i k) Q s := by
  have hd := (h.copy i hlive).1
  rw [bmapAddr, wp_bind, wp_get, hd]
  refine wp_if (fun h0 => ?_) fun h0 => wp_ret (hold h0)
  refine wp_call (balloc_spec h) fun b t ht => ?_
  obtain ⟨rfl, rfl, hfull'⟩ | ⟨hb, hdata, hfree, rfl⟩ := ht
  · rw [if_pos rfl, wp_pure]
    exact hfull h0 (card_freeBlocks_full.mpr hfull')
  · rw [if_neg hb, wp_bind, wp_setCopy, wp_pure]
    refine hnew b _ h0 hb (freeBlocks_alloc hfree hdata.2 rfl) rfl ?_
    show update s.bitmap b true 0 = true
    rw [update_of_ne hb.symm]
    exact h.reserved 0 sb.datastart_pos

theorem balloc_room {Q : Nat → St → Prop} (h0 : s.bitmap 0 = true)
    (hfull : (s.freeBlocks sb).card = 0 → Q 0 s)
    (hnew : ∀ b t, b ≠ 0 → 0 < (s.freeBlocks sb).card → Q b t) : wp E (balloc sb) Q s := by
  refine wp_mono balloc_cases fun b t ht => ?_
  rcases ht with ⟨rfl, rfl, hall⟩ | ⟨hlt, hfree, -⟩
  · exact hfull (card_freeBlocks_full.mpr hall)
  · refine hnew b t ?_ (Finset.card_pos.mpr ⟨b, mem_freeBlocks.mpr ⟨hlt, hfree⟩⟩)
    rintro rfl
    rw [h0] at hfree
    cases hfree

/-- `bmap` fails if there are not enough free blocks, and then only. -/
theorem bmap_room (h : Inv sb v s) (hlive : (s.inode i).Live) (hbn : bn < MAXFILE) :
    wp E (bmap sb i bn) (fun b _ =>
      b ≠ 0 ↔ blocksNeeded (v i) s.block bn ≤ (s.freeBlocks sb).card) s := by
  unfold blocksNeeded
  rw [bmap]
  refine wp_if (fun hlt => ?_) fun hge => ?_
  · rw [slot_direct hlt]
    refine bmapAddr_room h hlive (fun hne => ?_) (fun h0 hcard => ?_) fun b t h0 hb hcard _ _ => ?_
    · simp [hne]
    · simp [h0, hlt, hcard]
    · simp only [h0, ne_eq, not_true_eq_false, if_false, hlt, true_or, if_true, hb,
        not_false_eq_true, true_iff]
      omega
  · have hj := indirect_lt hge hbn
    rw [if_pos hj, wp_bind, dataSlot_indirect hge]
    refine bmapAddr_room h hlive (fun hne => ?_) (fun h0 hcard => ?_)
      fun b t h0 hb hcard hblock hbit => ?_
    · -- the block of addresses is there
      rw [if_neg hne, wp_bind, wp_get, slot_entry hj hne, wp_ite]
      have hne' : ((s.block ((v i).addrs NDIRECT)).getWord (bn - NDIRECT)).toNat = 0 ↔
          (s.block ((v i).addrs NDIRECT)).getWord (bn - NDIRECT) = 0 :=
        ⟨fun hz => BitVec.eq_of_toNat_eq hz, fun hz => by rw [hz]; rfl⟩
      simp only [ne_eq, hne', hne, not_false_eq_true, or_true, if_true]
      refine ⟨fun hz => ?_, fun hnz => wp_ret ?_⟩
      swap
      · simp only [hne', hnz, not_false_eq_true, if_true, true_iff]
        exact Nat.zero_le _
      rw [wp_bind]
      refine balloc_room (h.reserved 0 sb.datastart_pos) (fun hcard => ?_) fun b u hb hpos => ?_
      · rw [if_pos rfl, wp_pure]
        simp [hz, hcard]
      · rw [if_neg hb, wp_bind, wp_setBlock, wp_pure]
        simp only [hb, hz, not_false_eq_true, not_true_eq_false, if_false, true_iff]
        omega
    · rw [if_pos rfl, wp_pure, slot_no_indirect (by omega) h0]
      simp [h0, hge, hcard]
    · have hword : (t.block b).getWord (bn - NDIRECT) = 0 := by
        rw [hblock, update_self]
        exact zero_getWord _
      rw [if_neg hb, wp_bind, wp_get, if_pos hword, wp_bind, slot_no_indirect (by omega) h0]
      simp only [h0, ne_eq, not_true_eq_false, hge, or_self, if_false]
      refine balloc_room hbit (fun hzero => ?_) fun c u hc hpos => ?_
      · rw [if_pos rfl, wp_pure]
        simp only [not_true_eq_false, false_iff]
        omega
      · rw [if_neg hc, wp_bind, wp_setBlock, wp_pure]
        simp only [hc, not_false_eq_true, true_iff]
        omega

/-! ## Entries -/

/-- An entry behind the last one. -/
theorem IsDir.writeDirent_end {new : Nat → Byte} (h : IsDir sb v s dp bytes) :
    wp E (Fs.writeDirent sb dp bytes.length new) (fun ok _ => ok = true ↔
      bytes.length + DESIZE ≤ MAXFILE * BSIZE ∧
        blocksNeeded (v dp) s.block (bytes.length / BSIZE) ≤ (s.freeBlocks sb).card) s := by
  have hsize := h.size
  have hle := h.full.size_le
  have hmax : MAXFILE * BSIZE + DESIZE < 2 ^ 32 := by decide
  have hu : u32 (bytes.length + DESIZE) = bytes.length + DESIZE := Nat.mod_eq_of_lt (by omega)
  have hpiece : min (DESIZE - 0) (BSIZE - bytes.length % BSIZE) = DESIZE := by
    obtain ⟨n, hn⟩ := h.align
    rw [hn]
    unfold DESIZE BSIZE
    omega
  rw [Fs.writeDirent, wp_bind, writei, wp_bind, wp_get, h.copy, hsize, hu,
    if_neg (by omega), wp_ite]
  refine ⟨fun hbig => ?_, fun hfit => ?_⟩
  · rw [wp_pure, wp_pure]
    simp only [reduceCtorEq, decide_false, Bool.false_eq_true, false_iff, not_and]
    omega
  have hbn : bytes.length / BSIZE < MAXFILE := by
    rw [Nat.div_lt_iff_lt_mul (by decide)]
    unfold DESIZE at hfit
    omega
  have hfit' : bytes.length + DESIZE ≤ MAXFILE * BSIZE := le_of_not_gt hfit
  have hloop : ∀ fuel, fuel + 1 = DESIZE → wp E
      (writei.loop sb dp (fun k => some (new k)) DESIZE (fuel + 1) 0 bytes.length) (fun r _ =>
        r.1 = DESIZE ↔
          blocksNeeded (v dp) s.block (bytes.length / BSIZE) ≤ (s.freeBlocks sb).card) s := by
    intro fuel hfuel
    rw [writei.loop, if_neg (by decide)]
    refine wp_call (bmap_room h.inv h.live hbn) fun b t hb => ?_
    rw [← hb]
    refine wp_if (fun h0 => ?_) fun h0 => ?_
    · exact wp_ret ⟨fun hz : 0 = DESIZE => absurd hz (by decide), fun hne => absurd h0 hne⟩
    simp only [hpiece]
    rw [wp_bind, wp_setBlock, readable_all fun _ _ => rfl, if_neg (lt_irrefl _),
      Nat.zero_add]
    cases fuel with
    | zero => exact absurd hfuel (by decide)
    | succ fuel =>
      rw [writei.loop, if_pos le_rfl, wp_pure]
      exact ⟨fun _ => h0, fun _ => rfl⟩
  refine wp_call (hloop 15 rfl) fun r t hr => ?_
  rw [wp_bind, wp_setCopy, wp_bind, wp_iupdate, wp_pure, wp_pure, decide_eq_true_eq,
    Option.some.injEq, hr]
  exact ⟨fun hb => ⟨hfit', hb⟩, And.right⟩

/-- `dirlink` of a name that is not there. -/
theorem IsDir.dirlink_room {inum : Nat} (h : IsDir sb v s dp bytes) (hlock : Locked v s dp)
    (hnone : (entries bytes).lookup name = none) :
    wp E (Fs.dirlink sb dp name inum) (fun ok _ => ok = true ↔ EntryRoom sb (v dp) s) s := by
  rw [Fs.dirlink, wp_bind]
  refine h.dirlookup (fun _ => ?_) fun ip k hsome => ?_
  · rw [wp_bind, wp_get, h.copy, h.size, wp_bind]
    refine wp_mono h.emptyEntry fun off t hoff => ?_
    obtain ⟨rfl, rfl⟩ := hoff
    rw [EntryRoom, h.holds, h.size]
    by_cases hfree : (entries bytes).free < bytes.length / DESIZE
    · refine wp_mono (h.writeDirent hlock free_entries_le) fun ok u hu => ?_
      obtain ⟨w, -, -, hok⟩ := hu
      exact ⟨fun _ => .inl hfree, fun _ => hok hfree⟩
    have hend : (entries bytes).free * DESIZE = bytes.length := by
      have hle : (entries bytes).free ≤ _ := free_entries_le
      rw [show (entries bytes).free = bytes.length / DESIZE by omega]
      exact Nat.div_mul_cancel h.align
    rw [hend]
    refine wp_mono h.writeDirent_end fun ok u hu => ?_
    rw [hu]
    exact ⟨.inr, fun hr => hr.resolve_left hfree⟩
  · rw [hsome] at hnone
    cases hnone

/-! ## The same room -/

theorem InvOn.bitmap_eq (hs : Inv sb v s) (ht : Inv sb w t)
    (hholds : ∀ x b, Holds w t.block x b ↔ Holds v s.block x b) (hb : b < sb.size) :
    t.bitmap b = s.bitmap b := by
  by_cases hlow : b < sb.datastart
  · rw [hs.reserved b hlow, ht.reserved b hlow]
  have hdata : sb.Data b := ⟨le_of_not_gt hlow, hb⟩
  rw [Bool.eq_iff_iff]
  constructor
  · intro hused
    obtain ⟨x, hx⟩ := ht.own.complete b hdata hused
    exact (hs.own.sound x b ((hholds x b).mp hx)).2
  · intro hused
    obtain ⟨x, hx⟩ := hs.own.complete b hdata hused
    exact (ht.own.sound x b ((hholds x b).mpr hx)).2

/-- The free blocks are those that no inode holds, so the room depends on the contents only. -/
theorem EntryRoom.congr {d : Dinode} (hs : Inv sb v s) (ht : Inv sb w t)
    (hblock : t.block = s.block) (hholds : ∀ x b, Holds w t.block x b ↔ Holds v s.block x b) :
    EntryRoom sb d t ↔ EntryRoom sb d s := by
  have hfree : t.freeBlocks sb = s.freeBlocks sb := by
    ext b
    rw [mem_freeBlocks, mem_freeBlocks]
    exact and_congr_right fun hb => by rw [hs.bitmap_eq ht hholds hb]
  rw [EntryRoom, EntryRoom, hfree, hblock]

end

end Xv6.Fs
