import Xv6.Fs.Bytes
import Xv6.Fs.Lookup
import Xv6.Mkfs.Image

/-!
# Xv6.Mkfs.Mount — the finished image as the kernel finds it

`main` ends with the size of the root directory rounded up and the free map written. What
the kernel reads from such an image: the superblock, the free map, the inodes and their
contents, and the entries of the root directory.
-/

namespace Xv6.Mkfs

open Lib Fs List

section
variable {m t : St} {data : Nat → List Byte} {files : List Input} {b i k p : Nat}

theorem Sealed.readsb (hs : Sealed m t) (h : Built m data) : Fs.readsb t.disk = sb := by
  have hword : ∀ w < BSIZE / 4, (t.disk 1).getWord w = sb.word w := by
    intro w hw
    rw [hs.super, h.super, Superblock.encode_getWord sb hw]
  unfold Fs.readsb
  rw [hword 0 (by decide), hword 1 (by decide), hword 2 (by decide), hword 3 (by decide),
    hword 4 (by decide), hword 5 (by decide), hword 6 (by decide), hword 7 (by decide)]
  rfl

/-! ## The free map -/

/-- A bit of a block of the free map. -/
def bitOf (blk : Block) (b : Nat) : Bool := (blk.byte (b / 8)).getLsbD (b % 8)

theorem bitOf_setUsed (blk : Block) (hb : b < BPB) :
    bitOf (setUsed blk i) b = (bitOf blk b || decide (b = i)) := by
  have hlt : b / 8 < BSIZE := by
    unfold BPB at hb
    omega
  simp only [bitOf, setUsed, Block.byte, dif_pos hlt]
  by_cases hbyte : b / 8 = i / 8
  · -- the byte that is changed, in which one bit is set
    rw [if_pos hbyte, BitVec.getLsbD_or]
    congr 1
    rw [BitVec.getLsbD_shiftLeft, BitVec.getLsbD_one]
    by_cases hbi : b = i
    · subst hbi
      have hmod : b % 8 < 8 := Nat.mod_lt _ (by decide)
      simp [hmod]
    · have hne : b % 8 ≠ i % 8 := by omega
      rw [decide_eq_false hbi]
      simp only [Bool.and_eq_false_iff, Bool.not_eq_false', decide_eq_true_eq,
        decide_eq_false_iff_not]
      omega
  · have hbi : b ≠ i := fun he => hbyte (by rw [he])
    rw [if_neg hbyte, decide_eq_false hbi, Bool.or_false]

/-- The loop of `balloc` sets the bits of the first blocks. -/
theorem bitOf_used (used : Nat) (hb : b < BPB) :
    bitOf ((List.range used).foldl setUsed zeroes) b = decide (b < used) := by
  induction used with
  | zero =>
    simp only [range_zero, foldl_nil, bitOf]
    rw [show zeroes.byte (b / 8) = 0#8 from zero_byte _, BitVec.getLsbD_zero]
    exact (decide_eq_false (Nat.not_lt_zero b)).symm
  | succ used ih =>
    rw [range_succ, foldl_append, foldl_cons, foldl_nil, bitOf_setUsed _ hb,
      ih, Bool.eq_iff_iff]
    simp only [Bool.or_eq_true, decide_eq_true_eq]
    omega

section
variable (hs : Sealed m t)
include hs

section
variable (h : Built m data)
include h

theorem Sealed.bitmap_eq (hb : b < BPB) :
    (mount t.disk).bitmap b = m.abs.bitmap b := by
  have hblock : BBLOCK b sb = sb.bmapstart := by
    rw [BBLOCK, Nat.div_eq_of_lt hb, Nat.zero_add]
  have hbit := bitOf_used m.freeblock hb
  simp only [mount, hs.readsb h, hblock, hs.bitmap, Nat.mod_eq_of_lt hb]
  exact hbit

/-! ## Inodes and contents -/

theorem Sealed.dinode_eq (hi : i < ninodeblocks * IPB) (hne : i ≠ ROOTINO) :
    (mount t.disk).dinode i = m.abs.dinode i := by
  simp only [mount, hs.readsb h]
  exact hs.inode i hi hne

theorem Sealed.dinode_root :
    (mount t.disk).dinode ROOTINO =
      { m.abs.dinode ROOTINO with size := ((m.abs.dinode ROOTINO).size / BSIZE + 1) * BSIZE } := by
  simp only [mount, hs.readsb h]
  exact hs.root

theorem Sealed.addrs_eq (hi : i < ninodeblocks * IPB) :
    ((mount t.disk).dinode i).addrs = (m.abs.dinode i).addrs ∧
      ((mount t.disk).dinode i).type = (m.abs.dinode i).type := by
  by_cases hne : i = ROOTINO
  · subst hne
    rw [hs.dinode_root h]
    exact ⟨rfl, rfl⟩
  · rw [hs.dinode_eq h hi hne]
    exact ⟨rfl, rfl⟩

end

theorem Sealed.block_eq (hb : wide.Data b) : t.disk b = m.abs.block b := by
  have hge := hb.1
  rw [wide_datastart] at hge
  simp only [St.abs, if_neg (Nat.not_lt.mpr hge)]
  exact hs.data b hge

/-- The references of an inode are those it had. -/
theorem Sealed.slot_eq (h : Built m data) (hi : i < ninodeblocks * IPB)
    (htype : (m.abs.dinode i).type ≠ .none) (k : Nat) :
    slot ((mount t.disk).dinode i) t.disk k = slot (m.abs.dinode i) m.abs.block k := by
  refine slot_congr (fun k _ => by rw [(hs.addrs_eq h hi).1]) (fun h0 => ?_) k
  have hlow : slot (m.abs.dinode i) m.abs.block NDIRECT = (m.abs.dinode i).addrs NDIRECT :=
    slot_low le_rfl
  rw [← hlow] at h0 ⊢
  exact hs.block_eq (h.inv.slot_data htype h0).1

theorem Sealed.content_eq (h : Built m data) (hi : i < ninodeblocks * IPB)
    (htype : (m.abs.dinode i).type ≠ .none)
    (h0 : slot (m.abs.dinode i) m.abs.block (dataSlot (p / BSIZE)) ≠ 0) :
    content ((mount t.disk).dinode i) t.disk p = content (m.abs.dinode i) m.abs.block p := by
  unfold content
  rw [hs.slot_eq h hi htype, hs.block_eq (h.inv.slot_data htype h0).1]

end

/-! ## The root directory -/

theorem length_rootEntries (files : List Input) :
    (rootEntries files).length = files.length + 2 := by
  simp [rootEntries]

/-- Entry `k` of the root directory, by its number. -/
theorem rootEntries_inum (hk : k < (rootEntries files).length) :
    (rootEntries files)[k].inum = if k = 0 then ROOTINO else k := by
  match k with
  | 0 => rfl
  | 1 => rfl
  | k + 2 =>
    rw [if_neg (by omega)]
    simp [rootEntries]

/-- The names of the root directory have no NUL, and fit. -/
theorem rootEntries_name (hacc : ∀ f ∈ files, f.Accepted) {de : Dirent}
    (hde : de ∈ rootEntries files) : de.name.length ≤ DIRSIZ ∧ (0 : Byte) ∉ de.name := by
  have hshort : ∀ f : Input, (0 : Byte) ∉ f.shortname := by
    intro f hmem
    have hbase : ∀ c ∈ f.base, c ∈ f.arg := by
      intro c hc
      unfold Input.base at hc
      split at hc
      · exact mem_of_mem_drop hc
      · exact hc
    refine f.noNul 0 (hbase 0 ?_) rfl
    unfold Input.shortname at hmem
    split at hmem
    · exact mem_of_mem_tail hmem
    · exact hmem
  rcases mem_cons.mp hde with rfl | hde
  · decide
  rcases mem_cons.mp hde with rfl | hde
  · decide
  rcases mem_mapIdx.mp hde with ⟨k, hk, rfl⟩
  exact ⟨(hacc _ (getElem_mem hk)).name, hshort _⟩

/-- Of pieces of one length, one after the other, piece `k`. -/
theorem flatMap_piece {α β : Type} (g : α → List β) {n : Nat} (hg : ∀ a, (g a).length = n)
    (l : List α) (hk : k < l.length) : ((l.flatMap g).drop (k * n)).take n = g l[k] := by
  induction l generalizing k with
  | nil => exact absurd hk (Nat.not_lt_zero k)
  | cons a l ih =>
    rw [flatMap_cons]
    cases k with
    | zero => rw [Nat.zero_mul, drop_zero, take_left' (hg a), getElem_cons_zero]
    | succ k =>
      have hsplit : (k + 1) * n = (g a).length + k * n := by
        rw [hg, Nat.add_mul, Nat.one_mul, Nat.add_comm]
      rw [hsplit, ← drop_drop, drop_left, ih (Nat.lt_of_succ_lt_succ hk), getElem_cons_succ]

theorem root_lt (hcount : m.freeinode = files.length + 2) : ROOTINO < m.freeinode := by
  unfold ROOTINO
  omega

variable (h : Built m (dataOf files)) (hcount : m.freeinode = files.length + 2)
include h hcount

theorem Built.root_allocated : (m.abs.dinode ROOTINO).type ≠ .none :=
  h.allocated (by decide) (root_lt hcount)

theorem Built.root_size : (m.abs.dinode ROOTINO).size = DESIZE * (files.length + 2) :=
  (h.size ROOTINO (by decide) (root_lt hcount)).trans (length_rootData files)

/-- The root directory, where it has been written. -/
theorem Sealed.root_mapped (hs : Sealed m t) (hk : k < files.length + 2) :
    EntryMapped ((mount t.disk).dinode ROOTINO) t.disk k := by
  have htype := h.root_allocated hcount
  have hsize := h.root_size hcount
  have hlt : k * DESIZE < (m.abs.dinode ROOTINO).size := by
    rw [hsize]
    unfold DESIZE
    omega
  have hmap := (h.inv.full ROOTINO htype).mapped hlt
  refine ⟨?_, hmap.1, ?_⟩
  · rw [hs.dinode_root h]
    show _ ≤ ((m.abs.dinode ROOTINO).size / BSIZE + 1) * BSIZE
    rw [hsize]
    unfold DESIZE BSIZE
    omega
  · rw [hs.slot_eq h (by decide) htype]
    exact hmap.2

/-- The entries that have been written are read back. -/
theorem Sealed.root_entry (hacc : ∀ f ∈ files, f.Accepted) (hs : Sealed m t)
    (hk : k < (rootEntries files).length) :
    direntAt ((mount t.disk).dinode ROOTINO) t.disk k = (rootEntries files)[k] := by
  have hlen := length_rootEntries files
  have htype := h.root_allocated hcount
  have hslot := (hs.root_mapped h hcount (k := k) (by omega)).slot
  rw [hs.slot_eq h (by decide) htype] at hslot
  have hbytes : contents ((mount t.disk).dinode ROOTINO) t.disk (k * DESIZE) DESIZE =
      direntBytes (rootEntries files)[k].inum (rootEntries files)[k].name := by
    calc contents ((mount t.disk).dinode ROOTINO) t.disk (k * DESIZE) DESIZE
        = contents (m.abs.dinode ROOTINO) m.abs.block (k * DESIZE) DESIZE :=
          contents_congr fun e he => hs.content_eq h (by decide) htype (by
            rwa [entry_block (Nat.le_add_right _ _) (Nat.add_lt_add_left he _)])
      _ = ((rootData files).drop (k * DESIZE)).take DESIZE := by
          rw [contents_piece (l := (rootData files).length) (by
            rw [length_rootData]
            unfold DESIZE
            omega)]
          exact congrArg (fun l => (l.drop (k * DESIZE)).take DESIZE)
            (h.bytes ROOTINO (by decide) (root_lt hcount))
      _ = _ := flatMap_piece _ (fun de => length_direntBytes _ _) _ hk
  have hname := rootEntries_name hacc (getElem_mem hk)
  have hinum : (rootEntries files)[k].inum < 2 ^ 16 := by
    have hmax : maxInodes < 2 ^ 16 := by decide
    have hle := h.count.2
    rw [rootEntries_inum hk]
    split
    · decide
    · omega
  rw [direntAt, hbytes]
  exact Dirent.decode_encode hinum hname.1 hname.2

/-- After the last entry, and where there is a block, the directory is empty. -/
theorem Sealed.root_rest (hs : Sealed m t) (hk : files.length + 2 ≤ k)
    (h0 : slot ((mount t.disk).dinode ROOTINO) t.disk (dataSlot (k * DESIZE / BSIZE)) ≠ 0) :
    (direntAt ((mount t.disk).dinode ROOTINO) t.disk k).inum = 0 := by
  have htype := h.root_allocated hcount
  rw [hs.slot_eq h (by decide) htype] at h0
  have hzero : ∀ e < DESIZE,
      content ((mount t.disk).dinode ROOTINO) t.disk (k * DESIZE + e) = 0 := by
    intro e he
    have hblock := entry_block (Nat.le_add_right (k * DESIZE) e) (Nat.add_lt_add_left he _)
    rw [← hblock] at h0
    rw [hs.content_eq h (by decide) htype h0]
    refine h.tail ROOTINO _ (by decide) (root_lt hcount) ?_ h0
    rw [h.root_size hcount]
    unfold DESIZE
    omega
  have hcontents : contents ((mount t.disk).dinode ROOTINO) t.disk (k * DESIZE) DESIZE =
      List.replicate DESIZE 0 := by
    rw [contents, map_congr_left fun e he => hzero e (mem_range.mp he)]
    rfl
  rw [direntAt, hcontents]
  rfl

end

end Xv6.Mkfs
