import Xv6.Mkfs.Mount

/-!
# Xv6.Mkfs.WellFormed — when the image is well formed

What the kernel relies on when it mounts a disk. An image that `main` has finished is one
unless its root directory ends with its last block, or there are more files than inodes.
The size of the root directory is rounded up to the next block also when the last block is
full, and then the new last block is not there. Nothing compares the number of an inode
with `NINODES`, so that more files than that are taken, but the kernel knows no such inodes.
-/

namespace Xv6.Mkfs

open Lib Fs List

/-- The blocks between the metadata and the end of the disk. -/
def dataBlock (sb : Superblock) (b : Nat) : Prop := sb.size - sb.nblocks ≤ b ∧ b < sb.size

/-- What the kernel relies on: files without holes, blocks that are marked as used just when
one reference holds them, no reference that is not needed, and a root directory of
allocated inodes. -/
structure WellFormed (disk : Nat → Block) : Prop where
  full : ∀ i, i < (readsb disk).ninodes → ((mount disk).dinode i).type ≠ .none →
    Full ((mount disk).dinode i) disk
  own : Owned (dataBlock (readsb disk)) (mount disk).bitmap fun x b =>
    x.1 < (readsb disk).ninodes ∧ Holds (mount disk).dinode disk x b
  tight : ∀ i k, i < (readsb disk).ninodes → ((mount disk).dinode i).type ≠ .none →
    slot ((mount disk).dinode i) disk k ≠ 0 → Needed ((mount disk).dinode i) k
  entries : ∀ k, k * DESIZE < ((mount disk).dinode ROOTINO).size →
    (direntAt ((mount disk).dinode ROOTINO) disk k).inum ≠ 0 →
    (direntAt ((mount disk).dinode ROOTINO) disk k).inum < (readsb disk).ninodes ∧
      ((mount disk).dinode (direntAt ((mount disk).dinode ROOTINO) disk k).inum).type ≠ .none

section
variable {m t : St} {files : List Input} {i k : Nat}

theorem Built.type_ne_none (h : Built m (dataOf files)) (htype : (m.abs.dinode i).type ≠ .none) :
    0 < i ∧ i < m.freeinode := by
  by_contra hno
  rw [h.type, typeAt, if_pos (by omega)] at htype
  exact htype rfl

variable (hs : Sealed m t) (h : Built m (dataOf files)) (hcount : m.freeinode = files.length + 2)
include hs h hcount

/-- The last block of the root directory is there if the entries do not end with a block. -/
theorem Sealed.root_full (hpart : (files.length + 2) * DESIZE % BSIZE ≠ 0) :
    Full ((mount t.disk).dinode ROOTINO) t.disk := by
  have htype := h.root_allocated hcount
  intro bn hbn
  rw [hs.dinode_root h] at hbn
  change bn * BSIZE < ((m.abs.dinode ROOTINO).size / BSIZE + 1) * BSIZE at hbn
  have hlt : bn * BSIZE < (m.abs.dinode ROOTINO).size := by
    rw [h.root_size hcount] at hbn ⊢
    unfold DESIZE BSIZE at *
    omega
  rcases h.inv.full ROOTINO htype bn hlt with ⟨hmax, h0⟩
  exact ⟨hmax, by rwa [hs.slot_eq h (by decide) htype]⟩

/-- Otherwise it is not. -/
theorem Sealed.root_hole (hfull : (files.length + 2) * DESIZE % BSIZE = 0) :
    ¬ Full ((mount t.disk).dinode ROOTINO) t.disk := by
  have htype := h.root_allocated hcount
  intro hall
  have hslot := (hall ((m.abs.dinode ROOTINO).size / BSIZE) (by
    rw [hs.dinode_root h]
    show _ < ((m.abs.dinode ROOTINO).size / BSIZE + 1) * BSIZE
    unfold BSIZE
    omega)).2
  rw [hs.slot_eq h (by decide) htype] at hslot
  rcases h.tight ROOTINO _ (by decide) (root_lt hcount) hslot with hind | ⟨bn, hbn, heq⟩
  · exact dataSlot_ne _ hind
  · -- the block after the last one would begin below the size
    rw [← dataSlot_inj heq, h.root_size hcount] at hbn
    unfold DESIZE BSIZE at *
    omega

/-- The image of at most `NINODES` inodes whose root directory does not end with a block. -/
theorem Sealed.wellFormed (hacc : ∀ f ∈ files, f.Accepted) (hn : files.length + 2 ≤ NINODES)
    (hpart : (files.length + 2) * DESIZE % BSIZE ≠ 0) : WellFormed t.disk := by
  have hsb := hs.readsb h
  have hsmall : NINODES ≤ ninodeblocks * IPB := by decide
  have htypes : ∀ i < NINODES, ((mount t.disk).dinode i).type = (m.abs.dinode i).type :=
    fun i hi => (hs.addrs_eq h (lt_of_lt_of_le hi hsmall)).2
  have hslots : ∀ i k, i < NINODES → (m.abs.dinode i).type ≠ .none →
      slot ((mount t.disk).dinode i) t.disk k = slot (m.abs.dinode i) m.abs.block k :=
    fun i k hi htype => hs.slot_eq h (lt_of_lt_of_le hi hsmall) htype k
  refine ⟨fun i hi htype => ?_, ?_, fun i k hi htype hk => ?_, fun k hk h0 => ?_⟩
  · rw [hsb] at hi
    rw [htypes i hi] at htype
    by_cases hroot : i = ROOTINO
    · rw [hroot]
      exact hs.root_full h hcount hpart
    · intro bn hbn
      rw [hslots i _ hi htype]
      rw [hs.dinode_eq h (lt_of_lt_of_le hi hsmall) hroot] at hbn
      exact h.inv.full i htype bn hbn
  · rw [hsb]
    -- the same references, and the same bits for the data blocks
    have hholds : ∀ x b, x.1 < NINODES ∧ Holds (mount t.disk).dinode t.disk x b ↔
        Holds m.abs.dinode m.abs.block x b := by
      intro x b
      constructor
      · rintro ⟨hx, htype, hslot, hb⟩
        rw [htypes _ hx] at htype
        rw [hslots _ _ hx htype] at hslot
        exact ⟨htype, hslot, hb⟩
      · rintro ⟨htype, hslot, hb⟩
        have hx : x.1 < NINODES := by
          have hlt := (h.type_ne_none htype).2
          omega
        exact ⟨hx, by rwa [htypes _ hx], by rwa [hslots _ _ hx htype], hb⟩
    refine (h.inv.own.congr hholds).congr_used fun b hb => hs.bitmap_eq h ?_
    exact lt_of_lt_of_le hb.2 (by decide)
  · rw [hsb] at hi
    rw [htypes i hi] at htype
    rw [hslots i k hi htype] at hk
    have hi' := h.type_ne_none htype
    have hneed := h.tight i k hi'.1 hi'.2 hk
    by_cases hroot : i = ROOTINO
    · subst hroot
      rw [hs.dinode_root h]
      refine hneed.mono ?_
      show _ ≤ ((m.abs.dinode ROOTINO).size / BSIZE + 1) * BSIZE
      unfold BSIZE
      omega
    · rwa [hs.dinode_eq h (lt_of_lt_of_le hi hsmall) hroot]
  · rw [hsb]
    have hlen := length_rootEntries files
    have hlt : k < (rootEntries files).length := by
      by_contra hge
      refine h0 (hs.root_rest h hcount (by omega) ?_)
      exact ((hs.root_full h hcount hpart).mapped hk).2
    rw [hs.root_entry h hcount hacc hlt, rootEntries_inum hlt]
    have hinum : 0 < (if k = 0 then ROOTINO else k) ∧
        (if k = 0 then ROOTINO else k) < files.length + 2 := by
      unfold ROOTINO
      split <;> omega
    have hsmall' : (if k = 0 then ROOTINO else k) < NINODES := by omega
    refine ⟨hsmall', ?_⟩
    rw [htypes _ hsmall']
    exact h.allocated hinum.1 (by rw [hcount]; exact hinum.2)

/-- The last entry has the number of the last inode. -/
theorem Sealed.not_wellFormed_many (hacc : ∀ f ∈ files, f.Accepted)
    (hn : NINODES < files.length + 2) : ¬ WellFormed t.disk := by
  intro hwf
  have hlt : files.length + 1 < (rootEntries files).length := by
    rw [length_rootEntries]
    omega
  have hle := (hs.root_mapped h hcount (k := files.length + 1) (by omega)).le
  have hinum : (direntAt ((mount t.disk).dinode ROOTINO) t.disk (files.length + 1)).inum =
      files.length + 1 := by
    rw [hs.root_entry h hcount hacc hlt, rootEntries_inum hlt, if_neg (by omega)]
  have hent := (hwf.entries (files.length + 1) (by unfold DESIZE at *; omega)
    (by rw [hinum]; omega)).1
  rw [hinum, hs.readsb h] at hent
  change files.length + 1 < NINODES at hent
  omega

/-- The root directory is allocated, and should be there as a whole. -/
theorem Sealed.not_wellFormed_hole (hfull : (files.length + 2) * DESIZE % BSIZE = 0) :
    ¬ WellFormed t.disk := by
  intro hwf
  refine hs.root_hole h hcount hfull (hwf.full ROOTINO ?_ ?_)
  · rw [hs.readsb h]
    decide
  · rw [(hs.addrs_eq h (by decide)).2]
    exact h.root_allocated hcount

end

/-- The image of a run that ends with status 0 is well formed if there is an inode for each
file and the root directory does not end with a block; and, as long as the inodes do not run
into the data blocks, only then. -/
theorem wellFormed_main (files : List Input) (t : St) (hexit : main files start = .ok ((), t)) :
    (files.length + 2 ≤ NINODES ∧ (files.length + 2) * DESIZE % BSIZE ≠ 0 → WellFormed t.disk) ∧
    (files.length + 2 ≤ maxInodes → WellFormed t.disk →
      files.length + 2 ≤ NINODES ∧ (files.length + 2) * DESIZE % BSIZE ≠ 0) := by
  have hrun : files.length + 2 ≤ maxInodes → ∃ m, Built m (dataOf files) ∧
      m.freeinode = files.length + 2 ∧ (∀ f ∈ files, f.Accepted) ∧ Sealed m t := by
    intro hn
    exact (wp_of_eq hexit).mp (main_built (E := fun _ => True) files hn (.inr fun _ => trivial))
  constructor
  · rintro ⟨hn, hpart⟩
    rcases hrun (le_trans hn (by decide)) with ⟨m, h, hcount, hacc, hs⟩
    exact hs.wellFormed h hcount hacc hn hpart
  · intro hn hwf
    rcases hrun hn with ⟨m, h, hcount, hacc, hs⟩
    refine ⟨?_, fun hfull => hs.not_wellFormed_hole h hcount hfull hwf⟩
    by_contra hmany
    exact hs.not_wellFormed_many h hcount hacc (by omega) hwf

/-- An empty file with a name of one byte. -/
def plain (k : Nat) : Input where
  arg := [BitVec.ofNat 8 (k % 100 + 128)]
  noNul := by
    intro c hc
    rw [mem_singleton] at hc
    intro h0
    have hval := congrArg BitVec.toNat (hc.symm.trans h0)
    rw [BitVec.toNat_ofNat] at hval
    change (k % 100 + 128) % 256 = 0 at hval
    omega
  reads := some []

theorem plain_accepted (k : Nat) : (plain k).Accepted := by
  have hbase : (plain k).base = [BitVec.ofNat 8 (k % 100 + 128)] := by
    refine if_neg fun htake => ?_
    have hlen := congrArg List.length htake
    cases hlen
  have hne : ∀ c : Byte, c.toNat < 128 → c ≠ BitVec.ofNat 8 (k % 100 + 128) := by
    intro c hc heq
    rw [heq, BitVec.toNat_ofNat] at hc
    omega
  refine ⟨?_, rfl, ?_⟩
  · rw [hbase, mem_singleton]
    exact hne _ (by decide)
  · rw [Input.shortname, hbase]
    split
    · exact Nat.zero_le _
    · exact Nat.succ_le_succ (Nat.zero_le _)

/-- There is room for a few such files. -/
theorem roomy_plain {n : Nat} (hn : n ≤ 200) : Roomy ((List.range n).map plain) := by
  refine ⟨fun f hf => ?_, ?_⟩
  · rcases mem_map.mp hf with ⟨k, -, rfl⟩
    exact ⟨plain_accepted k, Nat.zero_le _⟩
  · have hcost : (((List.range n).map plain).map Input.cost).sum = n * 4 := by
      have heach : Input.cost ∘ plain = fun _ => 4 := rfl
      rw [map_map, heach, map_const', sum_replicate_nat, length_range]
    have hroom : nmeta + 8 + 200 * 4 ≤ FSSIZE := by decide
    omega

def piece (k : Nat) : Chunk where
  bytes := List.replicate 600 (BitVec.ofNat 8 k)
  ne := replicate_succ_ne_nil
  le := by rw [length_replicate]; decide

/-- A file read in thirty pieces, which cross the ends of blocks and reach the indirect block. -/
def large : Input := ⟨[0x61], by decide, some ((List.range 30).map piece)⟩

theorem large_length : large.data.length = 18000 := by
  have heach : (fun c : Chunk => c.bytes.length) ∘ piece = fun _ => 600 :=
    funext fun _ => length_replicate
  show (((List.range 30).map piece).flatMap Chunk.bytes).length = 18000
  rw [length_flatMap, map_map, heach]
  rfl

/-- An empty file and a large one. -/
def mixed : List Input := [plain 0, large]

theorem roomy_mixed : Roomy mixed := by
  refine ⟨fun f hf => ?_, by decide⟩
  rcases mem_pair.mp hf with rfl | rfl
  · exact ⟨plain_accepted 0, Nat.zero_le _⟩
  · exact ⟨⟨by decide, rfl, by decide⟩, by rw [large_length]; decide⟩

theorem wellFormed_main_mixed : ∃ t, main mixed start = .ok ((), t) ∧ WellFormed t.disk := by
  rcases wp_returns (main_built mixed (by decide) (.inl roomy_mixed)) with ⟨_, t, hexit, -⟩
  exact ⟨t, hexit, (wellFormed_main mixed t hexit).1 ⟨by decide, by decide⟩⟩

/-- With 62 files the root directory is one full block, and its size is that of two. -/
theorem not_wellFormed_main :
    ∃ t, main ((List.range 62).map plain) start = .ok ((), t) ∧ ¬ WellFormed t.disk := by
  have hlen : ((List.range 62).map plain).length = 62 := by
    rw [length_map, length_range]
  rcases wp_returns (main_built ((List.range 62).map plain) (by rw [hlen]; decide)
    (.inl (roomy_plain (by decide)))) with ⟨_, t, hexit, m, h, hcount, -, hs⟩
  exact ⟨t, hexit, hs.not_wellFormed_hole h hcount (by rw [hlen]; rfl)⟩

end Xv6.Mkfs
