import Mathlib.Data.List.GetD
import Xv6.Fs.Content
import Xv6.Fs.Path

/-!
# Xv6.Fs.Lookup — what dirlookup finds

A directory is read entry by entry, so `dirlookup` finds the first entry in use that has the
name. Only the blocks up to this entry are read: nothing is said about the rest of the
directory, which may even be missing.
-/

namespace Xv6.Fs

open Lib List

/-- Entry `k` of a directory. -/
def direntAt (d : Dinode) (blk : Nat → Block) (k : Nat) : Dirent :=
  Dirent.decode (contents d blk (k * DESIZE) DESIZE)

/-- The entry is in use and has the name. -/
def Dirent.Matches (de : Dirent) (name : Name) : Prop := de.inum ≠ 0 ∧ de.name = name

/-! ## The bytes of an entry -/

theorem range_getD (name : Name) {n : Nat} (hn : name.length ≤ n) :
    (List.range n).map (fun k => name.getD k 0) =
      name ++ List.replicate (n - name.length) 0 := by
  refine ext_getElem ?_ fun k h₁ h₂ => ?_
  · rw [length_map, length_range, length_append, length_replicate]
    omega
  · rw [getElem_map, getElem_range, getElem_append]
    split
    · next hk => rw [getD_eq_getElem _ _ hk]
    · next hk =>
      rw [getElem_replicate, getD_eq_default]
      omega

/-- An entry is read back as it was written. -/
theorem Dirent.decode_encode {de : Dirent} (hinum : de.inum < 2 ^ 16)
    (hlen : de.name.length ≤ DIRSIZ) (hnul : (0 : Byte) ∉ de.name) :
    Dirent.decode ((List.range DESIZE).map de.encode) = de := by
  have hname : (((List.range DESIZE).map de.encode).drop 2).take DIRSIZ =
      (List.range DIRSIZ).map fun k => de.name.getD k 0 := rfl
  have hnum : ((((List.range DESIZE).map de.encode).getD 0 0).toNat +
      256 * (((List.range DESIZE).map de.encode).getD 1 0).toNat) = de.inum := by
    show (BitVec.ofNat 8 de.inum).toNat + 256 * (BitVec.ofNat 8 (de.inum / 256)).toNat = de.inum
    rw [BitVec.toNat_ofNat, BitVec.toNat_ofNat]
    omega
  have htake : (de.name ++ List.replicate (DIRSIZ - de.name.length) 0).takeWhile
      (fun c => decide (c ≠ 0)) = de.name := by
    rw [takeWhile_append_of_pos]
    · simp
    · intro c hc
      refine decide_eq_true ?_
      rintro rfl
      exact hnul hc
  rw [Dirent.decode, hname, range_getD _ hlen, htake, hnum]

/-! ## dirlookup -/

section
variable {sb : Super} {s : St} {E : Stop → Prop} {d : Dinode} {dp k : Nat} {name : Name}

/-- The entry is below the size, in a block that is there. -/
structure EntryMapped (d : Dinode) (blk : Nat → Block) (k : Nat) : Prop where
  le : (k + 1) * DESIZE ≤ d.size
  lt : k * DESIZE / BSIZE < MAXFILE
  slot : slot d blk (dataSlot (k * DESIZE / BSIZE)) ≠ 0

/-- No entry is in two blocks. -/
theorem entry_block {p : Nat} (hle : k * DESIZE ≤ p) (hlt : p < k * DESIZE + DESIZE) :
    p / BSIZE = k * DESIZE / BSIZE := by
  unfold DESIZE BSIZE at *
  omega

theorem readDirent_spec {e : Stop} (hd : (s.inode dp).d = d) (hsize : d.size < 2 ^ 32)
    (hk : EntryMapped d s.block k) :
    wp E (readDirent sb dp (k * DESIZE) e) (fun r t => r = direntAt d s.block k ∧ t = s) s := by
  have hle := hk.le
  rw [Nat.add_mul, Nat.one_mul] at hle
  have hlen : readLen d.size (k * DESIZE) DESIZE = DESIZE := by
    rw [readLen, if_pos (by omega)]
    omega
  rw [readDirent]
  refine wp_call (readi_mapped hd (by decide) hsize fun p hp hlt => ?_) fun r t hr => ?_
  · rw [hlen] at hlt
    rw [entry_block hp hlt]
    exact ⟨hk.lt, hk.slot⟩
  rcases hr with ⟨rfl, hr⟩
  rw [hr fun _ _ => rfl, hlen]
  have hbytes : (contents d t.block (k * DESIZE) DESIZE).length = DESIZE := by
    rw [contents, length_map, length_range]
  show wp E (if _ then _ else _) _ t
  rw [if_neg (not_not_intro hbytes), wp_pure]
  exact ⟨rfl, rfl⟩

-- the first entry with the name
variable {Q : Option (Nat × Nat) → St → Prop} (hd : (s.inode dp).d = d) (hsize : d.size < 2 ^ 32)
  (hmap : ∀ j ≤ k, EntryMapped d s.block j) (hfound : (direntAt d s.block k).Matches name)
  (hfirst : ∀ j < k, ¬ (direntAt d s.block j).Matches name)
  (hQ : wp E (iget sb (direntAt d s.block k).inum)
    (fun _ => Q (some ((direntAt d s.block k).inum, k * DESIZE))) s)
include hd hsize hmap hfound hfirst hQ

/-- From entry `j` on, the loop comes to entry `k`. -/
theorem dirlookup_loop_spec (fuel : Nat) {j : Nat} (hj : j ≤ k) (hfuel : k < j + fuel) :
    wp E (dirlookup.loop sb dp d.size name fuel (j * DESIZE)) Q s := by
  induction fuel generalizing j with
  | zero => omega
  | succ fuel ih =>
    have hlt : j * DESIZE < d.size := by
      have hle := (hmap j hj).le
      unfold DESIZE at *
      omega
    rw [dirlookup.loop, if_neg (by omega)]
    refine wp_call (readDirent_spec hd hsize (hmap j hj)) fun de t hde => ?_
    rcases hde with ⟨rfl, rfl⟩
    refine wp_if (fun hmatch => ?_) fun hno => ?_
    · have hjk : j = k := by
        by_contra hne
        exact hfirst j (by omega) hmatch
      subst hjk
      exact wp_call hQ fun _ u hu => wp_ret hu
    · have hne : j ≠ k := by
        rintro rfl
        exact hno hfound
      have hnext : j * DESIZE + DESIZE = (j + 1) * DESIZE := by rw [Nat.add_mul, Nat.one_mul]
      rw [hnext]
      exact ih (by omega) (by omega)

/-- `dirlookup` finds the first entry with the name. -/
theorem dirlookup_spec (hdir : d.type = .dir) : wp E (dirlookup sb dp name) Q s := by
  rw [dirlookup, wp_bind, wp_get, hd, if_neg (not_not_intro hdir)]
  have hloop := dirlookup_loop_spec hd hsize hmap hfound hfirst hQ (d.size / DESIZE + 1)
    (Nat.zero_le k) (by
      have hle := (hmap k (Nat.le_refl k)).le
      unfold DESIZE at *
      omega)
  rwa [Nat.zero_mul] at hloop

end

end Xv6.Fs
