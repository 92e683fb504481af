import Mathlib.Data.List.Nodup
import Xv6.Mkfs.WellFormed

/-!
# Xv6.Mkfs.ReadBack — the kernel reads the files that mkfs wrote

A file is looked up in the root directory of a finished image and read, with the kernel's
`dirlookup` and `readi`. It is the file of this name on the command line, unless its name in
the image is that of one of the two entries that mkfs has put before it.
-/

namespace Xv6.Mkfs

open Lib Fs Function List

/-- The superblock that the kernel works with. -/
def kernelSb : Super := { wide with ninodes := NINODES, ninodes_le := by decide }

/-- Look up a name in the root directory, and read up to `n` bytes of the file from its start:
its size, and the bytes. -/
def readFile (sb : Super) (name : Name) (n : Nat) : F (Option (Nat × List Byte)) := do
  iget sb ROOTINO
  ilock ROOTINO
  match ← dirlookup sb ROOTINO name with
  | none => return none
  | some (ip, _) =>
    iunlock ROOTINO
    ilock ip
    let size := ((← get).inode ip).d.size
    let bytes ← readi sb ip (fun _ => true) 0 n
    return bytes.map fun bytes => (size, bytes)

section
variable {s : Fs.St} {E : Stop → Prop} {i : Nat}

/-! ## The inode table -/

theorem iget_new {sb : Super} (href : (s.inode i).ref = 0) (hroom : s.used sb < NINODE) :
    wp E (iget sb i) (fun _ t => t =
      { s with
        inode := update s.inode i { s.inode i with ref := 1, valid := false } }) s := by
  rw [iget, wp_bind, wp_get, if_neg (by omega), if_neg (by omega), wp_setInode]

theorem ilock_new (href : (s.inode i).ref = 1) (hlocked : (s.inode i).locked = false)
    (hvalid : (s.inode i).valid = false) (htype : (s.dinode i).type ≠ .none) :
    wp E (ilock i) (fun _ t => t =
      { s with inode := update s.inode i ⟨1, true, true, s.dinode i⟩ }) s := by
  rw [ilock, wp_bind, wp_get, if_neg (by omega), if_neg (by rw [hlocked]; decide),
    if_neg (by rw [hvalid]; decide), wp_bind, wp_setInode, if_neg htype, wp_pure, href]

theorem iunlock_held (href : 0 < (s.inode i).ref) (hlocked : (s.inode i).locked = true) :
    wp E (iunlock i) (fun _ t => t =
      { s with inode := update s.inode i { s.inode i with locked := false } }) s := by
  rw [iunlock, wp_bind, wp_get, if_neg, wp_setInode]
  rintro (hfree | hzero)
  · rw [hlocked] at hfree
    cases hfree
  · omega

/-- At most one entry is in use. -/
theorem used_lt {sb : Super} {r : Nat} (h : ∀ i ≠ r, (s.inode i).ref = 0) :
    s.used sb < NINODE := by
  have hle : s.used sb ≤ (List.range sb.ninodes).count r := by
    refine countP_mono_left fun i _ hi => ?_
    by_contra hne
    have hir : i ≠ r := fun he => hne (by rw [he]; exact beq_self_eq_true r)
    rw [h i hir] at hi
    cases hi
  have hone := nodup_iff_count_le_one.mp (nodup_range (n := sb.ninodes)) r
  have hsize : 1 < NINODE := by decide
  omega

end

section
variable {m t : St} {files : List Input} {f : Input} {E : Stop → Prop} {j k n : Nat}

/-! ## The lookup -/

/-- The entry of a file. -/
theorem rootEntries_file (hk : files[k]? = some f) :
    (rootEntries files)[k + 2]? = some ⟨k + 2, f.shortname⟩ := by
  simp [rootEntries, hk]

/-- No entry before it has its name. -/
theorem rootEntries_first (hdistinct : (files.map Input.shortname).Nodup)
    (hdots : f.shortname ≠ dot ∧ f.shortname ≠ dotdot) (hk : files[k]? = some f) (hj : j < k + 2)
    {de : Dirent} (hde : (rootEntries files)[j]? = some de) : de.name ≠ f.shortname := by
  match j with
  | 0 =>
    cases hde
    exact hdots.1.symm
  | 1 =>
    cases hde
    exact hdots.2.symm
  | j + 2 =>
    have hlt : k < files.length := (List.getElem?_eq_some_iff.mp hk).1
    have hjlt : j < files.length := by omega
    simp only [rootEntries, getElem?_cons_succ, getElem?_mapIdx,
      getElem?_eq_getElem hjlt, Option.map_some, Option.some.injEq] at hde
    rw [getElem?_eq_getElem hlt, Option.some.injEq] at hk
    rw [← hde, ← hk]
    intro heq
    have hinj := (@List.Nodup.getElem_inj_iff _ _ hdistinct _ (by rwa [length_map]) _
      (by rwa [length_map])).mp
      ((getElem_map _).trans (heq.trans (getElem_map _).symm))
    omega

/-- The mounted image with the root directory locked. -/
def atRoot (disk : Nat → Block) : Fs.St :=
  { mount disk with
    inode := update (mount disk).inode ROOTINO
      ⟨1, true, true, (mount disk).dinode ROOTINO⟩ }

/-- The first two steps. -/
theorem readFile_atRoot {Q : Option (Nat × List Byte) → Fs.St → Prop} {name : Name}
    (htype : ((mount t.disk).dinode ROOTINO).type = .dir)
    (h : wp E (dirlookup kernelSb ROOTINO name) (fun r s => wp E (match r with
      | none => return none
      | some (ip, _) => do
        iunlock ROOTINO
        ilock ip
        let size := ((← get).inode ip).d.size
        let bytes ← readi kernelSb ip (fun _ => true) 0 n
        return bytes.map fun bytes => (size, bytes)) Q s) (atRoot t.disk)) :
    wp E (readFile kernelSb name n) Q (mount t.disk) := by
  rw [readFile]
  refine wp_call (iget_new rfl (used_lt (r := ROOTINO) fun _ _ => rfl)) fun _ s hs => ?_
  subst hs
  refine wp_call (ilock_new (by simp only [update_self])
    (by simp only [update_self]; rfl) (by simp only [update_self]) ?_)
    fun _ s hs => ?_
  · show ((mount t.disk).dinode ROOTINO).type ≠ .none
    rw [htype]
    decide
  · rw [update_idem] at hs
    subst hs
    rw [wp_bind]
    exact h

section
variable (hs : Sealed m t) (h : Built m (dataOf files)) (hcount : m.freeinode = files.length + 2)
include hs h hcount

theorem Sealed.root_dir : ((mount t.disk).dinode ROOTINO).type = .dir := by
  rw [(hs.addrs_eq h (by decide)).2, h.type, typeAt, if_neg (by unfold ROOTINO; omega),
    if_pos rfl]

/-- `dirlookup` of an entry that is the first one with its name. -/
theorem Sealed.dirlookup_root {Q : Option (Nat × Nat) → Fs.St → Prop} {name : Name} {inum : Nat}
    (hacc : ∀ f ∈ files, f.Accepted) (hk : (rootEntries files)[k]? = some ⟨inum, name⟩)
    (hfirst : ∀ j < k, ∀ de, (rootEntries files)[j]? = some de → de.name ≠ name)
    (hQ : wp E (iget kernelSb inum) (fun _ => Q (some (inum, k * DESIZE))) (atRoot t.disk)) :
    wp E (dirlookup kernelSb ROOTINO name) Q (atRoot t.disk) := by
  rcases List.getElem?_eq_some_iff.mp hk with ⟨hlt, heq⟩
  have hlen := length_rootEntries files
  have hentry := hs.root_entry h hcount hacc hlt
  rw [heq] at hentry
  have hinum : inum = if k = 0 then ROOTINO else k := by
    rw [← rootEntries_inum hlt, heq]
  refine dirlookup_spec (d := (mount t.disk).dinode ROOTINO) (k := k)
    (by simp only [atRoot, update_self]) (getDinode_fits _ _).size
    (fun j hj => hs.root_mapped h hcount (by omega)) ?_ (fun j hj hmatch => ?_) ?_
    (hs.root_dir h hcount)
  · show (direntAt ((mount t.disk).dinode ROOTINO) t.disk k).Matches name
    rw [hentry]
    refine ⟨?_, rfl⟩
    show inum ≠ 0
    rw [hinum]
    unfold ROOTINO
    split <;> omega
  · have hjlt : j < (rootEntries files).length := by omega
    change (direntAt ((mount t.disk).dinode ROOTINO) t.disk j).Matches name at hmatch
    rw [hs.root_entry h hcount hacc hjlt] at hmatch
    exact hfirst j hj _ (getElem?_eq_getElem hjlt) hmatch.2
  · show wp E (iget kernelSb (direntAt ((mount t.disk).dinode ROOTINO) t.disk k).inum)
      (fun _ => Q (some ((direntAt ((mount t.disk).dinode ROOTINO) t.disk k).inum, _))) _
    rw [hentry]
    exact hQ

/-! ## The file -/

/-- The contents of an inode other than the root are what was written. -/
theorem Sealed.file_contents (hn : files.length + 2 ≤ NINODES) (hk : files[k]? = some f) :
    ((mount t.disk).dinode (k + 2)).type ≠ .none ∧
    ((mount t.disk).dinode (k + 2)).size = f.data.length ∧
    Full ((mount t.disk).dinode (k + 2)) t.disk ∧
    contents ((mount t.disk).dinode (k + 2)) t.disk 0 f.data.length = f.data := by
  have hlt : k < files.length := (List.getElem?_eq_some_iff.mp hk).1
  have hi : k + 2 < ninodeblocks * IPB :=
    lt_of_lt_of_le (by omega : k + 2 < NINODES) (by decide)
  have hfree : k + 2 < m.freeinode := by omega
  have htype := h.allocated (i := k + 2) (by omega) hfree
  have hdata : dataOf files (k + 2) = f.data := by
    simp [dataOf, hk]
  have hd := hs.dinode_eq h hi (by unfold ROOTINO; omega)
  have hsize := h.size (k + 2) (by omega) hfree
  have hbytes := h.bytes (k + 2) (by omega) hfree
  rw [hdata] at hsize hbytes
  have hfull := h.inv.full _ htype
  refine ⟨by rwa [hd], by rw [hd, hsize], fun bn hbn => ?_, ?_⟩
  · rw [hs.slot_eq h hi htype]
    rw [hd] at hbn
    exact hfull bn hbn
  · refine (contents_congr fun e he => ?_).trans hbytes
    exact hs.content_eq h hi htype (hfull.mapped (by omega)).2

theorem Sealed.readFile_file (hacc : ∀ f ∈ files, f.Accepted) (hn : files.length + 2 ≤ NINODES)
    (hdistinct : (files.map Input.shortname).Nodup)
    (hdots : f.shortname ≠ dot ∧ f.shortname ≠ dotdot) (hk : files[k]? = some f)
    (hlen : f.data.length ≤ n) (hn32 : n < 2 ^ 32) :
    wp E (readFile kernelSb f.shortname n) (fun r _ => r = some (f.data.length, f.data))
      (mount t.disk) := by
  rcases hs.file_contents h hcount hn hk with ⟨htype, hsize, hfull, hbytes⟩
  have hne : k + 2 ≠ ROOTINO := by
    unfold ROOTINO
    omega
  refine readFile_atRoot (hs.root_dir h hcount) (hs.dirlookup_root h hcount hacc
    (rootEntries_file hk) (fun j hj de hde => rootEntries_first hdistinct hdots hk hj hde) ?_)
  refine wp_mono (iget_new (by simp only [atRoot, update_of_ne hne]; rfl)
    (used_lt (r := ROOTINO) fun j hj => ?_)) fun _ s₁ h₁ => ?_
  · simp only [atRoot, update_of_ne hj]
    rfl
  subst h₁
  refine wp_call (iunlock_held (by simp [atRoot, update_of_ne hne.symm])
    (by simp [atRoot, update_of_ne hne.symm])) fun _ s₂ h₂ => ?_
  subst h₂
  refine wp_call (ilock_new (by simp [update_of_ne hne])
    (by simp [atRoot, mount, update_of_ne hne]) (by simp [update_of_ne hne])
    htype) fun _ s₃ h₃ => ?_
  subst h₃
  rw [wp_bind, wp_get, wp_bind]
  simp only [update_self]
  -- the whole file is read
  have hread : readLen ((mount t.disk).dinode (k + 2)).size 0 n = f.data.length := by
    rw [readLen, if_pos (by omega), hsize]
    omega
  refine wp_mono (readi_mapped (d := (mount t.disk).dinode (k + 2))
    (by simp only [update_self]; rfl) hn32 (getDinode_fits _ _).size
    fun p _ hp => hfull.mapped (by omega)) fun r s₄ hr => ?_
  rcases hr with ⟨-, hr⟩
  rw [hr fun _ _ => rfl, wp_pure, hread]
  show some _ = _
  rw [show ((atRoot t.disk).dinode (k + 2)).size = f.data.length from hsize]
  exact congrArg (fun l => some (f.data.length, l)) hbytes

end

/-- Each file of an image, whose names are distinct and not those of the two first entries, is
found in the root directory and read back, with its size. -/
theorem readFile_main (files : List Input) (t : St) (hexit : main files start = .ok ((), t))
    (hn : files.length ≤ NINODES - 2) (hdistinct : (files.map Input.shortname).Nodup)
    (hdots : ∀ f ∈ files, f.shortname ≠ dot ∧ f.shortname ≠ dotdot) (f : Input) (hf : f ∈ files)
    (n : Nat) (hlen : f.data.length ≤ n) (hn32 : n < 2 ^ 32) :
    ∃ s, readFile kernelSb f.shortname n (mount t.disk) =
      .ok (some (f.data.length, f.data), s) := by
  have hle : files.length + 2 ≤ NINODES := by
    have hpos : 2 ≤ NINODES := by decide
    omega
  rcases (wp_of_eq hexit).mp (main_built (E := fun _ => True) files
    (le_trans hle (by decide)) (.inr fun _ => trivial)) with ⟨m, h, hcount, hacc, hs⟩
  rcases getElem?_of_mem hf with ⟨k, hk⟩
  rcases wp_returns (hs.readFile_file h hcount hacc hle hdistinct (hdots f hf) hk hlen hn32) with
    ⟨r, s, hrun, rfl⟩
  exact ⟨s, hrun⟩

end

/-- A file that goes past the direct blocks is read back. -/
theorem readFile_main_mixed : NDIRECT * BSIZE < large.data.length ∧
    ∃ t s, main mixed start = .ok ((), t) ∧
      readFile kernelSb large.shortname 20000 (mount t.disk) = .ok (some (18000, large.data), s) := by
  refine ⟨by rw [large_length]; decide, ?_⟩
  rcases wp_returns (main_built mixed (by decide) (.inl roomy_mixed)) with ⟨_, t, hexit, -⟩
  rcases readFile_main mixed t hexit (by decide) (by decide) (by decide) large (by simp [mixed])
    20000 (by rw [large_length]; decide) (by decide) with ⟨s, hs⟩
  rw [large_length] at hs
  exact ⟨t, s, hexit, hs⟩

/-- A file called `_.`, without contents. -/
def dotFile : Input := ⟨[0x5f, 0x2e], by decide, some []⟩

/-- Its name in the image is that of the root directory's own entry: what is found is the root
directory, with its size of one block. -/
theorem readFile_main_dot : ∃ t s, main [dotFile] start = .ok ((), t) ∧
    readFile kernelSb dotFile.shortname 0 (mount t.disk) = .ok (some (BSIZE, []), s) ∧
    dotFile.data.length = 0 := by
  have hroomy : Roomy [dotFile] := by
    refine ⟨fun f hf => ?_, by decide⟩
    rw [mem_singleton] at hf
    subst hf
    exact ⟨⟨by decide, rfl, by decide⟩, by decide⟩
  rcases wp_returns (main_built [dotFile] (by decide) (.inl hroomy)) with
    ⟨_, t, hexit, m, h, hcount, hacc, hs⟩
  have hread : wp (fun _ => False) (readFile kernelSb dotFile.shortname 0)
      (fun r _ => r = some (BSIZE, [])) (mount t.disk) := by
    refine readFile_atRoot (hs.root_dir h hcount) (hs.dirlookup_root (k := 0)
      h hcount hacc rfl (fun j hj => absurd hj (Nat.not_lt_zero j)) ?_)
    -- the root has a second reference now, and its copy is in the table
    have hroot : (atRoot t.disk).inode ROOTINO =
        ⟨1, true, true, (mount t.disk).dinode ROOTINO⟩ := by
      simp only [atRoot, update_self]
    rw [iget, wp_bind, wp_get, hroot, if_pos Nat.one_pos, wp_setInode, hroot]
    refine wp_call (iunlock_held (by simp) (by simp)) fun _ s hs => ?_
    subst hs
    rw [wp_bind, ilock, wp_bind, wp_get]
    simp only [update_self, update_idem]
    rw [if_neg (by decide), if_neg (by decide), if_pos trivial, wp_setInode, wp_bind, wp_get,
      wp_bind]
    simp only [update_self, update_idem]
    refine wp_mono (readi_mapped (d := (mount t.disk).dinode ROOTINO)
      (by simp only [update_self]) (by decide) (getDinode_fits _ _).size
      fun p _ hp => absurd hp ?_) fun r u hr => ?_
    · simp [readLen]
    rcases hr with ⟨-, hr⟩
    rw [hr fun _ _ => rfl, wp_pure]
    have hsize : ((mount t.disk).dinode ROOTINO).size = BSIZE := by
      rw [hs.dinode_root h]
      show ((m.abs.dinode ROOTINO).size / BSIZE + 1) * BSIZE = BSIZE
      rw [h.root_size hcount]
      rfl
    simp [readLen, hsize, contents]
  rcases wp_returns hread with ⟨r, s, hrun, rfl⟩
  exact ⟨t, s, hexit, hrun, rfl⟩

end Xv6.Mkfs
