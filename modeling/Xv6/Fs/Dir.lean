import Xv6.Fs.Node
import Xv6.Fs.Table

/-!
# Xv6.Fs.Dir — a directory is a finite map

The loops over the entries of a directory, and the two ways an entry is written. Blocks are a
multiple of `DESIZE`, so an entry is in one block: it is written as a whole or not at all, and
when the disk is full nothing has changed that can be seen.
-/

namespace Xv6.Fs

open Lib Function List

section
variable {sb : Super} {v w : Nat → Dinode} {s t : St} {E : Stop → Prop} {d : Dinode}
  {blk : Nat → Block} {dp j k : Nat} {name : Name}

/-! ## Reading -/

theorem length_bytes (d : Dinode) (blk : Nat → Block) : (d.bytes blk).length = d.size :=
  length_contents

theorem direntAt_eq (hk : k < (d.bytes blk).length / DESIZE) :
    direntAt d blk k = entryAt (d.bytes blk) k := by
  rw [length_bytes] at hk
  unfold direntAt entryAt Dinode.bytes
  rw [contents_piece]
  unfold DESIZE at *
  omega

/-- The entries are in blocks that are there. -/
theorem Full.entry (h : Full d blk) (hk : k < (d.bytes blk).length / DESIZE) :
    EntryMapped d blk k := by
  rw [length_bytes] at hk
  have hlt : k * DESIZE < d.size := by
    unfold DESIZE at *
    omega
  obtain ⟨hmax, hslot⟩ := h.mapped hlt
  refine ⟨?_, hmax, hslot⟩
  unfold DESIZE at *
  omega

/-- The directory `dp` is in memory, and its entries are `bytes`. -/
structure IsDir (sb : Super) (v : Nat → Dinode) (s : St) (dp : Nat) (bytes : List Byte) : Prop where
  inv : Inv sb v s
  live : (s.inode dp).Live
  type : (v dp).type = .dir
  holds : (v dp).bytes s.block = bytes
  align : Aligned bytes

variable {bytes : List Byte}

section
variable (h : IsDir sb v s dp bytes)
include h

theorem IsDir.copy : (s.inode dp).d = v dp := (h.inv.copy dp h.live).1

theorem IsDir.full : Full (v dp) s.block :=
  h.inv.full dp (h.inv.copy dp h.live).2

theorem IsDir.size : (v dp).size = bytes.length := by
  rw [← h.holds, length_bytes]

theorem IsDir.read {e : Stop} (hk : k < bytes.length / DESIZE) :
    wp E (readDirent sb dp (k * DESIZE) e) (fun r t => r = entryAt bytes k ∧ t = s) s := by
  have hsize : (v dp).size < 2 ^ 32 := by
    have hle := h.full.size_le
    have hmax : MAXFILE * BSIZE < 2 ^ 32 := by decide
    omega
  have hk' : k < ((v dp).bytes s.block).length / DESIZE := by rwa [h.holds]
  refine wp_mono (readDirent_spec h.copy hsize (h.full.entry hk')) fun r t hr => ?_
  rwa [direntAt_eq hk', h.holds] at hr

/-- The offsets of the loops. -/
theorem IsDir.end_iff : bytes.length ≤ k * DESIZE ↔ bytes.length / DESIZE ≤ k := by
  obtain ⟨n, hn⟩ := h.align
  rw [hn]
  unfold DESIZE
  omega

end

theorem next_entry (k : Nat) : k * DESIZE + DESIZE = (k + 1) * DESIZE := by
  rw [Nat.add_mul, Nat.one_mul]

section
variable (h : IsDir sb v s dp bytes)
include h

section
variable {Q : Option (Nat × Nat) → St → Prop} (hnone : (entries bytes).lookup name = none → Q none s)
  (hsome : ∀ inum k, (entries bytes).lookup name = some (inum, k) →
    wp E (iget sb inum) (fun _ => Q (some (inum, k * DESIZE))) s)
include hnone hsome

theorem IsDir.dirlookup_loop (fuel : Nat) (hfuel : bytes.length / DESIZE < k + fuel)
    (hbefore : ∀ i < k, ∀ c, ¬ (entries bytes).Has i name c) :
    wp E (dirlookup.loop sb dp bytes.length name fuel (k * DESIZE)) Q s := by
  induction fuel generalizing k with
  | zero =>
    refine wp_ret (hnone (Slots.lookup_eq_none.mpr fun i c hi => ?_))
    exact hbefore i (by have := (has_entries.mp hi).1; omega) c hi
  | succ fuel ih =>
    rw [dirlookup.loop, wp_ite, h.end_iff]
    refine ⟨fun hend => ?_, fun hlt => ?_⟩
    · refine wp_ret (hnone (Slots.lookup_eq_none.mpr fun i c hi => ?_))
      exact hbefore i (by have := (has_entries.mp hi).1; omega) c hi
    have hk : k < bytes.length / DESIZE := lt_of_not_ge hlt
    refine wp_call (h.read hk) fun de t hde => ?_
    obtain ⟨rfl, rfl⟩ := hde
    refine wp_if (fun hmatch => ?_) fun hno => ?_
    · have hhas : (entries bytes).Has k name (entryAt bytes k).inum := by
        refine has_entries.mpr ⟨hk, ?_, hmatch.1⟩
        rw [← hmatch.2]
      exact wp_call (hsome _ k (Slots.lookup_eq_some.mpr ⟨hhas, hbefore⟩)) fun _ u hu =>
        wp_ret hu
    · rw [next_entry]
      refine ih (by omega) fun i hi c hc => ?_
      by_cases hik : i = k
      · rw [hik, has_entries] at hc
        exact hno (by rw [hc.2.1]; exact ⟨hc.2.2, rfl⟩)
      · exact hbefore i (by omega) c hc

/-- `dirlookup` finds the first entry with the name. -/
theorem IsDir.dirlookup : wp E (dirlookup sb dp name) Q s := by
  rw [Fs.dirlookup, wp_bind, wp_get, h.copy, if_neg (not_not_intro h.type), h.size]
  have hloop := h.dirlookup_loop (k := 0) hnone hsome (bytes.length / DESIZE + 1) (by omega)
    fun i hi => absurd hi (Nat.not_lt_zero i)
  rwa [Nat.zero_mul] at hloop

end

theorem IsDir.emptyEntry_loop (fuel : Nat) (hfuel : bytes.length / DESIZE < k + fuel)
    (hk : k ≤ (entries bytes).free) :
    wp E (emptyEntry sb dp bytes.length fuel (k * DESIZE))
      (fun off t => off = (entries bytes).free * DESIZE ∧ t = s) s := by
  have hfree : (entries bytes).free ≤ _ := free_entries_le
  induction fuel generalizing k with
  | zero => omega
  | succ fuel ih =>
    rw [Fs.emptyEntry, wp_ite, h.end_iff]
    refine ⟨fun hend => wp_ret ⟨?_, rfl⟩, fun hlt => ?_⟩
    · rw [show k = (entries bytes).free by omega]
    have hlt' : k < bytes.length / DESIZE := lt_of_not_ge hlt
    refine wp_call (h.read hlt') fun de t hde => ?_
    obtain ⟨rfl, rfl⟩ := hde
    refine wp_if (fun hzero => wp_ret ⟨?_, rfl⟩) fun hused => ?_
    · -- the slots before the first empty one are in use
      by_contra hne
      have hbefore : k < (entries bytes).free := by
        by_contra hge
        exact hne (by rw [show k = (entries bytes).free by omega])
      obtain ⟨n, c, hhas⟩ := Slots.has_of_lt_free hbefore
      rw [has_entries] at hhas
      rw [hhas.2.1] at hzero
      exact hhas.2.2 hzero
    · have hne : k ≠ (entries bytes).free := by
        intro heq
        refine Slots.not_has_free (l := entries bytes) (k := (entryAt bytes k).name)
          (b := (entryAt bytes k).inum) ?_
        rw [← heq]
        exact has_entries.mpr ⟨hlt', rfl, hused⟩
      rw [next_entry]
      exact ih (by omega) (by omega)

/-- The loop of `dirlink` finds the first empty entry, or the end. -/
theorem IsDir.emptyEntry : wp E (emptyEntry sb dp bytes.length (bytes.length / DESIZE + 1) 0)
    (fun off t => off = (entries bytes).free * DESIZE ∧ t = s) s := by
  have hloop := h.emptyEntry_loop (E := E) (k := 0) (bytes.length / DESIZE + 1) (by omega)
    (Nat.zero_le _)
  rwa [Nat.zero_mul] at hloop

theorem IsDir.isdirempty_loop (fuel : Nat) (hfuel : bytes.length / DESIZE < k + fuel) :
    wp E (isdirempty.loop sb dp bytes.length fuel (k * DESIZE))
      (fun r t => r = ((entries bytes).drop k).all Option.isNone ∧ t = s) s := by
  have hdone : bytes.length / DESIZE ≤ k → ((entries bytes).drop k).all Option.isNone = true := by
    intro hend
    rw [drop_eq_nil_of_le (by rwa [length_entries])]
    rfl
  induction fuel generalizing k with
  | zero => exact wp_ret ⟨(hdone (by omega)).symm, rfl⟩
  | succ fuel ih =>
    rw [isdirempty.loop, wp_ite, h.end_iff]
    refine ⟨fun hend => wp_ret ⟨(hdone hend).symm, rfl⟩, fun hlt => ?_⟩
    have hk : k < bytes.length / DESIZE := lt_of_not_ge hlt
    have hget : k < (entries bytes).length := by rwa [length_entries]
    have hslot : (entries bytes)[k] = (entryAt bytes k).slot :=
      Option.some.inj ((getElem?_eq_getElem hget).symm.trans (getElem?_entries hk))
    rw [wp_bind, drop_eq_getElem_cons hget, all_cons, hslot]
    refine wp_mono (h.read hk) fun de t hde => ?_
    obtain ⟨rfl, rfl⟩ := hde
    refine wp_if (fun hused => wp_ret ⟨?_, rfl⟩) fun hzero => ?_
    · rw [Dirent.slot, if_neg hused]
      rfl
    · rw [Dirent.slot, if_pos (not_not.mp hzero), next_entry]
      refine wp_mono (ih (by omega) fun hend => ?_) fun r u hr => hr
      rw [drop_eq_nil_of_le (by rwa [length_entries])]
      rfl

theorem IsDir.isdirempty : wp E (isdirempty sb dp) (fun r t => r = emptyDir bytes ∧ t = s) s := by
  rw [Fs.isdirempty, wp_bind, wp_get, h.copy, h.size]
  exact h.isdirempty_loop (bytes.length / DESIZE + 1) (by omega)

end

/-! ## Writing -/

/-- The references, the locks and the copies that are in use are kept. -/
structure Kept (s t : St) : Prop where
  ref : ∀ i, (t.inode i).ref = (s.inode i).ref
  locked : ∀ i, (t.inode i).locked = (s.inode i).locked
  valid : ∀ i, 0 < (s.inode i).ref → (t.inode i).valid = (s.inode i).valid

/-- An entry of the locked directory `dp` has been written, or was to be written. -/
structure DirWritten (sb : Super) (dp : Nat) (v : Nat → Dinode) (s : St) (w : Nat → Dinode)
    (t : St) : Prop where
  inv : Inv sb w t
  kept : Kept s t
  other : ∀ j, j ≠ dp → w j = v j
  fields : w dp = { v dp with size := (w dp).size, addrs := (w dp).addrs }
  disk : ∀ j, s.dinode j = v j → t.dinode j = w j
  bytes : ∀ j, j ≠ dp → (v j).type ≠ .none → (w j).bytes t.block = (v j).bytes s.block

theorem Kept.refl (s : St) : Kept s s := ⟨fun _ => rfl, fun _ => rfl, fun _ _ => rfl⟩

theorem Kept.setCopy (s : St) (i : Nat) (d : Dinode) {t : St}
    (h : t.inode = update s.inode i { s.inode i with d := d }) : Kept s t := by
  refine ⟨fun j => ?_, fun j => ?_, fun j _ => ?_⟩
  all_goals
    rw [h]
    exact update_field _ (by rfl) j

theorem place_nil {old : List Byte} {off : Nat} : place old off [] = old := by
  rw [place, append_nil, length_nil, Nat.add_zero, take_append_drop]

theorem DirWritten.refl (h : Inv sb v s) : DirWritten sb dp v s v s :=
  ⟨h, .refl s, fun _ _ => rfl, rfl, fun _ hj => hj, fun _ _ _ => rfl⟩

theorem Written.dirWritten {off n m e : Nat} {src : Nat → Option Byte}
    (h : Written (fun _ => True) sb dp off n m e src v s w t) (hinv : Inv sb v s) :
    DirWritten sb dp v s w t := by
  refine ⟨h.inv, .setCopy s dp _ h.table, h.other, ?_, fun j hj => ?_, fun j hj hjt =>
    h.other_bytes hj hjt (hinv.full j hjt)⟩
  · rw [h.fields]
  · rw [h.dinode]
    by_cases hjd : j = dp
    · rw [hjd, update_self]
    · rw [update_of_ne hjd, hj, h.other j hjd]

theorem DirWritten.locked (h : DirWritten sb dp v s w t) (hl : Locked v s j) : Locked w t j := by
  refine ⟨⟨?_, ?_⟩, ?_, h.disk j hl.disk⟩
  · rw [h.kept.ref]
    exact hl.live.1
  · rw [h.kept.valid j hl.live.1]
    exact hl.live.2
  · rw [h.kept.locked]
    exact hl.locked

theorem DirWritten.isDir {bytes' : List Byte} (h : DirWritten sb dp v s w t)
    (hd : IsDir sb v s dp bytes) (hbytes : (w dp).bytes t.block = bytes')
    (halign : Aligned bytes') : IsDir sb w t dp bytes' := by
  refine ⟨h.inv, ⟨?_, ?_⟩, ?_, hbytes, halign⟩
  · rw [h.kept.ref]
    exact hd.live.1
  · rw [h.kept.valid dp hd.live.1]
    exact hd.live.2
  · rw [h.fields]
    exact hd.type

/-- An entry is written as a whole or not at all. -/
theorem Written.whole {m e : Nat} {new : Nat → Byte} (h : IsDir sb v s dp bytes)
    (hw : Written (fun _ => True) sb dp (k * DESIZE) DESIZE m e (fun i => some (new i)) v s w t) :
    m = e ∧ (m = DESIZE ∨ m = 0 ∧ bytes.length / DESIZE ≤ k) := by
  have hsize : (w dp).size = max bytes.length (k * DESIZE + m) := by rw [hw.fields, h.size]
  have hdir : (w dp).type ≠ .none := by
    rw [hw.fields, h.type]
    nofun
  cases hw.ended with
  | done hm he => exact ⟨by omega, .inl hm⟩
  | full hm he hnone hfull =>
    -- a block below the size is there
    have hout : ∀ p, k * DESIZE ≤ p → p < k * DESIZE + DESIZE → (w dp).size ≤ p := by
      intro p hle hlt
      by_contra hin
      have hslot := ((hw.inv.full dp hdir).mapped (lt_of_not_ge hin)).2
      rw [entry_block hle hlt, ← entry_block (p := k * DESIZE + m) (by omega) (by omega)] at hslot
      exact hslot hnone
    have hend := hout (k * DESIZE) le_rfl (by unfold DESIZE; omega)
    refine ⟨he.symm, .inr ⟨by omega, ?_⟩⟩
    unfold DESIZE at *
    omega
  | fault hm hstart hread he =>
    rw [readable_all fun _ _ => rfl] at hread
    exact absurd hread (lt_irrefl _)

/-- `writei` of an entry, which succeeds if there is one already. -/
theorem IsDir.writeDirent {new : Nat → Byte} (h : IsDir sb v s dp bytes) (hlock : Locked v s dp)
    (hk : k ≤ bytes.length / DESIZE) :
    wp E (writeDirent sb dp (k * DESIZE) new) (fun ok t => ∃ w, DirWritten sb dp v s w t ∧
      (w dp).bytes t.block = (if ok then place bytes (k * DESIZE) ((List.range DESIZE).map new)
        else bytes) ∧ (k < bytes.length / DESIZE → ok = true)) s := by
  have hi : (v dp).type ≠ .none := by
    rw [h.type]
    nofun
  have hoff : k * DESIZE ≤ bytes.length :=
    le_trans (Nat.mul_le_mul_right _ hk) (Nat.div_mul_le_self _ _)
  rw [Fs.writeDirent]
  refine wp_call (writei_spec h.inv trivial hlock.live hlock.locked (by decide)) fun r t hr => ?_
  rw [wp_pure]
  obtain ⟨rfl, rfl, hbad⟩ | ⟨m, e, w, rfl, hm, hle, -, hw⟩ := hr
  · rw [h.size] at hbad
    refine ⟨v, .refl h.inv, h.holds, fun hlt => ?_⟩
    have hmax := h.full.size_le
    rw [h.size] at hmax
    unfold DESIZE at *
    omega
  · obtain ⟨rfl, hwhole⟩ := hw.whole h
    refine ⟨w, hw.dirWritten h.inv, ?_, fun hlt => ?_⟩
    · obtain rfl | ⟨rfl, -⟩ := hwhole
      · rw [hw.bytes_eq (l := (List.range DESIZE).map new) h.full hi hle
          (by rw [length_map, length_range]) (fun i hi => by
            rw [getElem_map, getElem_range]), h.holds]
        rfl
      · rw [hw.bytes_eq (l := []) h.full hi hle rfl nofun, place_nil, h.holds]
        rfl
    · obtain rfl | ⟨-, hend⟩ := hwhole
      · rfl
      · omega

/-- The entry of an inode without references may be forgotten. -/
theorem InvOn.forget {i : Nat} {d : Dinode} (h : Inv sb v s) (href : (s.inode i).ref = 0) :
    DirWritten sb dp v s v
      { s with inode := update s.inode i ⟨0, false, (s.inode i).locked, d⟩ } := by
  have hlock : (s.inode i).locked ≠ true := by
    intro hl
    have hpos := h.pin i hl
    omega
  have hdisk : s.dinode i = v i := h.disk i fun hc => hlock hc.2
  refine ⟨h.setEntry (fun hl => ?_) (fun _ => hdisk) fun hl => absurd hl hlock,
    ⟨fun j => ?_, fun j => ?_, fun j hj => ?_⟩, fun _ _ => rfl, rfl, fun _ hj => hj,
    fun _ _ _ => rfl⟩
  · cases hl.2
  · exact update_field Inode.ref href.symm j
  · exact update_field Inode.locked (by rfl) j
  · have hji : j ≠ i := by
      rintro rfl
      omega
    simp only [update_of_ne hji]

/-- A reference that is taken and dropped again leaves the table as it was, but for an entry
that is not in use. -/
theorem iget_iput (dp : Nat) (hE : E .noInodes) (h : Inv sb v s) (i : Nat) :
    wp E (iget sb i) (fun _ => wp E (iput i) fun _ t => DirWritten sb dp v s v t ∧
      t.block = s.block) s := by
  rw [iget, wp_bind, wp_get]
  refine wp_if (fun hpos => ?_) fun hzero => ?_
  · rw [wp_setInode, iput, wp_bind, iputBegin, wp_bind, wp_get]
    simp only [update_self]
    rw [if_neg (by rintro ⟨h1, -⟩; omega), wp_bind, dropRef, wp_setInode, wp_pure,
      if_neg (by decide), wp_pure]
    simp only [update_self, update_idem, Nat.add_sub_cancel]
    rw [update_eq_self]
    exact ⟨.refl h, trivial⟩
  · have href : (s.inode i).ref = 0 := by omega
    refine wp_if (fun _ => (wp_throw _).mpr hE) fun _ => ?_
    rw [wp_setInode, iput, wp_bind, iputBegin, wp_bind, wp_get]
    simp only [update_self]
    -- the new entry has no copy of the inode, so it is not freed
    rw [if_neg (by rintro ⟨-, h1, -⟩; cases h1), wp_bind, dropRef, wp_setInode, wp_pure,
      if_neg (by decide), wp_pure]
    simp only [update_self, update_idem]
    exact ⟨h.forget href, trivial⟩

/-- `dirlink` writes the entry if the name is not there. -/
theorem IsDir.dirlink {inum : Nat} (hE : E .noInodes) (h : IsDir sb v s dp bytes)
    (hlock : Locked v s dp) :
    wp E (dirlink sb dp name inum) (fun ok t => ∃ w, DirWritten sb dp v s w t ∧
      (w dp).bytes t.block = (if ok then place bytes ((entries bytes).free * DESIZE)
        (Dirent.bytes ⟨inum % 2 ^ 16, name⟩) else bytes) ∧
      (ok = true → (entries bytes).lookup name = none) ∧
      ((entries bytes).lookup name = none →
        (entries bytes).free < bytes.length / DESIZE → ok = true)) s := by
  rw [Fs.dirlink, wp_bind]
  refine h.dirlookup (fun hnone => ?_) fun ip k hsome => ?_
  · rw [wp_bind, wp_get, h.copy, h.size, wp_bind]
    refine wp_mono h.emptyEntry fun off t hoff => ?_
    obtain ⟨rfl, rfl⟩ := hoff
    refine wp_mono (h.writeDirent hlock free_entries_le) fun ok u hu => ?_
    obtain ⟨w, hw, hbytes, hok⟩ := hu
    exact ⟨w, hw, hbytes, fun _ => hnone, fun _ => hok⟩
  · refine wp_mono (iget_iput dp hE h.inv ip) fun _ t ht => ?_
    refine wp_call ht fun _ u hu => ?_
    rw [wp_pure]
    refine ⟨v, hu.1, by rw [hu.2, h.holds]; rfl, nofun, fun hnone => ?_⟩
    rw [hsome] at hnone
    cases hnone

end

end Xv6.Fs
