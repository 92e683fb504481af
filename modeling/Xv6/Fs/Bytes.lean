import Xv6.Fs.Content
import Xv6.Fs.Small

/-!
# Xv6.Fs.Bytes — a file is an array of bytes

What `writei` and `readi` are for, without blocks: the contents of an inode are a list of
bytes, a write puts bytes at an offset of the list and a read takes some out of it. A write
whose source can be read stops early only when the disk is full.
-/

namespace Xv6.Fs

open Lib

/-- The list with `new` at offset `off`, which is not behind its end. -/
def place (old : List Byte) (off : Nat) (new : List Byte) : List Byte :=
  old.take off ++ new ++ old.drop (off + new.length)

/-- All bytes of an inode. -/
def Dinode.bytes (d : Dinode) (blk : Nat → Block) : List Byte := contents d blk 0 d.size

section
variable {F : Nat → Prop} {sb : Super} {v w : Nat → Dinode} {s t : St} {d : Dinode}
  {blk : Nat → Block} {i m n off e : Nat} {src : Nat → Option Byte}

theorem length_contents : (contents d blk off n).length = n := by
  rw [contents, List.length_map, List.length_range]

theorem take_contents : (contents d blk 0 n).take m = contents d blk 0 (min m n) := by
  refine List.ext_getElem ?_ fun k h₁ h₂ => ?_
  · rw [List.length_take, length_contents, length_contents]
  · simp only [contents, List.getElem_take, List.getElem_map, List.getElem_range]

theorem drop_contents : (contents d blk 0 n).drop m = contents d blk m (n - m) := by
  refine List.ext_getElem ?_ fun k h₁ h₂ => ?_
  · rw [List.length_drop, length_contents, length_contents]
  · simp only [contents, List.getElem_drop, List.getElem_map, List.getElem_range, Nat.zero_add]

/-- A part of the contents. -/
theorem contents_piece {l : Nat} (hle : off + n ≤ l) :
    contents d blk off n = ((contents d blk 0 l).drop off).take n := by
  rw [drop_contents]
  refine List.ext_getElem ?_ fun k h₁ h₂ => ?_
  · rw [List.length_take, length_contents, length_contents]
    omega
  · simp only [contents, List.getElem_take, List.getElem_map, List.getElem_range]

/-- Without a free block `balloc` returns 0. -/
theorem balloc_full (h : t.DiskFull sb) : balloc sb t = .ok (0, t) := by
  have hnone : (List.range sb.size).find? (fun b => !t.bitmap b) = none := by
    refine List.find?_eq_none.mpr fun b hb => ?_
    rw [h b (List.mem_range.mp hb)]
    decide
  simp only [balloc, bind, StateT.bind, get, getThe, MonadStateOf.get, StateT.get, Except.bind, pure,
    Except.pure, hnone]
  rfl

/-- With a source that can be read no fault ends the loop. -/
theorem readable_all (h : ∀ k < m, (src (off + k)).isSome) : readable src off m = m := by
  by_contra hne
  rcases unreadable_of_lt (lt_of_le_of_ne (readable_le src off m) hne) with ⟨k, hk, hsrc⟩
  have hsome := h k hk
  rw [hsrc] at hsome
  cases hsome

/-- The contents after a write of which no byte is left half done. -/
theorem Written.bytes_eq (h : Written F sb i off n m m src v s w t) (hfull : Full (v i) s.block)
    (hi : (v i).type ≠ .none) (hoff : off ≤ (v i).size) {l : List Byte} (hlen : l.length = m)
    (hnew : ∀ k (hk : k < l.length), src k = some l[k]) :
    (w i).bytes t.block = place ((v i).bytes s.block) off l := by
  have hsize : (w i).size = max (v i).size (off + m) := by rw [h.fields]
  have hold : ∀ p < (v i).size, p < off ∨ off + m ≤ p →
      content (w i) t.block p = content (v i) s.block p := by
    intro p hp hout
    exact h.outside i p hi (hfull.mapped hp).2 fun _ => hout
  have hsplit : (w i).size = off + m + ((v i).size - (off + m)) := by omega
  unfold Dinode.bytes place
  rw [take_contents, drop_contents, Nat.min_eq_left hoff, hlen, hsplit, contents_add,
    contents_add, Nat.zero_add, Nat.zero_add]
  refine congrArg₂ (· ++ ·) (congrArg₂ (· ++ ·) ?_ ?_) ?_
  · exact contents_congr fun k hk => hold _ (by omega) (.inl (by omega))
  · -- the bytes of the source
    refine List.ext_getElem (by rw [length_contents, hlen]) fun k h₁ h₂ => ?_
    have hk := h.inside k (by omega)
    rw [hnew k h₂, Option.some.injEq] at hk
    simp only [contents, List.getElem_map, List.getElem_range]
    exact hk
  · exact contents_congr fun k hk => hold _ (by omega) (.inr (by omega))

/-- Another inode after a write. -/
theorem Written.other_bytes (h : Written F sb i off n m e src v s w t) {j : Nat} (hji : j ≠ i)
    (hj : (v j).type ≠ .none) (hfull : Full (v j) s.block) :
    (w j).bytes t.block = (v j).bytes s.block := by
  unfold Dinode.bytes
  rw [h.other j hji]
  refine contents_congr fun k hk => ?_
  have hmap := (hfull.mapped (p := 0 + k) (by omega)).2
  have hsame := h.outside j (0 + k) hj hmap fun he => absurd he hji
  rwa [h.other j hji] at hsame

end

/-- A locked inode without holes of a disk on which every data block has one owner. A write of
bytes that can be read puts `tot` of them in the file; if these are not all, `balloc` has returned
0. No other inode changes, and what had no holes still has none. A read returns the bytes that are
there and changes nothing. -/
theorem file_is_bytes (F : Nat → Prop) (sb : Super) (v : Nat → Dinode) (s : St) (i : Nat)
    (h : InvOn F sb v s) (hF : F i) (hlive : (s.inode i).Live) (hlock : (s.inode i).locked = true) :
    (∀ off n (src : Nat → Byte), off ≤ (v i).size → off + n ≤ MAXFILE * BSIZE →
      ∃ tot t w, writei sb i (fun k => some (src k)) off n s = .ok (some tot, t) ∧ tot ≤ n ∧
        (tot < n → balloc sb t = .ok (0, t)) ∧ InvOn F sb w t ∧
        (w i).bytes t.block = place ((v i).bytes s.block) off ((List.range tot).map src) ∧
        (w i).size = max (v i).size (off + tot) ∧ Full (w i) t.block ∧
        ∀ j, j ≠ i → w j = v j ∧
          ((v j).type ≠ .none → Full (v j) s.block →
            (w j).bytes t.block = (v j).bytes s.block)) ∧
    ∀ off n, off ≤ (v i).size → off + n < 2 ^ 32 →
      readi sb i (fun _ => true) off n s =
        .ok (some (contents (v i) s.block off (min n ((v i).size - off))), s) := by
  have hi := (h.copy i hlive).2
  refine ⟨fun off n src hoff hmax => ?_, fun off n hoff hn => ?_⟩
  · have hn : n < 2 ^ 32 := by
      have hlarge : MAXFILE * BSIZE < 2 ^ 32 := by decide
      omega
    have hspec : wp (fun _ => False) (writei sb i (fun k => some (src k)) off n) _ s :=
      writei_spec h hF hlive hlock hn
    rcases wp_returns hspec with ⟨r, t, hrun, ⟨-, -, hbad⟩ | ⟨tot, e, w, rfl, hle, -, -, hw⟩⟩
    · omega
    -- every piece can be read, so the loop ends behind the last byte it counts
    have hend : e = tot ∧ (tot < n → t.DiskFull sb) := by
      cases hw.ended with
      | done hm he => exact ⟨by omega, fun hlt => by omega⟩
      | full hm he hnone hfull => exact ⟨he, fun _ => hfull⟩
      | fault hm hstart hread he =>
        rw [readable_all fun _ _ => rfl] at hread
        exact absurd hread (lt_irrefl _)
    obtain ⟨rfl, hfull⟩ := hend
    have hwi : (w i).type ≠ .none := by
      rw [hw.fields]
      exact hi
    refine ⟨e, t, w, hrun, hle, fun hlt => balloc_full (hfull hlt), hw.inv, ?_, ?_,
      hw.inv.whole i hF hwi, fun j hj => ⟨hw.other j hj, hw.other_bytes hj⟩⟩
    · refine hw.bytes_eq (h.whole i hF hi) hi hoff
        (by rw [List.length_map, List.length_range]) fun k hk => ?_
      simp only [List.getElem_map, List.getElem_range]
    · rw [hw.fields]
  · rcases wp_returns (readi_spec (E := fun _ => False) h hF hlive
      (by omega : n < 2 ^ 32)) with ⟨r, t, hrun, rfl, hr⟩
    rw [hrun, hr fun _ _ => rfl, readLen, if_pos hn]

/-! ## A new file -/

def newSuper : Super := ⟨7, 4, 2, by decide, by decide, by decide⟩

def newFile : Dinode := { Dinode.zero with type := .file, nlink := 1 }

/-- A disk with one file, inode 1, that has no contents yet and is locked. -/
def newDisk : St :=
  .small (fun b => b < 3) (fun _ _ => 0) [Dinode.zero, newFile]
    [absent, (1, true, true)]

theorem newDisk_inv : Inv newSuper newDisk.dinode newDisk :=
  St.small_inv (by decide +kernel) (by decide) (by decide)

/-- Two bytes are written to the new file. -/
theorem file_is_bytes_newDisk : ∃ t, ∃ w : Nat → Dinode,
    writei newSuper 1 (fun _ => some 7) 0 2 newDisk = .ok (some 2, t) ∧ Inv newSuper w t ∧
      (w 1).bytes t.block = [7, 7] := by
  rcases (file_is_bytes _ newSuper newDisk.dinode newDisk 1 newDisk_inv trivial
    ⟨by decide, by decide⟩ (by decide)).1 0 2 (fun _ => 7) (Nat.zero_le _) (by decide) with
    ⟨tot, t, w, hrun, -, -, hinv, hbytes, -⟩
  have hall : (writei newSuper 1 (fun _ => some 7) 0 2 newDisk).toOption.any
      (fun x => decide (x.1 = some 2)) = true := by decide +kernel
  rw [hrun] at hall
  cases of_decide_eq_true hall
  exact ⟨t, w, hrun, hinv, hbytes⟩

end Xv6.Fs
