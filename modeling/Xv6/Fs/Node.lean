import Xv6.Lib.Slots
import Xv6.Fs.Bytes
import Xv6.Fs.Names

/-!
# Xv6.Fs.Node — what can be seen of an inode

An inode without its blocks: its fields and its bytes, or nothing if it is free. The bytes of a
directory are slots of `DESIZE` bytes, in which an entry in use holds a name and a number. This
is the level at which the operations on names are described; what they do to blocks is below
it.
-/

namespace Xv6.Fs

open Lib List

structure Node where
  type : FType
  major : BitVec 16
  minor : BitVec 16
  nlink : BitVec 16
  bytes : List Byte
  deriving DecidableEq

/-- What is to be seen of inode `i`. -/
def node (v : Nat → Dinode) (blk : Nat → Block) (i : Nat) : Option Node :=
  if (v i).type = .none then none
  else some ⟨(v i).type, (v i).major, (v i).minor, (v i).nlink, (v i).bytes blk⟩

/-- An empty entry is an empty slot. -/
def Dirent.slot (de : Dirent) : Option (Name × Nat) :=
  if de.inum = 0 then none else some (de.name, de.inum)

/-- Entry `k` of a directory. -/
def entryAt (bytes : List Byte) (k : Nat) : Dirent :=
  Dirent.decode ((bytes.drop (k * DESIZE)).take DESIZE)

/-- The entries of a directory. -/
def entries (bytes : List Byte) : Slots Name Nat :=
  (List.range (bytes.length / DESIZE)).map fun k => (entryAt bytes k).slot

/-- The bytes of an entry. -/
def Dirent.bytes (de : Dirent) : List Byte := (List.range DESIZE).map de.encode

/-- A directory has no part of an entry at its end. -/
def Aligned (bytes : List Byte) : Prop := DESIZE ∣ bytes.length

/-- Is there an entry behind "." and ".."? -/
def emptyDir (bytes : List Byte) : Bool := ((entries bytes).drop 2).all Option.isNone

/-! ## Bytes -/

section
variable {old new bytes : List Byte} {off i k p : Nat} {name : Name} {inum : Nat}

theorem length_place (hoff : off ≤ old.length) :
    (place old off new).length = max old.length (off + new.length) := by
  rw [place, length_append, length_append, length_take, length_drop]
  omega

theorem getElem?_place (hoff : off ≤ old.length) : (place old off new)[p]? =
    if p < off then old[p]? else if p < off + new.length then new[p - off]? else old[p]? := by
  have htake : (old.take off).length = off := by
    rw [length_take]
    omega
  rw [place, append_assoc, getElem?_append, htake]
  split
  · next h => rw [getElem?_take_of_lt h]
  · next h =>
    rw [getElem?_append]
    by_cases hnew : p < off + new.length
    · rw [if_pos (by omega), if_pos hnew]
    · rw [if_neg (by omega), if_neg hnew, getElem?_drop]
      congr 1
      omega

/-- One entry of the bytes. -/
theorem take_drop_place (hoff : k * DESIZE ≤ old.length) (hnew : new.length = DESIZE) :
    ((place old (k * DESIZE) new).drop (i * DESIZE)).take DESIZE =
      if i = k then new else (old.drop (i * DESIZE)).take DESIZE := by
  refine ext_getElem? fun p => ?_
  by_cases hp : p < DESIZE
  · rw [getElem?_take_of_lt hp, getElem?_drop, getElem?_place hoff, hnew]
    by_cases hik : i = k
    · rw [if_pos hik, hik, if_neg (by omega), if_pos (by omega), Nat.add_sub_cancel_left]
    · rw [if_neg hik, getElem?_take_of_lt hp, getElem?_drop]
      unfold DESIZE at *
      split
      · rfl
      · rw [if_neg (by omega)]
  · rw [getElem?_take_eq_none (by omega)]
    split
    · rw [getElem?_eq_none (by omega)]
    · rw [getElem?_take_eq_none (by omega)]

/-! ## Entries -/

theorem length_entries (bytes : List Byte) : (entries bytes).length = bytes.length / DESIZE := by
  rw [entries, length_map, length_range]

theorem getElem?_entries (h : k < bytes.length / DESIZE) :
    (entries bytes)[k]? = some (entryAt bytes k).slot := by
  rw [entries, getElem?_map, getElem?_range h]
  rfl

theorem entries_eq_none (h : bytes.length / DESIZE ≤ k) : (entries bytes)[k]? = none := by
  rw [getElem?_eq_none]
  rwa [length_entries]

theorem Dirent.slot_eq_some {de : Dirent} :
    de.slot = some (name, inum) ↔ de = ⟨inum, name⟩ ∧ inum ≠ 0 := by
  obtain ⟨i, n⟩ := de
  rw [Dirent.slot]
  split
  · next h =>
    refine ⟨nofun, fun he => ?_⟩
    cases he.1
    exact absurd h he.2
  next h =>
  constructor
  · intro he
    cases he
    exact ⟨rfl, h⟩
  · rintro ⟨he, -⟩
    cases he
    rfl

theorem has_entries : (entries bytes).Has k name inum ↔
    k < bytes.length / DESIZE ∧ entryAt bytes k = ⟨inum, name⟩ ∧ inum ≠ 0 := by
  by_cases hk : k < bytes.length / DESIZE
  · rw [Slots.Has, getElem?_entries hk, Option.some.injEq, Dirent.slot_eq_some]
    exact ⟨fun h => ⟨hk, h⟩, And.right⟩
  · rw [Slots.Has, entries_eq_none (le_of_not_gt hk)]
    refine ⟨fun h => ?_, fun h => absurd h.1 hk⟩
    cases h

/-- An entry that is written. -/
theorem entries_place (halign : Aligned old) (hk : k ≤ old.length / DESIZE)
    (hnew : new.length = DESIZE) : (entries (place old (k * DESIZE) new))[i]? =
      if i = k then some (Dirent.decode new).slot else (entries old)[i]? := by
  have hoff : k * DESIZE ≤ old.length :=
    le_trans (Nat.mul_le_mul_right _ hk) (Nat.div_mul_le_self _ _)
  have hlen : (place old (k * DESIZE) new).length / DESIZE =
      max (old.length / DESIZE) (k + 1) := by
    obtain ⟨n, hn⟩ := halign
    rw [length_place hoff, hnew, hn]
    unfold DESIZE
    omega
  have hat : entryAt (place old (k * DESIZE) new) i =
      if i = k then Dirent.decode new else entryAt old i := by
    rw [entryAt, take_drop_place hoff hnew]
    split <;> rfl
  by_cases hik : i = k
  · rw [getElem?_entries (by rw [hlen]; omega), hat, if_pos hik, if_pos hik]
  · rw [if_neg hik]
    by_cases hi : i < old.length / DESIZE
    · rw [getElem?_entries (by rw [hlen]; omega), getElem?_entries hi, hat, if_neg hik]
    · rw [entries_eq_none (by rw [hlen]; omega), entries_eq_none (by omega)]

theorem aligned_place (halign : Aligned old) (hk : k ≤ old.length / DESIZE)
    (hnew : new.length = DESIZE) : Aligned (place old (k * DESIZE) new) := by
  have hoff : k * DESIZE ≤ old.length :=
    le_trans (Nat.mul_le_mul_right _ hk) (Nat.div_mul_le_self _ _)
  obtain ⟨n, hn⟩ := halign
  rw [Aligned, length_place hoff, hnew, hn]
  unfold DESIZE
  omega

theorem Dirent.length_bytes (de : Dirent) : de.bytes.length = DESIZE := by
  rw [Dirent.bytes, length_map, length_range]

theorem free_entries_le : (entries bytes).free ≤ bytes.length / DESIZE := by
  have hle := (entries bytes).free_le
  rwa [length_entries] at hle

/-- Writing an entry where `dirlink` does. -/
theorem entries_put (halign : Aligned old) (hinum : inum < 2 ^ 16) (h0 : inum ≠ 0)
    (hlen : name.length ≤ DIRSIZ) (hnul : (0 : Byte) ∉ name) :
    entries (place old ((entries old).free * DESIZE) (Dirent.bytes ⟨inum, name⟩)) =
      (entries old).put name inum := by
  have hdecode : Dirent.decode (Dirent.bytes ⟨inum, name⟩) = ⟨inum, name⟩ :=
    Dirent.decode_encode hinum hlen hnul
  refine ext_getElem? fun i => ?_
  rw [entries_place halign free_entries_le (Dirent.length_bytes _), Slots.getElem?_put, hdecode,
    Dirent.slot, if_neg h0]

/-- Writing zeros over an entry. -/
theorem entries_clear (halign : Aligned old) (hk : k < old.length / DESIZE) :
    entries (place old (k * DESIZE) (List.replicate DESIZE 0)) = (entries old).clear k := by
  refine ext_getElem? fun i => ?_
  rw [entries_place halign (le_of_lt hk) length_replicate, Slots.clear,
    getElem?_set, length_entries]
  by_cases hik : i = k
  · rw [if_pos hik, if_pos hik.symm, if_pos hk]
    rfl
  · rw [if_neg hik, if_neg (Ne.symm hik)]

end

end Xv6.Fs
