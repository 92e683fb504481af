import Mathlib.Algebra.Order.Group.Multiset
import Mathlib.Data.List.TakeWhile
import Xv6.Fs.Inv
import Xv6.Fs.Path

/-!
# Xv6.Fs.Refs — who takes and who drops a reference

`Moves m I O`: started with the references `I` in hand, `m` either stops, but not in the panic of
`ilock`, or ends with the references `O a` in hand, and has changed the reference counts by the
difference. What `m` does to blocks, to the disk and to the copies of inodes is left open, so the
content of an inode is read and written with `I = O = 0`, and only `iget`, `idup` and `iput` move
anything.
-/

namespace Xv6.Fs

open Lib Function Multiset

section
variable {α β : Type} {m : F α} {I R : Multiset Nat} {O : α → Multiset Nat} {i : Nat}

/-- The references in hand are counted, and the counts change with them. -/
def Moves (m : F α) (I : Multiset Nat) (O : α → Multiset Nat) : Prop :=
  ∀ s, (∀ i, I.count i ≤ (s.inode i).ref) → wp (· ≠ .ilock) m
    (fun a t => ∀ i, (t.inode i).ref + I.count i = (s.inode i).ref + (O a).count i) s

/-! ## Rules -/

/-- What is in hand at the end is what was. -/
theorem Moves.pure (a : α) (h : I = O a) : Moves (pure a) I O := by
  intro s _
  rw [wp_pure, h]
  exact fun _ => rfl

theorem Moves.throw {e : Stop} (he : e ≠ .ilock) : Moves (throw e : F α) I O := by
  intro s _
  rw [wp_throw]
  exact he

/-- The second part has in hand what the first has left. -/
theorem Moves.bind {f : α → F β} {O' : β → Multiset Nat} (hm : Moves m I O)
    (hf : ∀ a, Moves (f a) (O a) O') : Moves (m >>= f) I O' := by
  intro s hs
  refine wp_call (hm s hs) fun a t ht => ?_
  have hle : ∀ i, (O a).count i ≤ (t.inode i).ref := by
    intro i
    have h1 := hs i
    have h2 := ht i
    omega
  refine wp_mono (hf a t hle) fun b u hu i => ?_
  have h1 := ht i
  have h2 := hu i
  omega

theorem Moves.get_bind {f : St → F β} {O : β → Multiset Nat} (hf : ∀ s, Moves (f s) I O) :
    Moves (get >>= f) I O := by
  intro s hs
  rw [wp_bind, wp_get]
  exact hf s s hs

/-- What is not used stays in hand. -/
theorem Moves.frame (hm : Moves m I O) (R : Multiset Nat) : Moves m (I + R) fun a => O a + R := by
  intro s hs
  refine wp_mono (hm s fun i => ?_) fun a t ht i => ?_
  · have h := hs i
    rw [count_add] at h
    omega
  · have h := ht i
    rw [count_add, count_add]
    omega

/-- Code that does not move references, with some in hand. -/
theorem Moves.keep (hm : Moves m 0 fun _ => 0) : Moves m I fun _ => I := by
  have h := hm.frame I
  simpa using h

/-- Code that moves nothing comes first. -/
theorem Moves.seq {f : α → F β} {O : β → Multiset Nat} (hm : Moves m 0 fun _ => 0)
    (hf : ∀ a, Moves (f a) I O) : Moves (m >>= f) I O :=
  hm.keep.bind hf

theorem Moves.forM {γ : Type} {f : γ → F Unit} (hf : ∀ x, Moves (f x) 0 fun _ => 0) (xs : List γ) :
    Moves (forM xs f) 0 fun _ => 0 := by
  induction xs with
  | nil => exact Moves.pure _ rfl
  | cons x xs ih =>
    rw [List.forM_cons]
    exact (hf x).seq fun _ => ih

/-- A change of the state that leaves the counts alone. -/
theorem Moves.modify {f : St → St} (hf : ∀ s i, ((f s).inode i).ref = (s.inode i).ref) :
    Moves (modify f) 0 fun _ => 0 := by
  intro s _
  rw [wp_modify]
  exact fun i => by rw [hf]

/-! ## Table entries -/

theorem setInode_moves {f : Inode → Inode} (hf : ∀ ip, (f ip).ref = ip.ref) :
    Moves (setInode i f) 0 fun _ => 0 := by
  exact Moves.modify fun s j => update_field Inode.ref (hf (s.inode i)) j

theorem setCopy_moves (f : Dinode → Dinode) : Moves (setCopy i f) 0 fun _ => 0 :=
  setInode_moves fun _ => rfl

theorem setBlock_moves (b : Nat) (f : Block → Block) : Moves (setBlock b f) 0 fun _ => 0 :=
  Moves.modify fun _ _ => rfl

theorem setBit_moves (b : Nat) (v : Bool) : Moves (setBit b v) 0 fun _ => 0 :=
  Moves.modify fun _ _ => rfl

theorem iupdate_moves (i : Nat) : Moves (iupdate i) 0 fun _ => 0 :=
  Moves.modify fun _ _ => rfl

/-- An entry whose count goes up by one. -/
theorem setInode_takes {s : St} {f : Inode → Inode} (hf : (f (s.inode i)).ref = (s.inode i).ref + 1) :
    wp (· ≠ Stop.ilock) (setInode i f) (fun _ t => ∀ j,
      (t.inode j).ref + (0 : Multiset Nat).count j = (s.inode j).ref + Multiset.count j {i}) s := by
  rw [wp_setInode]
  intro j
  rw [count_zero, count_singleton]
  show (update s.inode i (f (s.inode i)) j).ref + 0 = _
  by_cases hj : j = i
  · rw [hj, update_self, hf, if_pos rfl]
  · rw [update_of_ne hj, if_neg hj]

/-- The entry has a reference more, and it is the caller's. -/
theorem iget_moves (sb : Super) (inum : Nat) : Moves (iget sb inum) 0 fun _ => {inum} := by
  intro s _
  rw [iget, wp_bind, wp_get]
  refine wp_if (fun _ => setInode_takes rfl) fun h0 => ?_
  refine wp_if (fun _ => (wp_throw _).mpr nofun) fun _ => setInode_takes ?_
  show 1 = (s.inode inum).ref + 1
  omega

theorem idup_moves (i : Nat) : Moves (idup i) 0 fun _ => {i} :=
  fun _ _ => setInode_takes rfl

/-- A call that has a reference in hand does not find the count below one. -/
theorem ilock_moves (i : Nat) : Moves (ilock i) {i} fun _ => {i} := by
  intro s hs
  have hpos := hs i
  rw [count_singleton_self] at hpos
  rw [ilock, wp_bind, wp_get, if_neg (Nat.not_lt.mpr hpos)]
  refine (?_ : Moves _ {i} fun _ => {i}) s hs
  split
  · exact Moves.throw nofun
  split
  · exact Moves.keep (setInode_moves fun _ => rfl)
  · refine Moves.seq (setInode_moves ?_) fun _ => ?_
    · exact fun _ => rfl
    split
    · exact Moves.throw nofun
    · exact Moves.pure _ rfl

/-- `iunlock` keeps the reference: only `iput` gives it up. -/
theorem iunlock_moves (i : Nat) : Moves (iunlock i) 0 fun _ => 0 := by
  unfold iunlock
  refine Moves.get_bind fun s => ?_
  split
  · exact Moves.throw nofun
  · exact setInode_moves fun _ => rfl

/-! ## Contents -/

theorem balloc_moves (sb : Super) : Moves (balloc sb) 0 fun _ => 0 := by
  unfold balloc
  refine Moves.get_bind fun s => ?_
  split
  · exact Moves.pure _ rfl
  · refine (setBit_moves _ _).seq fun _ => ?_
    exact (setBlock_moves _ _).seq fun _ => Moves.pure _ rfl

theorem bfree_moves (b : Nat) : Moves (bfree b) 0 fun _ => 0 := by
  unfold bfree
  refine Moves.get_bind fun s => ?_
  split
  · exact Moves.throw nofun
  · exact setBit_moves _ _

theorem bmapAddr_moves (sb : Super) (i k : Nat) : Moves (bmapAddr sb i k) 0 fun _ => 0 := by
  unfold bmapAddr
  refine Moves.get_bind fun s => ?_
  split
  · refine (balloc_moves sb).seq fun addr => ?_
    split
    · exact Moves.pure _ rfl
    · exact (setCopy_moves _).seq fun _ => Moves.pure _ rfl
  · exact Moves.pure _ rfl

theorem bmap_moves (sb : Super) (i bn : Nat) : Moves (bmap sb i bn) 0 fun _ => 0 := by
  unfold bmap
  split
  · exact bmapAddr_moves sb i bn
  split
  · refine (bmapAddr_moves sb i NDIRECT).seq fun ind => ?_
    split
    · exact Moves.pure _ rfl
    refine Moves.get_bind fun s => ?_
    split
    · refine (balloc_moves sb).seq fun addr => ?_
      split
      · exact Moves.pure _ rfl
      · exact (setBlock_moves _ _).seq fun _ => Moves.pure _ rfl
    · exact Moves.pure _ rfl
  · exact Moves.throw nofun

theorem itrunc_moves (i : Nat) : Moves (itrunc i) 0 fun _ => 0 := by
  unfold itrunc
  refine Moves.seq (Moves.forM (fun k => Moves.get_bind fun s => ?_) _) fun _ =>
    Moves.get_bind fun s => ?_
  · split
    · exact (bfree_moves _).seq fun _ => setCopy_moves _
    · exact Moves.pure _ rfl
  have htail : Moves (do setCopy i fun d => { d with size := 0 }; iupdate i) 0 fun _ => 0 :=
    (setCopy_moves _).seq fun _ => iupdate_moves i
  split
  · refine Moves.seq (Moves.forM (fun j => Moves.get_bind fun s => ?_) _) fun _ => ?_
    · split
      · exact bfree_moves _
      · exact Moves.pure _ rfl
    · exact (bfree_moves _).seq fun _ => (setCopy_moves _).seq fun _ => htail
  · exact htail

theorem readi_moves (sb : Super) (i : Nat) (dst : Nat → Bool) (off n : Nat) :
    Moves (readi sb i dst off n) 0 fun _ => 0 := by
  have hloop : ∀ n fuel tot off bytes, Moves (readi.loop sb i dst n fuel tot off bytes)
      0 fun _ => 0 := by
    intro n fuel
    induction fuel with
    | zero => exact fun _ _ _ => Moves.pure _ rfl
    | succ fuel ih =>
      intro tot off bytes
      unfold readi.loop
      split
      · exact Moves.pure _ rfl
      refine (bmap_moves sb i _).seq fun addr => ?_
      split
      · exact Moves.pure _ rfl
      refine Moves.get_bind fun s => ?_
      dsimp only
      split
      · exact ih _ _ _
      · exact Moves.pure _ rfl
  unfold readi
  refine Moves.get_bind fun s => ?_
  dsimp only
  split
  · exact Moves.pure _ rfl
  · exact hloop _ _ _ _ _

/-- A write that fails on the way has moved no reference either. -/
theorem writei_moves (sb : Super) (i : Nat) (src : Nat → Option Byte) (off n : Nat) :
    Moves (writei sb i src off n) 0 fun _ => 0 := by
  have hloop : ∀ n fuel tot off, Moves (writei.loop sb i src n fuel tot off) 0 fun _ => 0 := by
    intro n fuel
    induction fuel with
    | zero => exact fun _ _ => Moves.pure _ rfl
    | succ fuel ih =>
      intro tot off
      unfold writei.loop
      split
      · exact Moves.pure _ rfl
      refine (bmap_moves sb i _).seq fun addr => ?_
      split
      · exact Moves.pure _ rfl
      refine (setBlock_moves _ _).seq fun _ => ?_
      split
      · exact Moves.pure _ rfl
      · exact ih _ _
  unfold writei
  refine Moves.get_bind fun s => ?_
  split
  · exact Moves.pure _ rfl
  split
  · exact Moves.pure _ rfl
  · exact (hloop _ _ _ _).seq fun _ => (setCopy_moves _).seq fun _ =>
      (iupdate_moves i).seq fun _ => Moves.pure _ rfl

/-! ## Dropping a reference -/

theorem ifree_moves (i : Nat) : Moves (ifree i) 0 fun _ => 0 :=
  (itrunc_moves i).seq fun _ => (setCopy_moves _).seq fun _ => (iupdate_moves i).seq fun _ =>
    setInode_moves fun _ => rfl

/-- The reference in hand is given up. -/
theorem dropRef_moves (i : Nat) : Moves (dropRef i) {i} fun _ => 0 := by
  intro s hs
  unfold dropRef
  rw [wp_setInode]
  intro j
  have hj := hs j
  rw [count_zero]
  rw [count_singleton] at hj ⊢
  show (update s.inode i _ j).ref + _ = _
  by_cases hji : j = i
  · rw [if_pos hji, hji] at hj
    rw [hji, update_self, if_pos rfl]
    show (s.inode i).ref - 1 + 1 = _
    omega
  · rw [update_of_ne hji, if_neg hji]

/-- The reference stays in hand as long as the inode is to be freed. -/
theorem iputBegin_moves (i : Nat) :
    Moves (iputBegin i) {i} fun free => if free then {i} else 0 := by
  unfold iputBegin
  refine Moves.get_bind fun s => ?_
  split
  · split
    · exact Moves.throw nofun
    · exact Moves.seq (setInode_moves fun _ => rfl) fun _ => Moves.pure _ rfl
  · exact (dropRef_moves i).bind fun _ => Moves.pure _ rfl

/-- One reference is given up, whether or not it was the last. -/
theorem iput_moves (i : Nat) : Moves (iput i) {i} fun _ => 0 := by
  unfold iput
  refine (iputBegin_moves i).bind fun free => ?_
  cases free with
  | true => exact (ifree_moves i).seq fun _ => dropRef_moves i
  | false => exact Moves.pure _ rfl

section
variable (sb : Super)

/-- An inode that was found comes with a reference. -/
theorem ialloc_moves (type : FType) :
    Moves (ialloc sb type) 0 fun r => r.elim 0 fun i => {i} := by
  unfold ialloc
  refine Moves.get_bind fun s => ?_
  split
  · exact Moves.pure _ rfl
  · refine Moves.seq (Moves.modify ?_) fun _ => ?_
    · exact fun _ _ => rfl
    exact (iget_moves sb _).bind fun _ => Moves.pure _ rfl

/-! ## Directories -/

theorem readDirent_moves (dp off : Nat) (e : Stop) (he : e ≠ .ilock) :
    Moves (readDirent sb dp off e) 0 fun _ => 0 := by
  unfold readDirent
  refine (readi_moves sb dp _ off DESIZE).seq fun r => ?_
  split
  · exact Moves.throw he
  split
  · exact Moves.throw he
  · exact Moves.pure _ rfl

theorem writeDirent_moves (dp off : Nat) (bytes : Nat → Byte) :
    Moves (writeDirent sb dp off bytes) 0 fun _ => 0 :=
  (writei_moves sb dp _ off DESIZE).seq fun _ => Moves.pure _ rfl

/-- What `dirlookup` finds it has taken a reference to. -/
theorem dirlookup_moves (dp : Nat) (name : Name) :
    Moves (dirlookup sb dp name) 0 fun r => r.elim 0 fun x => {x.1} := by
  have hloop : ∀ size fuel off, Moves (dirlookup.loop sb dp size name fuel off) 0
      fun r => r.elim 0 fun x => {x.1} := by
    intro size fuel
    induction fuel with
    | zero => exact fun _ => Moves.pure _ rfl
    | succ fuel ih =>
      intro off
      unfold dirlookup.loop
      split
      · exact Moves.pure _ rfl
      refine (readDirent_moves sb dp off .dirlookupRead nofun).seq fun de => ?_
      split
      · exact (iget_moves sb _).bind fun _ => Moves.pure _ rfl
      · exact ih _
  unfold dirlookup
  refine Moves.get_bind fun s => ?_
  dsimp only
  split
  · exact Moves.throw nofun
  · exact hloop _ _ _

theorem emptyEntry_moves (dp size : Nat) :
    ∀ fuel off, Moves (emptyEntry sb dp size fuel off) 0 fun _ => 0 := by
  intro fuel
  induction fuel with
  | zero => exact fun _ => Moves.pure _ rfl
  | succ fuel ih =>
    intro off
    unfold emptyEntry
    split
    · exact Moves.pure _ rfl
    refine (readDirent_moves sb dp off .dirlinkRead nofun).seq fun de => ?_
    split
    · exact Moves.pure _ rfl
    · exact ih _

theorem dirlink_moves (dp : Nat) (name : Name) (inum : Nat) :
    Moves (dirlink sb dp name inum) 0 fun _ => 0 := by
  unfold dirlink
  refine (dirlookup_moves sb dp name).bind fun r => ?_
  rcases r with _ | ⟨ip, off⟩
  · refine Moves.get_bind fun s => ?_
    exact (emptyEntry_moves sb dp _ _ _).seq fun off => writeDirent_moves sb dp off _
  · exact (iput_moves ip).bind fun _ => Moves.pure _ rfl

theorem isdirempty_moves (dp : Nat) : Moves (isdirempty sb dp) 0 fun _ => 0 := by
  have hloop : ∀ size fuel off, Moves (isdirempty.loop sb dp size fuel off) 0 fun _ => 0 := by
    intro size fuel
    induction fuel with
    | zero => exact fun _ => Moves.pure _ rfl
    | succ fuel ih =>
      intro off
      unfold isdirempty.loop
      split
      · exact Moves.pure _ rfl
      refine (readDirent_moves sb dp off .isdirempty nofun).seq fun de => ?_
      split
      · exact Moves.pure _ rfl
      · exact ih _
  unfold isdirempty
  exact Moves.get_bind fun s => hloop _ _ _

end

/-! ## Paths -/

/-- The path gets shorter with every element. -/
theorem skipelem_length {path rest : List Byte} {name : Name}
    (h : skipelem path = some (name, rest)) : rest.length < path.length := by
  unfold skipelem at h
  simp only [Option.ite_none_left_eq_some, Option.some.injEq, Prod.mk.injEq] at h
  rcases h with ⟨hne, -, rfl⟩
  have h1 := List.length_dropWhile_le (fun c : Byte => decide (c = slash)) path
  cases hp : path.dropWhile fun c => decide (c = slash) with
  | nil => exact absurd hp hne
  | cons c p =>
    -- the first byte is the first of the element
    have hc : c ≠ slash := by
      have hhead := List.head_dropWhile_not (l := path) (fun c : Byte => decide (c = slash))
        (by rw [hp]; exact List.cons_ne_nil c p)
      simpa [hp] using hhead
    rw [hp] at h1
    rw [List.dropWhile_cons_of_pos (by simpa using hc)]
    have h2 := List.length_dropWhile_le (fun c : Byte => decide (c ≠ slash)) p
    have h3 := List.length_dropWhile_le (fun c : Byte => decide (c = slash))
      (p.dropWhile fun c => decide (c ≠ slash))
    simp only [List.length_cons] at h1
    omega

end

end Xv6.Fs
