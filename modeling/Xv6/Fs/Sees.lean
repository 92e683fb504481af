import Xv6.Fs.Tree

/-!
# Xv6.Fs.Sees — calls against the tree

`Sees E sb B r H L T s`: during a call that holds the references `H` and the locks `L` the file
system is the tree `T`. The rules say what the operations do to `H`, `L` and `T`; in what follows
a call is taken apart by them, and neither blocks nor table entries are mentioned any more.
-/

namespace Xv6.Fs

open Lib Function

def Sees (E : Stop → Prop) (sb : Super) (B : Nat → Prop) (r : Nat → Nat) (H : Multiset Nat)
    (L : List Nat) (T : Tree) (s : St) : Prop :=
  ∃ v, Ctx E sb B r H L v s ∧ node v s.block = T

/-- The first entry of a directory with the name: the inode and the slot. -/
def Tree.find (T : Tree) (dp : Nat) (name : Name) : Option (Nat × Nat) :=
  (T dp).bind fun n => if n.type = .dir then (entries n.bytes).lookup name else none

section
variable {E : Stop → Prop} {sb : Super} {B : Nat → Prop} {r : Nat → Nat} {H : Multiset Nat}
  {L : List Nat} {T : Tree} {s : St} {i j k dp inum : Nat} {name : Name}

theorem child_eq_find : T.child i name = (T.find i name).map Prod.fst := by
  unfold Tree.child Tree.find
  cases T i with
  | none => rfl
  | some n =>
    show (if _ then _ else _) = Option.map _ (if _ then _ else _)
    split <;> rfl

/-- From a rule for the inodes to one for the tree: the blocks stay. -/
theorem Sees.of_ctx {H' : Multiset Nat} {L' : List Nat} {v : Nat → Dinode} {t : St}
    (hT : node v s.block = T) (h : Ctx E sb B r H' L' v t ∧ t.block = s.block) :
    Sees E sb B r H' L' T t :=
  ⟨v, h.1, by rw [h.2, hT]⟩

section
variable (h : Sees E sb B r H L T s)
include h

/-- An inode without links is kept by a reference. -/
theorem Sees.orphan {n : Node} (hn : T i = some n) (hlink : n.nlink = 0) :
    0 < r i := by
  obtain ⟨v, h, rfl⟩ := h
  have ht : (v i).type ≠ .none := node_ne_none.mp (by rw [hn]; nofun)
  rw [node_eq ht] at hn
  cases hn
  exact (h.orphan i ht hlink).1

theorem Sees.others (hi : B i) : 0 < r i := by
  obtain ⟨v, h, -⟩ := h
  exact (h.others i hi).2

/-- Inodes have numbers of 16 bits. -/
theorem Sees.range (hi : T i ≠ none) : 0 < i ∧ i < 2 ^ 16 := by
  obtain ⟨v, h, rfl⟩ := h
  have hrange := h.inv.range i (node_ne_none.mp hi)
  exact ⟨hrange.1, lt_of_lt_of_le hrange.2 sb.ninodes_le⟩

/-- A locked inode is in memory as it is in the tree. -/
theorem Sees.copy (hi : i ∈ L) :
    ∃ n, T i = some n ∧ (s.inode i).d.type = n.type ∧ (s.inode i).d.nlink = n.nlink ∧
      (s.inode i).d.major = n.major := by
  obtain ⟨v, h, rfl⟩ := h
  obtain ⟨hd, ht⟩ := h.inv.copy i (h.mine i hi).live
  exact ⟨_, node_eq ht, by rw [hd], by rw [hd], by rw [hd]⟩

end

theorem Sees.swap (h : Sees E sb B r H (i :: j :: L) T s) : Sees E sb B r H (j :: i :: L) T s := by
  obtain ⟨v, h, hT⟩ := h
  exact ⟨v, h.swap, hT⟩

/-! ## References and locks -/

theorem ilock_sees (h : Sees E sb B r H L T s) (hpos : 0 < r i + H.count i) (hL : i ∉ L)
    (htype : T i ≠ none ∨ E .noType) :
    wp E (ilock i) (fun _ t => Sees E sb B r H (i :: L) T t ∧ T i ≠ none) s := by
  obtain ⟨v, h, rfl⟩ := h
  refine wp_mono (ilock_ctx h hpos hL (htype.imp_left node_ne_none.mp)) fun _ t ht => ?_
  exact ⟨.of_ctx rfl ⟨ht.1, ht.2.1⟩, node_ne_none.mpr ht.2.2⟩

/-- A lock that the call holds already. -/
theorem ilock_self_sees {Q : Unit → St → Prop} (hE : E .asleep) (h : Sees E sb B r H L T s)
    (hL : i ∈ L) : wp E (ilock i) Q s := by
  obtain ⟨v, h, -⟩ := h
  have hl := h.mine i hL
  rw [ilock, wp_bind, wp_get, if_neg (Nat.not_lt.mpr hl.live.1), if_pos hl.locked, wp_throw]
  exact hE

theorem iunlock_sees (h : Sees E sb B r H (i :: L) T s) (hL : i ∉ L) :
    wp E (iunlock i) (fun _ t => Sees E sb B r H L T t) s := by
  obtain ⟨v, h, hT⟩ := h
  exact wp_mono (iunlock_ctx h hL) fun _ _ ht => .of_ctx hT ht

theorem iunlockput_sees (h : Sees E sb B r H (i :: L) T s) (hi : i ∈ H) (hL : i ∉ L) :
    wp E (iunlockput i) (fun _ t => Sees E sb B r (H.erase i) L T t) s := by
  obtain ⟨v, h, hT⟩ := h
  exact wp_mono (iunlockput_ctx h hi hL) fun _ _ ht => .of_ctx hT ht

/-- The reference to an inode that may lose its links. -/
theorem Sees.keep (h : Sees E sb B r (i ::ₘ H) L T s) (hi : T i ≠ none) :
    Sees E sb B (bump r i) H L T s := by
  obtain ⟨v, h, rfl⟩ := h
  exact ⟨v, h.keep (node_ne_none.mp hi), rfl⟩

/-- The tree after the reference to `i` is dropped that is counted by `bump r i`. -/
def Tree.drop (T : Tree) (r : Nat → Nat) (i : Nat) : Tree :=
  if r i = 0 ∧ (T i).any (fun n => n.nlink = 0) then T.remove i else T

theorem iput_last_sees (h : Sees E sb B (bump r i) H L T s) (hL : i ∉ L) (hH : i ∉ H)
    (hB : B i → 0 < r i) :
    wp E (iput i) (fun _ t => Sees E sb B r H L (T.drop r i) t) s := by
  obtain ⟨v, h, rfl⟩ := h
  have ht : (v i).type ≠ .none := h.held i (by rw [bump_self]; omega)
  have hany : (node v s.block i).any (fun n => n.nlink = 0) = decide ((v i).nlink = 0) := by
    rw [node_eq ht]
    rfl
  refine wp_mono (iput_last_ctx h hL hH hB) fun _ t hw => ?_
  obtain ⟨w, hw, hT⟩ := hw
  refine ⟨w, hw, ?_⟩
  rw [hT, Tree.drop, hany]
  simp only [decide_eq_true_eq]

theorem iunlockput_last_sees (h : Sees E sb B (bump r i) H (i :: L) T s) (hL : i ∉ L) (hH : i ∉ H)
    (hB : B i → 0 < r i) :
    wp E (iunlockput i) (fun _ t => Sees E sb B r H L (T.drop r i) t) s := by
  rw [iunlockput]
  exact wp_call (iunlock_sees h hL) fun _ _ ht => iput_last_sees ht hL hH hB

/-! ## Paths -/

theorem dirlookup_sees (h : Sees E sb B r H L T s) (hdp : dp ∈ L) (hdir : T.isDir dp = true)
    (hroom : usedBy sb r + H.card < NINODE ∨ E .noInodes) :
    wp E (dirlookup sb dp name) (fun x t =>
      x = (T.find dp name).map (fun y => (y.1, y.2 * DESIZE)) ∧
      Sees E sb B r (x.elim H fun y => y.1 ::ₘ H) L T t) s := by
  obtain ⟨v, h, rfl⟩ := h
  have hd : (v dp).type = .dir := isDir_node.mp hdir
  have hfind : Tree.find (node v s.block) dp name =
      (entries ((v dp).bytes s.block)).lookup name := by
    rw [Tree.find, node_eq (by rw [hd]; nofun)]
    exact if_pos hd
  refine wp_mono (dirlookup_ctx h hdp hd hroom) fun x t ht => ?_
  exact ⟨by rw [hfind, ht.1], .of_ctx rfl ht.2⟩

theorem isdirempty_sees (h : Sees E sb B r H L T s) (hi : i ∈ L) (hdir : T.isDir i = true) :
    wp E (isdirempty sb i) (fun b t => Sees E sb B r H L T t ∧
      (T i).map (fun n => emptyDir n.bytes) = some b) s := by
  obtain ⟨v, h, rfl⟩ := h
  have hd : (v i).type = .dir := isDir_node.mp hdir
  refine wp_mono (h.isDir hi hd).isdirempty fun b t ht => ?_
  obtain ⟨rfl, rfl⟩ := ht
  refine ⟨⟨v, h, rfl⟩, ?_⟩
  rw [node_eq (by rw [hd]; nofun)]
  rfl

theorem namex_sees {cwd : Nat} {path : List Byte} {parent : Bool} (h : Sees E sb B r H [] T s)
    (hcwd : 0 < r cwd) (htype : E .noType) (hroom : E .noInodes) :
    wp E (namex sb cwd path parent) (fun x t =>
      x = T.resolve parent (startOf cwd path) (elements path) ∧
      Sees E sb B r (x.elim H fun y => y.1 ::ₘ H) [] T t) s := by
  obtain ⟨v, h, rfl⟩ := h
  refine wp_mono (namex_ctx h hcwd (.inr htype) (.inr htype) (.inr hroom)) fun x t ht => ?_
  exact ⟨ht.1, .of_ctx rfl ht.2⟩

theorem namei_sees {cwd : Nat} {path : List Byte} (h : Sees E sb B r H [] T s)
    (hcwd : 0 < r cwd) (htype : E .noType) (hroom : E .noInodes) :
    wp E (namei sb cwd path) (fun x t => x = T.walk (startOf cwd path) (elements path) ∧
      Sees E sb B r (x.elim H fun ip => ip ::ₘ H) [] T t) s := by
  rw [namei]
  refine wp_call (namex_sees h hcwd htype hroom) fun x t ht => ?_
  obtain ⟨rfl, ht⟩ := ht
  rw [wp_pure]
  rw [Tree.resolve, if_neg Bool.false_ne_true] at ht ⊢
  cases hwalk : T.walk (startOf cwd path) (elements path) with
  | none =>
    rw [hwalk] at ht
    exact ⟨rfl, ht⟩
  | some ip =>
    rw [hwalk] at ht
    exact ⟨rfl, ht⟩

/-! ## Changes -/

theorem dirlink_sees (hE : E .noInodes) (h : Sees E sb B r H L T s) (hdp : dp ∈ L)
    (hdir : T.isDir dp = true) (hinum : inum < 2 ^ 16) :
    wp E (dirlink sb dp name inum) (fun ok t =>
      Sees E sb B r H L (if ok then T.put dp name inum else T) t ∧
      (ok = true → T.find dp name = none)) s := by
  obtain ⟨v, h, rfl⟩ := h
  have hd : (v dp).type = .dir := isDir_node.mp hdir
  have hne : (v dp).type ≠ .none := by
    rw [hd]
    nofun
  have hent := h.isDir hdp hd
  refine wp_mono (hent.dirlink hE (h.mine dp hdp)) fun ok t ht => ?_
  obtain ⟨w, hw, hbytes, hnone, -⟩ := ht
  rw [Nat.mod_eq_of_lt hinum] at hbytes
  refine ⟨⟨w, h.dirWritten hw ?_, ?_⟩, fun hok => ?_⟩
  · rw [hbytes]
    split
    · exact aligned_place hent.align free_entries_le (Dirent.length_bytes _)
    · exact hent.align
  · rw [hw.node_eq hd, hbytes]
    cases ok with
    | true =>
      rw [if_pos rfl, if_pos rfl, Tree.put, Tree.modify, Tree.modify, node_eq hne]
      rfl
    | false =>
      rw [if_neg Bool.false_ne_true, if_neg Bool.false_ne_true, Tree.modify, node_eq hne,
        Option.map_some, ← node_eq hne, update_eq_self]
  · rw [Tree.find, node_eq hne]
    exact (if_pos hd).trans (hnone hok)

theorem has_of_find (hfind : T.find dp name = some (inum, k)) :
    ∃ n, T dp = some n ∧ n.type = .dir ∧ (entries n.bytes).Has k name inum := by
  obtain ⟨n, hn, hfind⟩ := Option.bind_eq_some_iff.mp hfind
  split at hfind
  · next hdir => exact ⟨n, hn, hdir, (Slots.lookup_eq_some.mp hfind).1⟩
  · cases hfind

/-- An entry that is there is cleared. -/
theorem writeDirent_sees (h : Sees E sb B r H L T s) (hdp : dp ∈ L)
    (hfind : T.find dp name = some (inum, k)) :
    wp E (writeDirent sb dp (k * DESIZE) fun _ => 0) (fun ok t => ok = true ∧
      Sees E sb B r H L (T.clear dp k) t) s := by
  obtain ⟨v, h, rfl⟩ := h
  obtain ⟨n, hn, hdir, hhas⟩ := has_of_find hfind
  have hne : (v dp).type ≠ .none := node_ne_none.mp (by rw [hn]; nofun)
  rw [node_eq hne] at hn
  cases hn
  have hk := (has_entries.mp hhas).1
  have hent := h.isDir hdp hdir
  refine wp_mono (hent.writeDirent (h.mine dp hdp) (le_of_lt hk)) fun ok t ht => ?_
  obtain ⟨w, hw, hbytes, hok⟩ := ht
  obtain rfl := hok hk
  have hbytes' : (w dp).bytes t.block =
      place ((v dp).bytes s.block) (k * DESIZE) (List.replicate DESIZE 0) := hbytes
  refine ⟨rfl, w, h.dirWritten hw ?_, ?_⟩
  · rw [hbytes']
    exact aligned_place hent.align (le_of_lt hk) List.length_replicate
  · rw [hw.node_eq hdir, hbytes', Tree.clear, Tree.modify, Tree.modify, node_eq hne]
    rfl

/-- The links of a locked inode. -/
theorem relink_sees {f : BitVec 16 → BitVec 16} (h : Sees E sb B r H L T s) (hi : i ∈ L)
    (horphan : ∀ n, T i = some n → f n.nlink = 0 → 0 < r i) :
    wp E (setCopy i fun d => { d with nlink := f d.nlink }) (fun _ => wp E (iupdate i)
      fun _ t => Sees E sb B r H L (T.relink i f) t) s := by
  obtain ⟨v, h, rfl⟩ := h
  obtain ⟨hcopy, hne⟩ := h.inv.copy i (h.mine i hi).live
  have hset := h.setFields (d := { v i with nlink := f (v i).nlink }) hi rfl rfl rfl
    (horphan _ (node_eq hne))
  rw [wp_setCopy, wp_iupdate]
  simp only [update_self, hcopy]
  refine ⟨_, hset, ?_⟩
  rw [node_update (v := v) (fun j hj => update_of_ne hj _ v)
    (fun j hj _ => by rw [update_of_ne hj])]
  rw [Tree.relink, Tree.modify, node_eq hne, node_eq (by rwa [update_self])]
  simp only [update_self]
  rfl

end

end Xv6.Fs
