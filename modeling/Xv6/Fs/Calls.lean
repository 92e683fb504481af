import Xv6.Fs.Room
import Xv6.Fs.Sees

/-!
# Xv6.Fs.Calls — create, link and unlink on the tree

What the calls that change names do to the tree, from the file system between calls: all of what
they do if they succeed, and nothing if they fail. The inode that `create` has made is given back
when an entry cannot be written, and so is the link that `link` has counted.
-/

namespace Xv6.Fs

open Lib Function Multiset

/-! ## Trees -/

/-- A new inode with one link. -/
def Tree.born (T : Tree) (ip : Nat) (type : FType) (major minor : BitVec 16) : Tree :=
  update T ip (some ⟨type, major, minor, 1, []⟩)

/-- The entries of a new inode. -/
def Tree.enter (T : Tree) (dp ip : Nat) (name : Name) (type : FType) : Tree :=
  if type = .dir then ((T.put ip dot ip).put ip dotdot dp).put dp name ip
  else T.put dp name ip

/-- `create` of a new inode. The parent of a directory has one more link, and is freed if that
makes it none. -/
def Tree.make (T : Tree) (r : Nat → Nat) (dp ip : Nat) (name : Name) (type : FType)
    (major minor : BitVec 16) : Tree :=
  if type = .dir then
    (((T.born ip type major minor).enter dp ip name type).relink dp fun n => n + 1).drop r dp
  else (T.born ip type major minor).enter dp ip name type

section
variable {E : Stop → Prop} {sb : Super} {B : Nat → Prop} {r : Nat → Nat} {H : Multiset Nat}
  {L : List Nat} {T T' : Tree} {v : Nat → Dinode} {s t : St} {i j k dp ip inum : Nat} {name : Name}
  {type : FType} {major minor : BitVec 16}

theorem isDir_modify {g : Node → Node} (hg : ∀ n, (g n).type = n.type) :
    (T.modify i g).isDir j = T.isDir j := by
  unfold Tree.isDir
  by_cases hj : j = i
  · rw [hj, Tree.modify_self]
    cases T i with
    | none => rfl
    | some n => exact congrArg (fun x => decide (x = FType.dir)) (hg n)
  · rw [Tree.modify_of_ne hj]

theorem isDir_put : (T.put dp name inum).isDir j = T.isDir j := isDir_modify fun _ => rfl

variable {f : BitVec 16 → BitVec 16}

theorem isDir_relink : (T.relink i f).isDir j = T.isDir j :=
  isDir_modify fun _ => rfl

theorem ne_none_modify {g : Node → Node} : T.modify i g j ≠ none ↔ T j ≠ none := by
  by_cases hj : j = i
  · rw [hj, Tree.modify_self, ne_eq, Option.map_eq_none_iff]
  · rw [Tree.modify_of_ne hj]

theorem isDir_enter : (T.enter dp ip name type).isDir j = T.isDir j := by
  unfold Tree.enter
  split
  · rw [isDir_put, isDir_put, isDir_put]
  · exact isDir_put

theorem ne_none_of_isDir (h : T.isDir i = true) : T i ≠ none := by
  intro hn
  rw [Tree.isDir, hn] at h
  cases h

/-- An inode that loses its links and has no other reference. -/
theorem drop_relink_zero (h0 : r i = 0) (hne : T i ≠ none) :
    (T.relink i fun _ => 0).drop r i = T.remove i := by
  obtain ⟨n, hn⟩ := Option.ne_none_iff_exists'.mp hne
  have hself : T.relink i (fun _ => 0) i = some { n with nlink := 0 } := by
    rw [Tree.relink, Tree.modify_self, hn]
    rfl
  rw [Tree.drop, hself, if_pos ⟨h0, rfl⟩, Tree.remove, Tree.relink, Tree.modify,
    update_idem]
  rfl

theorem remove_eq (hfree : T i = none) (hother : ∀ j ≠ i, T' j = T j) : T'.remove i = T :=
  update_eq_iff.mpr ⟨hfree.symm, hother⟩

/-! ## create -/

theorem createEntries_sees (hE : E .noInodes) (h : Sees E sb B r H [ip, dp] T s)
    (hdp : T.isDir dp = true) (hip : type = .dir → T.isDir ip = true) (hip16 : ip < 2 ^ 16)
    (hdp16 : dp < 2 ^ 16) :
    wp E (createEntries sb dp ip name type) (fun ok t =>
      (ok = true → Sees E sb B r H [ip, dp] (T.enter dp ip name type) t) ∧
      (ok = false → ∃ T', Sees E sb B r H [ip, dp] T' t ∧ T' ip ≠ none ∧
        ∀ j ≠ ip, T' j = T j)) s := by
  have hL : ip ∈ [ip, dp] := List.mem_cons_self
  have hL' : dp ∈ [ip, dp] := List.mem_cons_of_mem ip List.mem_cons_self
  have hsame : ∀ {T : Tree} {name inum}, ∀ j ≠ ip, T.put ip name inum j = T j :=
    fun j hj => Tree.modify_of_ne hj
  obtain ⟨n, hn, -⟩ := h.copy hL
  have hne : T ip ≠ none := by
    rw [hn]
    nofun
  rw [createEntries]
  refine wp_if (fun htype => ?_) fun htype => ?_
  · rw [wp_bind, Tree.enter, if_pos htype]
    refine wp_mono (dirlink_sees hE h hL (hip htype) hip16) fun ok t ht => ?_
    cases ok with
    | false => exact wp_ret ⟨nofun, fun _ => ⟨T, ht.1, hne, fun _ _ => rfl⟩⟩
    | true =>
      have h₁ : Sees E sb B r H [ip, dp] (T.put ip dot ip) t := ht.1
      rw [if_pos rfl]
      refine wp_call (dirlink_sees hE h₁ hL (by rw [isDir_put, hip htype]) hdp16) fun ok u hu => ?_
      cases ok with
      | false =>
        exact wp_ret ⟨nofun, fun _ => ⟨_, hu.1, ne_none_modify.mpr hne, hsame⟩⟩
      | true =>
        have h₂ : Sees E sb B r H [ip, dp] ((T.put ip dot ip).put ip dotdot dp) u := hu.1
        rw [if_pos rfl]
        refine wp_mono (dirlink_sees hE h₂ hL' (by rw [isDir_put, isDir_put, hdp]) hip16)
          fun ok w hw => ?_
        cases ok with
        | false =>
          refine ⟨nofun, fun _ => ⟨_, hw.1, ne_none_modify.mpr (ne_none_modify.mpr hne),
            fun j hj => ?_⟩⟩
          exact (hsame j hj).trans (hsame j hj)
        | true => exact ⟨fun _ => hw.1, nofun⟩
  · rw [Tree.enter, if_neg htype]
    refine wp_mono (dirlink_sees hE h hL' hdp hip16) fun ok t ht => ?_
    cases ok with
    | false => exact ⟨nofun, fun _ => ⟨T, ht.1, hne, fun _ _ => rfl⟩⟩
    | true => exact ⟨fun _ => ht.1, nofun⟩

/-- Whether the entry of a new file can be written. -/
theorem createEntries_room (h : Ctx E sb B r H L v s) (hdp : dp ∈ L) (hdir : (v dp).type = .dir)
    (hnone : (entries ((v dp).bytes s.block)).lookup name = none) (htype : type ≠ .dir) :
    wp E (createEntries sb dp ip name type) (fun ok _ => ok = true ↔ EntryRoom sb (v dp) s) s := by
  rw [createEntries, if_neg htype]
  exact (h.isDir hdp hdir).dirlink_room (h.mine dp hdp) hnone

/-- The tree with a new inode. -/
theorem node_born {blk : Nat → Block} {d : Dinode} (hd : d.type ≠ .none) (hsize : d.size = 0)
    (hlink : d.nlink = 1) : node (update v ip d) blk =
      Tree.born (node v blk) ip d.type d.major d.minor := by
  rw [node_update (v := v) (fun j hj => update_of_ne hj _ v)
    (fun j hj _ => by rw [update_of_ne hj]), node_eq (by rwa [update_self]),
    update_self, Dinode.bytes, hsize, hlink]
  rfl

/-- A new inode holds no blocks. -/
theorem NewInode.holds {d : Dinode} {blk : Nat → Block} (hn : NewInode sb type v s ip t)
    (hd : ∀ m, d.addrs m = 0) (x : Nat × Nat) (b : Nat) :
    Holds (update v ip d) blk x b ↔ Holds v blk x b := by
  unfold Holds
  by_cases hx : x.1 = ip
  · rw [hx, update_self, hn.free, slot_empty fun m _ => hd m]
    exact ⟨fun h => absurd h.2.1.symm h.2.2, fun h => absurd rfl h.1⟩
  · rw [update_of_ne hx]

/-- What `create` does after `ialloc`: it fails, and the inode is free again, or the inode and
its entries are there. -/
theorem createNew_sees (hE : E .noInodes) (h : Ctx E sb B r (dp ::ₘ 0) [dp] v s)
    (hdir : (v dp).type = .dir) (hnone : (entries ((v dp).bytes s.block)).lookup name = none)
    (hn : NewInode sb type v s ip t) (htype : type ≠ .none) :
    wp E (createNew sb dp ip name type major minor) (fun x u =>
      (x = none ∧ Sees E sb B r 0 [] (node v s.block) u ∧
        (type ≠ .dir → ¬ EntryRoom sb (v dp) s)) ∨
      (x = some ip ∧ Sees E sb B r (ip ::ₘ 0) [ip]
        (Tree.make (node v s.block) r dp ip name type major minor) u ∧
        (type ≠ .dir → EntryRoom sb (v dp) s))) t := by
  have hne : ip ≠ dp := by
    rintro rfl
    rw [hn.free] at hdir
    cases hdir
  have hnot : dp ∉ [ip] := by
    rw [List.mem_singleton]
    exact hne.symm
  have hnot' : ip ∉ [dp] := by
    rw [List.mem_singleton]
    exact hne
  have hmem : ip ∉ dp ::ₘ 0 := by
    rw [mem_cons, not_or]
    exact ⟨hne, notMem_zero ip⟩
  have hmem' : dp ∉ ip ::ₘ 0 := by
    rw [mem_cons, not_or]
    exact ⟨hne.symm, notMem_zero dp⟩
  have hfree : node v s.block ip = none := node_eq_none hn.free
  have hr : r ip = 0 := by
    by_contra hpos
    exact h.held ip (Nat.pos_of_ne_zero hpos) hn.free
  have hB : ∀ i, B i → 0 < r i := fun i hi => (h.others i hi).2
  have hdp16 : dp < 2 ^ 16 :=
    lt_of_lt_of_le (h.inv.range dp (by rw [hdir]; nofun)).2 sb.ninodes_le
  have hip16 : ip < 2 ^ 16 := lt_of_lt_of_le hn.range.2 sb.ninodes_le
  rw [createNew]
  refine wp_call (hn.start (f := fun d => { d with major, minor, nlink := 1 }) h hmem htype
    fun _ => ⟨rfl, rfl, rfl, (by decide : (1 : BitVec 16) ≠ 0)⟩) fun _ t₁ h₁ => ?_
  refine wp_call h₁ fun _ t₂ h₂ => ?_
  refine wp_call h₂ fun _ t₃ h₃ => ?_
  obtain ⟨hctx, hblock⟩ := h₃
  have hview : update v ip { Dinode.zero with type, major, minor, nlink := 1 } dp = v dp :=
    update_of_ne hne.symm _ v
  have hsees : Sees E sb B r (ip ::ₘ dp ::ₘ 0) [ip, dp]
      (Tree.born (node v s.block) ip type major minor) t₃ :=
    ⟨_, hctx, by rw [hblock]; exact node_born htype rfl rfl⟩
  have hdpT : Tree.isDir (Tree.born (node v s.block) ip type major minor) dp = true := by
    rw [Tree.isDir, Tree.born, update_of_ne hne.symm]
    exact isDir_node.mpr hdir
  have hipT : type = .dir →
      Tree.isDir (Tree.born (node v s.block) ip type major minor) ip = true := by
    intro hd
    rw [Tree.isDir, Tree.born, update_self]
    exact decide_eq_true hd
  have hroom : wp E (createEntries sb dp ip name type) (fun ok _ => type ≠ .dir →
      (ok = true ↔ EntryRoom sb (v dp) s)) t₃ := by
    by_cases hd : type = .dir
    · exact wp_mono (createEntries_sees hE hsees hdpT hipT hip16 hdp16) fun _ _ _ hnd =>
        absurd hd hnd
    · refine wp_mono (createEntries_room hctx
        (List.mem_cons_of_mem ip List.mem_cons_self) (by rw [hview, hdir])
        (by rw [hview, hblock, hnone]) hd) fun ok _ hok _ => ?_
      rw [hok, hview]
      refine EntryRoom.congr h.inv hctx.inv hblock fun x b => ?_
      rw [hblock]
      exact hn.holds (fun _ => rfl) x b
  refine wp_call (wp_and (createEntries_sees hE hsees hdpT hipT hip16 hdp16) hroom)
    fun ok t₄ h₄ => ?_
  obtain ⟨⟨htrue, hfalse⟩, hroom⟩ := h₄
  cases ok with
  | true =>
    have hdone := htrue rfl
    rw [if_pos rfl]
    refine wp_if (fun hd => ?_) fun hd => ?_
    · -- for ".."
      rw [cons_swap] at hdone
      have hkept := hdone.keep (ne_none_of_isDir (by rwa [isDir_enter]))
      refine wp_call (relink_sees (f := fun n => n + 1) hkept
        (List.mem_cons_of_mem ip List.mem_cons_self) fun _ _ _ => by rw [bump_self]; omega)
        fun _ t₅ h₅ => ?_
      refine wp_call h₅ fun _ t₆ h₆ => ?_
      refine wp_call (iunlockput_last_sees h₆.swap hnot hmem' (hB dp)) fun _ t₇ h₇ => ?_
      rw [wp_pure]
      refine .inr ⟨rfl, ?_, fun hnd => absurd hd hnd⟩
      rw [Tree.make, if_pos hd]
      exact h₇
    · refine wp_call (iunlockput_sees hdone.swap (mem_cons_of_mem
        (mem_cons_self dp 0)) hnot) fun _ t₅ h₅ => ?_
      rw [cons_swap, erase_cons_head] at h₅
      rw [wp_pure]
      refine .inr ⟨rfl, ?_, fun _ => (hroom hd).mp rfl⟩
      rw [Tree.make, if_neg hd]
      exact h₅
  | false =>
    obtain ⟨T', hT', hip, hother⟩ := hfalse rfl
    have hkept := hT'.keep hip
    rw [if_neg Bool.false_ne_true]
    refine wp_call (relink_sees (f := fun _ => 0) hkept List.mem_cons_self
      fun _ _ _ => by rw [bump_self]; omega) fun _ t₅ h₅ => ?_
    refine wp_call h₅ fun _ t₆ h₆ => ?_
    refine wp_call (iunlockput_last_sees h₆ hnot' hmem (hB ip)) fun _ t₇ h₇ => ?_
    refine wp_call (iunlockput_sees h₇ (mem_cons_self dp 0) List.not_mem_nil)
      fun _ t₈ h₈ => ?_
    rw [erase_cons_head] at h₈
    rw [wp_pure]
    refine .inl ⟨rfl, ?_, fun hd => fun hr => Bool.false_ne_true ((hroom hd).mpr hr)⟩
    have hback : (T'.relink ip fun _ => 0).drop r ip = node v s.block := by
      rw [drop_relink_zero hr hip]
      refine remove_eq hfree fun j hj => ?_
      rw [hother j hj, Tree.born, update_of_ne hj]
    rwa [hback] at h₈

/-- A new inode can be made along the names `es` from `i`: there is a directory for the last name,
without it, a free inode, and room for the entry. -/
def Tree.Creatable (T : Tree) (sb : Super) (Room : Nat → Prop) (i : Nat) (es : List Name) : Prop :=
  ∃ dp name, T.parentOf i es = some (dp, name) ∧ T.child dp name = none ∧
    (∃ j, 0 < j ∧ j < sb.ninodes ∧ T j = none) ∧ Room dp

/-- How `create` ends. -/
inductive Created (E : Stop → Prop) (sb : Super) (B : Nat → Prop) (r : Nat → Nat) (T : Tree)
    (Room : Nat → Prop) (i : Nat) (es : List Name) (type : FType) (major minor : BitVec 16) :
    Option Nat → St → Prop
  | failed {t : St} (h : Sees E sb B r 0 [] T t)
      (why : type ≠ .dir → ¬ T.Creatable sb Room i es) : Created _ _ _ _ _ _ _ _ _ _ _ none t
  | found {t : St} {ip dp : Nat} {name : Name} {n : Node} (hfile : type = .file)
      (hparent : T.parentOf i es = some (dp, name)) (hchild : T.child dp name = some ip)
      (hn : T ip = some n) (hnode : n.type = .file ∨ n.type = .device)
      (h : Sees E sb B r (ip ::ₘ 0) [ip] T t) : Created _ _ _ _ _ _ _ _ _ _ _ (some ip) t
  | made {t : St} {ip dp : Nat} {name : Name} (hparent : T.parentOf i es = some (dp, name))
      (hchild : T.child dp name = none) (hfree : T ip = none)
      (hroom : type ≠ .dir → T.Creatable sb Room i es)
      (h : Sees E sb B r (ip ::ₘ 0) [ip] (T.make r dp ip name type major minor) t) :
      Created _ _ _ _ _ _ _ _ _ _ _ (some ip) t

variable {cwd : Nat}

theorem create_ctx {path : List Byte} (hroom : E .noInodes) (hno : E .noType)
    (h : Ctx E sb B r 0 [] v s) (hcwd : 0 < r cwd) (htype : type ≠ .none) :
    wp E (create sb cwd path type major minor) (Created E sb B r (node v s.block)
      (fun dp => EntryRoom sb (v dp) s) (startOf cwd path) (elements path) type major minor) s := by
  rw [create]
  refine wp_call (namex_ctx h hcwd (.inr hno) (.inr hno) (.inr hroom))
    fun x t ht => ?_
  obtain ⟨hx, hctx, hblock⟩ := ht
  have hparent : Tree.parentOf (node v s.block) (startOf cwd path) (elements path) = x := hx.symm
  cases x with
  | none =>
    refine wp_ret (.failed ⟨v, hctx, by rw [hblock]⟩ fun _ hc => ?_)
    obtain ⟨dp, name, hp, -⟩ := hc
    rw [hparent] at hp
    cases hp
  | some y =>
    obtain ⟨dp, name⟩ := y
    have hctx : Ctx E sb B r (dp ::ₘ 0) [] v t := hctx
    have hdir : (v dp).type = .dir := isDir_node.mp (isDir_of_parentOf hparent)
    have hcount : 0 < r dp + (dp ::ₘ 0).count dp := by
      rw [count_cons_self]
      omega
    refine wp_call (ilock_ctx hctx hcount List.not_mem_nil (.inr hno)) fun _ t₁ h₁ => ?_
    obtain ⟨hctx₁, hblock₁, -⟩ := h₁
    have hchild : Tree.child (node v s.block) _ name = _ := child_node hdir
    refine wp_call (dirlookup_ctx hctx₁ List.mem_cons_self hdir (.inr hroom)) fun z t₂ h₂ => ?_
    rw [hblock₁, hblock] at h₂
    obtain ⟨hz, hctx₂, hblock₂⟩ := h₂
    cases hfind : (entries ((v dp).bytes s.block)).lookup name with
    | some y =>
      obtain ⟨ip, k⟩ := y
      rw [hfind] at hz hchild
      subst hz
      have hctx₂ : Ctx E sb B r (ip ::ₘ dp ::ₘ 0) [dp] v t₂ := hctx₂
      have hput := iunlockput_ctx hctx₂ (mem_cons_of_mem (mem_cons_self dp 0))
        List.not_mem_nil
      rw [cons_swap, erase_cons_head] at hput
      refine wp_call hput fun _ t₃ h₃ => ?_
      obtain ⟨hctx₃, hblock₃⟩ := h₃
      have hcount' : 0 < r ip + (ip ::ₘ 0).count ip := by
        rw [count_cons_self]
        omega
      refine wp_call (ilock_ctx hctx₃ hcount' List.not_mem_nil (.inr hno)) fun _ t₄ h₄ => ?_
      obtain ⟨hctx₄, hblock₄, hip⟩ := h₄
      have hT : t₄.block = s.block := by rw [hblock₄, hblock₃, hblock₂]
      have hcopy : (t₄.inode ip).d = v ip :=
        (hctx₄.inv.copy ip (hctx₄.mine ip List.mem_cons_self).live).1
      rw [wp_bind, wp_get]
      simp only [hcopy]
      refine wp_if (fun hok => ?_) fun _ => ?_
      · exact wp_ret (.found hok.1 hparent hchild (node_eq hip) hok.2
          ⟨v, hctx₄, by rw [hT]⟩)
      have hput' := iunlockput_ctx hctx₄ (mem_cons_self ip 0) List.not_mem_nil
      rw [erase_cons_head] at hput'
      refine wp_call hput' fun _ t₅ h₅ => ?_
      refine wp_ret (.failed ⟨v, h₅.1, by rw [h₅.2, hT]⟩ fun _ hc => ?_)
      obtain ⟨dp', name', hp, hc, -⟩ := hc
      rw [hparent] at hp
      cases hp
      rw [hchild] at hc
      cases hc
    | none =>
      rw [hfind] at hz hchild
      subst hz
      have hctx₂ : Ctx E sb B r (dp ::ₘ 0) [dp] v t₂ := hctx₂
      have hT : t₂.block = s.block := by rw [hblock₂]
      refine wp_call (ialloc_spec hroom hctx₂.inv) fun x t₃ h₃ => ?_
      obtain ⟨rfl, rfl, hall⟩ | ⟨ip, rfl, hn⟩ := h₃
      · have hput := iunlockput_ctx hctx₂ (mem_cons_self dp 0) List.not_mem_nil
        rw [erase_cons_head] at hput
        refine wp_call hput fun _ t₄ h₄ => ?_
        refine wp_ret (.failed ⟨v, h₄.1, by rw [h₄.2, hT]⟩ fun _ hc => ?_)
        obtain ⟨dp', name', -, -, ⟨j, hpos, hlt, hj⟩, -⟩ := hc
        exact node_ne_none.mpr (hall j hpos hlt) hj
      · have hsame : EntryRoom sb (v dp) t₂ ↔ EntryRoom sb (v dp) s :=
          EntryRoom.congr h.inv hctx₂.inv hT fun x b => by rw [hT]
        refine wp_mono (createNew_sees hroom hctx₂ hdir (by rw [hT, hfind]) hn htype)
          fun x t₄ h₄ => ?_
        rw [hT, hsame] at h₄
        obtain ⟨rfl, hs, hwhy⟩ | ⟨rfl, hs, hroom'⟩ := h₄
        · refine .failed hs fun hd hc => ?_
          obtain ⟨dp', name', hp, -, -, hr⟩ := hc
          rw [hparent] at hp
          cases hp
          exact hwhy hd hr
        · refine .made hparent hchild (node_eq_none hn.free) (fun hd => ?_) hs
          exact ⟨dp, name, hparent, hchild, ⟨ip, hn.range.1, hn.range.2, node_eq_none hn.free⟩,
            hroom' hd⟩

/-! ## link -/

theorem child_relink : (T.relink i f).child = T.child := by
  funext j name
  unfold Tree.child
  by_cases hj : j = i
  · rw [hj, Tree.relink, Tree.modify_self]
    cases T i <;> rfl
  · rw [Tree.relink, Tree.modify_of_ne hj]

theorem parentOf_relink {es : List Name} :
    (T.relink i f).parentOf j es = T.parentOf j es := by
  unfold Tree.parentOf Tree.walk
  simp only [child_relink, isDir_relink]

theorem relink_relink {g : BitVec 16 → BitVec 16} (h : ∀ n, g (f n) = n) :
    (T.relink i f).relink i g = T := by
  funext j
  by_cases hj : j = i
  · rw [hj, Tree.relink, Tree.modify_self, Tree.relink, Tree.modify_self, Option.map_map]
    cases T i with
    | none => rfl
    | some n => simp only [Option.map_some, Function.comp_apply, h]
  · rw [Tree.relink, Tree.modify_of_ne hj, Tree.relink, Tree.modify_of_ne hj]

theorem drop_eq_self (h : ∀ n, T i = some n → n.nlink = 0 → 0 < r i) : T.drop r i = T := by
  refine if_neg fun hc => ?_
  obtain ⟨h0, hany⟩ := hc
  obtain ⟨n, hn, hlink⟩ := (Option.any_eq_true _ _).mp hany
  have hpos := h n hn (of_decide_eq_true hlink)
  omega

/-- The link that was counted is taken back. -/
theorem linkBad_sees (hno : E .noType) (h : Sees E sb B (bump r ip) 0 [] (T.relink ip fun n => n + 1) s)
    (hB : B ip → 0 < r ip) (horphan : ∀ n, T ip = some n → n.nlink = 0 → 0 < r ip) :
    wp E (linkBad ip) (fun x t => x = false ∧ Sees E sb B r 0 [] T t) s := by
  have hback : (T.relink ip fun n => n + 1).relink ip (fun n => n - 1) = T :=
    relink_relink fun n => BitVec.add_sub_cancel n 1
  have hpos : ∀ x, 0 < bump r ip ip + x := by
    intro x
    rw [bump_self]
    omega
  rw [linkBad]
  refine wp_call (ilock_sees h (hpos _) List.not_mem_nil (.inr hno)) fun _ t₁ h₁ => ?_
  refine wp_call (relink_sees (f := fun n => n - 1) h₁.1 List.mem_cons_self fun _ _ _ => hpos 0)
    fun _ t₂ h₂ => ?_
  refine wp_call h₂ fun _ t₃ h₃ => ?_
  rw [hback] at h₃
  refine wp_call (iunlockput_last_sees h₃ List.not_mem_nil (notMem_zero ip) hB)
    fun _ t₄ h₄ => ?_
  rw [drop_eq_self horphan] at h₄
  exact wp_ret ⟨rfl, h₄⟩

/-- How `link` ends. -/
inductive DidLink (E : Stop → Prop) (sb : Super) (B : Nat → Prop) (r : Nat → Nat) (T : Tree)
    (i : Nat) (old : List Name) (j : Nat) (new : List Name) : Bool → St → Prop
  | failed {t : St} (h : Sees E sb B r 0 [] T t) : DidLink _ _ _ _ _ _ _ _ _ false t
  | done {t : St} {ip dp : Nat} {name : Name} {n : Node} (hold : T.walk i old = some ip)
      (hn : T ip = some n) (htype : n.type ≠ .dir) (hparent : T.parentOf j new = some (dp, name))
      (hchild : T.child dp name = none)
      (h : Sees E sb B r 0 [] (((T.relink ip fun n => n + 1).put dp name ip).drop r ip) t) :
      DidLink _ _ _ _ _ _ _ _ _ true t

theorem sysLink_sees {old new : List Byte} (hroom : E .noInodes) (hno : E .noType)
    (h : Sees E sb B r 0 [] T s) (hcwd : 0 < r cwd) :
    wp E (sysLink sb cwd old new) (DidLink E sb B r T (startOf cwd old) (elements old)
      (startOf cwd new) (elements new)) s := by
  rw [sysLink]
  refine wp_call (namei_sees h hcwd hno hroom) fun x t ht => ?_
  obtain ⟨hwalk, ht⟩ := ht
  cases x with
  | none => exact wp_ret (.failed ht)
  | some ip =>
    have ht : Sees E sb B r (ip ::ₘ 0) [] T t := ht
    refine wp_call (ilock_sees ht (by rw [count_cons_self]; omega) List.not_mem_nil
      (.inr hno)) fun _ t₁ h₁ => ?_
    obtain ⟨h₁, hne⟩ := h₁
    obtain ⟨n, hn, htype, -⟩ := h₁.copy List.mem_cons_self
    have hip16 := (h₁.range hne).2
    have horphan : ∀ n, T ip = some n → n.nlink = 0 → 0 < r ip := fun _ => h₁.orphan
    have hB : B ip → 0 < r ip := h₁.others
    rw [wp_bind, wp_get, htype]
    refine wp_if (fun _ => ?_) fun hdir' => ?_
    · refine wp_call (iunlockput_sees h₁ (mem_cons_self ip 0) List.not_mem_nil)
        fun _ t₂ h₂ => ?_
      rw [erase_cons_head] at h₂
      exact wp_ret (.failed h₂)
    have hpos : ∀ x, 0 < bump r ip ip + x := by
      intro x
      rw [bump_self]
      omega
    refine wp_call (relink_sees (f := fun n => n + 1) (h₁.keep hne) List.mem_cons_self
      fun _ _ _ => hpos 0) fun _ t₂ h₂ => ?_
    refine wp_call h₂ fun _ t₃ h₃ => ?_
    refine wp_call (iunlock_sees h₃ List.not_mem_nil) fun _ t₄ h₄ => ?_
    refine wp_call (namex_sees h₄ (lt_of_lt_of_le hcwd le_bump) hno hroom)
      fun x t₅ h₅ => ?_
    obtain ⟨hx, h₅⟩ := h₅
    have hparent : x = T.parentOf (startOf cwd new) (elements new) :=
      hx.trans parentOf_relink
    cases x with
    | none =>
      refine wp_mono (linkBad_sees hno h₅ hB horphan) fun x t₆ h₆ => ?_
      obtain ⟨rfl, h₆⟩ := h₆
      exact .failed h₆
    | some y =>
      obtain ⟨dp, name⟩ := y
      have h₅ : Sees E sb B (bump r ip) (dp ::ₘ 0) [] (T.relink ip fun n => n + 1) t₅ := h₅
      have hdir : (T.relink ip fun n => n + 1).isDir dp = true := by
        rw [isDir_relink]
        exact isDir_of_parentOf hparent.symm
      refine wp_call (ilock_sees h₅ (by rw [count_cons_self]; omega) List.not_mem_nil
        (.inr hno)) fun _ t₆ h₆ => ?_
      refine wp_call (dirlink_sees hroom h₆.1 List.mem_cons_self hdir hip16) fun ok t₇ h₇ => ?_
      obtain ⟨h₇, hfind⟩ := h₇
      have hput := iunlockput_sees h₇ (mem_cons_self dp 0) List.not_mem_nil
      rw [erase_cons_head] at hput
      cases ok with
      | true =>
        rw [if_pos rfl]
        refine wp_call hput fun _ t₈ h₈ => ?_
        refine wp_call (iput_last_sees h₈ List.not_mem_nil (notMem_zero ip) hB)
          fun _ t₉ h₉ => ?_
        refine wp_ret (.done hwalk.symm hn hdir' hparent.symm ?_ h₉)
        rw [← child_relink, child_eq_find, hfind rfl]
        rfl
      | false =>
        rw [if_neg Bool.false_ne_true]
        refine wp_call hput fun _ t₈ h₈ => ?_
        refine wp_mono (linkBad_sees hno h₈ hB horphan) fun x t₉ h₉ => ?_
        obtain ⟨rfl, h₉⟩ := h₉
        exact .failed h₉

/-! ## unlink -/

/-- The entry in slot `k` of `dp` and the link of `ip` go. -/
def Tree.unlink (T : Tree) (r : Nat → Nat) (dp k ip : Nat) : Tree :=
  let T₁ := if T.isDir ip then (T.clear dp k).relink dp (fun n => n - 1) else T.clear dp k
  ((T₁.drop r dp).relink ip fun n => n - 1).drop r ip

theorem drop_of_ne (hj : j ≠ i) : T.drop r i j = T j := by
  unfold Tree.drop
  split
  · exact update_of_ne hj _ T
  · rfl

/-- The end of `unlink`, with the directory kept by `bump r dp`. -/
theorem unlinkEnd_sees (h : Sees E sb B (bump r dp) (ip ::ₘ 0) [ip, dp] T s) (hne : ip ≠ dp)
    (hB : ∀ i, B i → 0 < r i) (hip : T ip ≠ none) :
    wp E (do
      iunlockput dp
      setCopy ip fun d => { d with nlink := d.nlink - 1 }
      iupdate ip
      iunlockput ip
      return true) (fun x t => x = true ∧
        Sees E sb B r 0 [] (((T.drop r dp).relink ip fun n => n - 1).drop r ip) t) s := by
  have hdp : dp ∉ ip ::ₘ 0 := by
    rw [mem_cons, not_or]
    exact ⟨hne.symm, notMem_zero dp⟩
  have hnot : dp ∉ [ip] := by
    rw [List.mem_singleton]
    exact hne.symm
  refine wp_call (iunlockput_last_sees h.swap hnot hdp (hB dp)) fun _ t₁ h₁ => ?_
  have hkept := h₁.keep (by rwa [drop_of_ne hne])
  refine wp_call (relink_sees (f := fun n => n - 1) hkept List.mem_cons_self
    fun _ _ _ => by rw [bump_self]; omega) fun _ t₂ h₂ => ?_
  refine wp_call h₂ fun _ t₃ h₃ => ?_
  refine wp_call (iunlockput_last_sees h₃ List.not_mem_nil (notMem_zero ip) (hB ip))
    fun _ t₄ h₄ => ?_
  exact wp_ret ⟨rfl, h₄⟩

theorem unlinkEntry_sees (h : Sees E sb B r (ip ::ₘ dp ::ₘ 0) [ip, dp] T s) (hne : ip ≠ dp)
    (hfind : T.find dp name = some (ip, k)) :
    wp E (unlinkEntry sb dp ip (k * DESIZE)) (fun x t =>
      x = true ∧ Sees E sb B r 0 [] (T.unlink r dp k ip) t) s := by
  have hB : ∀ i, B i → 0 < r i := fun i hi => h.others hi
  rw [unlinkEntry]
  refine wp_call (writeDirent_sees h (List.mem_cons_of_mem ip List.mem_cons_self) hfind)
    fun ok t₁ h₁ => ?_
  obtain ⟨rfl, h₁⟩ := h₁
  rw [cons_swap] at h₁
  have hip : T.clear dp k ip ≠ none := by
    obtain ⟨n, hn, -⟩ := h₁.copy List.mem_cons_self
    rw [hn]
    nofun
  have hdp : T.clear dp k dp ≠ none := by
    obtain ⟨n, hn, -⟩ := h₁.copy (List.mem_cons_of_mem ip List.mem_cons_self)
    rw [hn]
    nofun
  have hkept := h₁.keep hdp
  obtain ⟨n, hn, htype, -⟩ := h₁.copy (i := ip) List.mem_cons_self
  have hisDir : (t₁.inode ip).d.type = .dir ↔ T.isDir ip = true := by
    have hclear : (T.clear dp k).isDir ip = T.isDir ip := isDir_modify fun _ => rfl
    rw [htype, ← hclear, Tree.isDir, hn]
    exact decide_eq_true_iff.symm
  rw [if_neg (by decide), wp_bind, wp_get]
  dsimp only
  rw [Tree.unlink, wp_ite, hisDir]
  refine ⟨fun hdir => ?_, fun hdir => ?_⟩
  · rw [if_pos hdir]
    refine wp_call (relink_sees (f := fun n => n - 1) hkept
      (List.mem_cons_of_mem ip List.mem_cons_self) fun _ _ _ => by rw [bump_self]; omega)
      fun _ t₂ h₂ => ?_
    refine wp_call h₂ fun _ t₃ h₃ => ?_
    exact unlinkEnd_sees h₃ hne hB (ne_none_modify.mpr hip)
  · rw [if_neg hdir]
    exact unlinkEnd_sees hkept hne hB hip

/-- How `unlink` ends. -/
inductive DidUnlink (E : Stop → Prop) (sb : Super) (B : Nat → Prop) (r : Nat → Nat) (T : Tree)
    (i : Nat) (es : List Name) : Bool → St → Prop
  | failed {t : St} (h : Sees E sb B r 0 [] T t) : DidUnlink _ _ _ _ _ _ _ false t
  | done {t : St} {dp ip k : Nat} {name : Name} {n : Node}
      (hparent : T.parentOf i es = some (dp, name)) (hname : name ≠ dot ∧ name ≠ dotdot)
      (hfind : T.find dp name = some (ip, k)) (hne : ip ≠ dp) (hn : T ip = some n)
      (hlink : 1 ≤ n.nlink.toInt) (hempty : n.type = .dir → emptyDir n.bytes = true)
      (h : Sees E sb B r 0 [] (T.unlink r dp k ip) t) : DidUnlink _ _ _ _ _ _ _ true t

theorem sysUnlink_sees {path : List Byte} (hroom : E .noInodes) (hno : E .noType)
    (hlock : E .asleep) (hlink : E .unlinkNlink) (h : Sees E sb B r 0 [] T s) (hcwd : 0 < r cwd) :
    wp E (sysUnlink sb cwd path) (DidUnlink E sb B r T (startOf cwd path) (elements path)) s := by
  rw [sysUnlink]
  refine wp_call (namex_sees h hcwd hno hroom) fun x t ht => ?_
  obtain ⟨hx, ht⟩ := ht
  have hparent : x = T.parentOf (startOf cwd path) (elements path) := hx
  cases x with
  | none => exact wp_ret (.failed ht)
  | some y =>
    obtain ⟨dp, name⟩ := y
    have ht : Sees E sb B r (dp ::ₘ 0) [] T t := ht
    have hdir : T.isDir dp = true := isDir_of_parentOf hparent.symm
    refine wp_call (ilock_sees ht (by rw [count_cons_self]; omega) List.not_mem_nil
      (.inr hno)) fun _ t₁ h₁ => ?_
    obtain ⟨h₁, -⟩ := h₁
    have hput : ∀ {t}, Sees E sb B r (dp ::ₘ 0) [dp] T t → wp E (iunlockput dp) (fun _ u =>
        wp E (pure false) (DidUnlink E sb B r T (startOf cwd path) (elements path)) u) t := by
      intro t ht
      refine wp_mono (iunlockput_sees ht (mem_cons_self dp 0) List.not_mem_nil)
        fun _ u hu => ?_
      rw [erase_cons_head] at hu
      exact wp_ret (.failed hu)
    refine wp_if (fun _ => wp_bind.mpr (hput h₁)) fun hname => ?_
    refine wp_call (dirlookup_sees h₁ List.mem_cons_self hdir (.inr hroom)) fun z t₂ h₂ => ?_
    obtain ⟨hz, h₂⟩ := h₂
    cases hfind : T.find dp name with
    | none =>
      rw [hfind] at hz
      subst hz
      exact wp_bind.mpr (hput h₂)
    | some y =>
      obtain ⟨ip, k⟩ := y
      rw [hfind] at hz
      subst hz
      have h₂ : Sees E sb B r (ip ::ₘ dp ::ₘ 0) [dp] T t₂ := h₂
      show wp E (ilock ip >>= _) _ t₂
      rw [wp_bind]
      by_cases hne : ip = dp
      · exact ilock_self_sees hlock h₂ (by rw [hne]; exact List.mem_cons_self)
      have hnot : ip ∉ [dp] := by
        rw [List.mem_singleton]
        exact hne
      refine wp_mono (ilock_sees h₂ (by rw [count_cons_self]; omega) hnot
        (.inr hno)) fun _ t₃ h₃ => ?_
      obtain ⟨h₃, -⟩ := h₃
      obtain ⟨n, hn, htype, hnlink, -⟩ := h₃.copy (i := ip) List.mem_cons_self
      have hunlink : (n.type = .dir → emptyDir n.bytes = true) → 1 ≤ n.nlink.toInt →
          ∀ {t}, Sees E sb B r (ip ::ₘ dp ::ₘ 0) [ip, dp] T t →
          wp E (unlinkEntry sb dp ip (k * DESIZE))
            (DidUnlink E sb B r T (startOf cwd path) (elements path)) t := by
        intro hempty hone t ht
        refine wp_mono (unlinkEntry_sees ht hne hfind) fun x u hu => ?_
        obtain ⟨rfl, hu⟩ := hu
        exact .done hparent.symm (not_or.mp hname) hfind hne hn hone hempty hu
      rw [wp_bind, wp_get, hnlink]
      refine wp_if (fun _ => (wp_throw _).mpr hlink) fun hone => ?_
      rw [wp_bind, wp_get, htype]
      refine wp_if (fun hd => ?_) fun hd => hunlink (fun hd' => absurd hd' hd) (by omega) h₃
      have hisDir : T.isDir ip = true := by
        rw [Tree.isDir, hn]
        exact decide_eq_true hd
      refine wp_call (isdirempty_sees h₃ List.mem_cons_self hisDir) fun b t₄ h₄ => ?_
      obtain ⟨h₄, hb⟩ := h₄
      rw [hn, Option.map_some, Option.some.injEq] at hb
      cases b with
      | true => exact hunlink (fun _ => hb) (by omega) h₄
      | false =>
        rw [if_neg Bool.false_ne_true]
        refine wp_call (iunlockput_sees h₄ (mem_cons_self ip _) hnot) fun _ t₅ h₅ => ?_
        rw [erase_cons_head] at h₅
        exact wp_bind.mpr (hput h₅)

end

end Xv6.Fs
