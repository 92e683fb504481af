import Xv6.Fs.Resolve

/-!
# Xv6.Fs.Tree — the operations as changes of the tree

What the operations do during a call, one rule for each: an entry is put into a directory or
cleared, the fields of a locked inode change, a free inode is taken, and an inode goes with its
last reference.
-/

namespace Xv6.Fs

open Lib Function Multiset

/-! ## Changes -/

def Tree.modify (T : Tree) (i : Nat) (g : Node → Node) : Tree :=
  update T i ((T i).map g)

/-- An entry is put into the first empty slot. -/
def Tree.put (T : Tree) (dp : Nat) (name : Name) (inum : Nat) : Tree :=
  T.modify dp fun n =>
    { n with bytes := place n.bytes ((entries n.bytes).free * DESIZE) (Dirent.bytes ⟨inum, name⟩) }

/-- The entry in slot `k` is cleared. -/
def Tree.clear (T : Tree) (dp k : Nat) : Tree :=
  T.modify dp fun n => { n with bytes := place n.bytes (k * DESIZE) (List.replicate DESIZE 0) }

def Tree.relink (T : Tree) (i : Nat) (f : BitVec 16 → BitVec 16) : Tree :=
  T.modify i fun n => { n with nlink := f n.nlink }

def Tree.remove (T : Tree) (i : Nat) : Tree := update T i none

/-- One more reference to `i`. -/
def bump (r : Nat → Nat) (i : Nat) : Nat → Nat := update r i (r i + 1)

section
variable {E : Stop → Prop} {sb : Super} {B : Nat → Prop} {r : Nat → Nat} {H : Multiset Nat}
  {L : List Nat} {v w : Nat → Dinode} {s t : St} {blk blk' : Nat → Block} {i j k dp : Nat}
  {T : Tree}

theorem Tree.modify_self {g : Node → Node} : T.modify i g i = (T i).map g :=
  update_self i _ T

theorem Tree.modify_of_ne {g : Node → Node} (h : j ≠ i) : T.modify i g j = T j :=
  update_of_ne h _ T

theorem node_eq (h : (v i).type ≠ .none) : node v blk i =
    some ⟨(v i).type, (v i).major, (v i).minor, (v i).nlink, (v i).bytes blk⟩ := if_neg h

theorem node_eq_none (h : (v i).type = .none) : node v blk i = none := if_pos h

/-- Inode `i` is the only one that is seen to change. -/
theorem node_update (hother : ∀ j ≠ i, w j = v j)
    (hbytes : ∀ j ≠ i, (v j).type ≠ .none → (w j).bytes blk' = (v j).bytes blk) :
    node w blk' = update (node v blk) i (node w blk' i) := by
  funext j
  by_cases hj : j = i
  · rw [hj, update_self]
  rw [update_of_ne hj]
  unfold node
  rw [hother j hj]
  split
  · rfl
  · next ht =>
    have hb := hbytes j hj ht
    rw [hother j hj] at hb
    rw [hb]

/-! ## Entries -/

theorem DirWritten.node_eq (h : DirWritten sb dp v s w t) (hdir : (v dp).type = .dir) :
    node w t.block = Tree.modify (node v s.block) dp fun n =>
      { n with bytes := (w dp).bytes t.block } := by
  have hne : (v dp).type ≠ .none := by
    rw [hdir]
    nofun
  have htype : (w dp).type = (v dp).type := by rw [h.fields]
  rw [node_update h.other h.bytes, Tree.modify, Fs.node_eq hne, Fs.node_eq (by rwa [htype])]
  congr 1
  rw [h.fields]
  rfl

theorem Ctx.dirWritten (h : Ctx E sb B r H L v s) (hw : DirWritten sb dp v s w t)
    (halign : Aligned ((w dp).bytes t.block)) : Ctx E sb B r H L w t := by
  have hfields : ∀ j, (w j).type = (v j).type ∧ (w j).nlink = (v j).nlink := by
    intro j
    by_cases hj : j = dp
    · rw [hj, hw.fields]
      exact ⟨rfl, rfl⟩
    · rw [hw.other j hj]
      exact ⟨rfl, rfl⟩
  refine ⟨hw.inv, fun j => by rw [hw.kept.ref, h.ref], fun j hj => hw.locked (h.mine j hj),
    fun j hj => h.busy j (by rwa [← hw.kept.locked]), h.others, fun j hj => ?_, fun j ht hn => ?_,
    fun j hd => ?_⟩
  · rw [(hfields j).1]
    exact h.held j hj
  · rw [(hfields j).1] at ht
    rw [(hfields j).2] at hn
    obtain ⟨hpos, hval⟩ := h.orphan j ht hn
    refine ⟨hpos, ?_⟩
    rw [hw.kept.valid j (by rw [h.ref]; omega)]
    exact hval
  · by_cases hj : j = dp
    · rw [hj]
      exact halign
    · rw [(hfields j).1] at hd
      rw [hw.bytes j hj (by rw [hd]; nofun)]
      exact h.dirs j hd

/-! ## Fields -/

/-- New fields of a locked inode, in memory and on disk. -/
theorem Ctx.setFields {d : Dinode} (h : Ctx E sb B r H L v s) (hi : i ∈ L)
    (htype : d.type = (v i).type) (haddrs : d.addrs = (v i).addrs) (hsize : d.size = (v i).size)
    (horphan : d.nlink = 0 → 0 < r i) :
    Ctx E sb B r H L (update v i d)
      { s with inode := update s.inode i { s.inode i with d := d }
               dinode := update s.dinode i d } := by
  have hl := h.mine i hi
  have hlive := hl.live
  have hbytes : ∀ j, (update v i d j).bytes s.block = (v j).bytes s.block := by
    refine update_field (Dinode.bytes · s.block) ?_
    rw [Dinode.bytes, Dinode.bytes, hsize]
    exact contents_congr fun k _ => content_congr haddrs
  have htypes : ∀ j, (update v i d j).type = (v j).type := update_field Dinode.type htype
  have hfull : Full d s.block := by
    intro bn hbn
    rw [hsize] at hbn
    obtain ⟨hlt, hne⟩ := h.inv.full i (h.inv.copy i hlive).2 bn hbn
    refine ⟨hlt, ?_⟩
    rwa [slot_congr (d := v i) (fun k _ => by rw [haddrs]) fun _ => rfl]
  have hkept : Kept s { s with
      inode := update s.inode i { s.inode i with d := d }
      dinode := update s.dinode i d } := .setCopy s i d rfl
  refine ⟨h.inv.setFields hlive htype haddrs hfull, fun j => by rw [hkept.ref, h.ref],
    fun j hj => ?_, fun j hj => h.busy j (by rwa [← hkept.locked]), h.others, fun j hj => ?_,
    fun j ht hn => ?_, fun j hd => ?_⟩
  · have hlj := h.mine j hj
    refine ⟨⟨?_, ?_⟩, ?_, ?_⟩
    · rw [hkept.ref]
      exact hlj.live.1
    · rw [hkept.valid j hlj.live.1]
      exact hlj.live.2
    · rw [hkept.locked]
      exact hlj.locked
    · by_cases hji : j = i
      · simp only [hji, update_self]
      · simp only [update_of_ne hji]
        exact hlj.disk
  · rw [htypes]
    exact h.held j hj
  · by_cases hji : j = i
    · rw [hji, update_self] at hn
      rw [hji]
      refine ⟨horphan hn, ?_⟩
      rw [hkept.valid i hlive.1]
      exact hlive.2
    · rw [update_of_ne hji] at ht hn
      obtain ⟨hpos, hval⟩ := h.orphan j ht hn
      refine ⟨hpos, ?_⟩
      rw [hkept.valid j (by rw [h.ref]; omega)]
      exact hval
  · rw [hbytes]
    rw [htypes] at hd
    exact h.dirs j hd

/-! ## References that keep an inode -/

theorem bump_self : bump r i i = r i + 1 := update_self i _ r

theorem bump_of_ne (h : j ≠ i) : bump r i j = r j := update_of_ne h _ r

theorem le_bump : r j ≤ bump r i j := by
  by_cases h : j = i
  · rw [h, bump_self]
    exact Nat.le_succ _
  · rw [bump_of_ne h]

/-- The reference to an inode that may lose its links. -/
theorem Ctx.keep (h : Ctx E sb B r (i ::ₘ H) L v s) (hi : (v i).type ≠ .none) :
    Ctx E sb B (bump r i) H L v s := by
  refine { h with ref := fun j => ?_, others := fun j hj => ?_, held := fun j hj => ?_,
                  orphan := fun j ht hn => ?_ }
  · rw [h.ref]
    by_cases hj : j = i
    · rw [hj, bump_self, count_cons_self]
      omega
    · rw [bump_of_ne hj, count_cons_of_ne hj]
  · have hpos := h.others j hj
    exact ⟨hpos.1, lt_of_lt_of_le hpos.2 le_bump⟩
  · by_cases hji : j = i
    · rw [hji]
      exact hi
    · rw [bump_of_ne hji] at hj
      exact h.held j hj
  · have hpos := h.orphan j ht hn
    exact ⟨lt_of_lt_of_le hpos.1 le_bump, hpos.2⟩

/-- The reference is gone, and the inode with it or not. -/
theorem Ctx.dropped (h : Ctx E sb B (bump r i) H L v s) (hL : i ∉ L) (hB : B i → 0 < r i)
    (hinv : Inv sb w t) (hblock : t.block = s.block) (hinode : ∀ j ≠ i, t.inode j = s.inode j)
    (hdinode : ∀ j ≠ i, t.dinode j = s.dinode j) (hother : ∀ j ≠ i, w j = v j)
    (href : (t.inode i).ref = r i + H.count i)
    (hlocked : (t.inode i).locked = true → (s.inode i).locked = true)
    (hself : (w i).type = .none ∧ r i = 0 ∨
      w i = v i ∧ (t.inode i).valid = (s.inode i).valid ∧ ((v i).nlink = 0 → 0 < r i)) :
    Ctx E sb B r H L w t := by
  refine ⟨hinv, fun j => ?_, fun j hj => ?_, fun j hj => ?_, fun j hj => ⟨(h.others j hj).1, ?_⟩,
    fun j hj => ?_, fun j ht hn => ?_, fun j hd => ?_⟩
  all_goals by_cases hji : j = i
  · rw [hji, href]
  · rw [hinode j hji, h.ref, bump_of_ne hji]
  · rw [hji] at hj
    exact absurd hj hL
  · have hl := h.mine j hj
    refine ⟨?_, ?_, ?_⟩
    · rw [hinode j hji]
      exact hl.live
    · rw [hinode j hji]
      exact hl.locked
    · rw [hdinode j hji, hother j hji]
      exact hl.disk
  · rw [hji] at hj ⊢
    exact h.busy i (hlocked hj)
  · rw [hinode j hji] at hj
    exact h.busy j hj
  · rw [hji] at hj ⊢
    exact hB hj
  · have hpos := (h.others j hj).2
    rwa [bump_of_ne hji] at hpos
  · rw [hji] at hj ⊢
    obtain ⟨-, h0⟩ | ⟨heq, -⟩ := hself
    · omega
    · rw [heq]
      exact h.held i (lt_of_lt_of_le hj le_bump)
  · rw [hother j hji]
    exact h.held j (lt_of_lt_of_le hj le_bump)
  · rw [hji] at ht hn ⊢
    obtain ⟨hfree, -⟩ | ⟨heq, hvalid, hkeep⟩ := hself
    · exact absurd hfree ht
    · rw [heq] at ht hn
      rw [hvalid]
      exact ⟨hkeep hn, (h.orphan i ht hn).2⟩
  · rw [hother j hji] at ht hn
    have hpos := h.orphan j ht hn
    rwa [bump_of_ne hji, ← hinode j hji] at hpos
  · rw [hji] at hd ⊢
    obtain ⟨hfree, -⟩ | ⟨heq, -⟩ := hself
    · rw [hfree] at hd
      cases hd
    · rw [heq] at hd ⊢
      rw [hblock]
      exact h.dirs i hd
  · rw [hother j hji] at hd ⊢
    rw [hblock]
    exact h.dirs j hd

/-- `iput` of such a reference frees the inode if it is the last one and there are no links. -/
theorem iput_last_ctx (h : Ctx E sb B (bump r i) H L v s) (hL : i ∉ L) (hH : i ∉ H)
    (hB : B i → 0 < r i) :
    wp E (iput i) (fun _ t => ∃ w, Ctx E sb B r H L w t ∧ node w t.block =
      if r i = 0 ∧ (v i).nlink = 0 then Tree.remove (node v s.block) i else node v s.block) s := by
  have hcount : H.count i = 0 := count_eq_zero_of_notMem hH
  have href : (s.inode i).ref = r i + 1 := by rw [h.ref, bump_self, hcount]
  have hunlocked : (s.inode i).ref = 1 → (s.inode i).locked = false := by
    intro hone
    by_contra hl
    have hpos := hB ((h.busy i (Bool.of_not_eq_false hl)).resolve_left hL)
    omega
  have htype : (v i).type ≠ .none := h.held i (by rw [bump_self]; omega)
  refine wp_mono (iput_spec h.inv (by omega) hunlocked) fun _ t ht => ?_
  obtain ⟨hnot, hinv, rfl⟩ | ⟨w, hw⟩ := ht
  · have hkeep : ¬ (r i = 0 ∧ (v i).nlink = 0) := by
      rintro ⟨h0, hn⟩
      have hval := (h.orphan i htype hn).2
      refine hnot ⟨by omega, hval, ?_⟩
      rw [(h.inv.copy i ⟨by omega, hval⟩).1, hn]
    refine ⟨v, h.dropped hL hB hinv rfl (fun j hj => update_of_ne hj _ _)
      (fun _ _ => rfl) (fun _ _ => rfl) ?_ ?_ (.inr ⟨rfl, ?_, fun hn => ?_⟩), by rw [if_neg hkeep]⟩
    · simp only [update_self, href, hcount]
      rfl
    · simp only [update_self, imp_self]
    · simp only [update_self]
    · by_contra h0
      exact hkeep ⟨by omega, hn⟩
  · obtain ⟨hone, hval, hlink⟩ := hw.doomed
    rw [(h.inv.copy i ⟨by omega, hval⟩).1] at hlink
    have h0 : r i = 0 := by omega
    refine ⟨w, h.dropped hL hB hw.inv hw.block hw.inode hw.dinode hw.other ?_ (fun hl => ?_)
      (.inl ⟨hw.gone, h0⟩), ?_⟩
    · rw [hw.entry.1, h0, hcount]
    · rw [hw.entry.2] at hl
      cases hl
    · rw [if_pos ⟨h0, hlink⟩, node_update (v := v) hw.other fun j hj _ => by
        rw [hw.other j hj, hw.block], node_eq_none hw.gone]
      rfl

/-! ## New inodes -/

/-- A new inode is locked and gets its fields and its first link. -/
theorem NewInode.start {type : FType} {f : Dinode → Dinode} (hn : NewInode sb type v s i t)
    (h : Ctx E sb B r H L v s) (hi : i ∉ H) (htype : type ≠ .none)
    (hf : ∀ d, (f d).type = d.type ∧ (f d).addrs = d.addrs ∧ (f d).size = d.size ∧
      (f d).nlink ≠ 0) :
    wp E (ilock i) (fun _ t => wp E (setCopy i f) (fun _ t => wp E (iupdate i) (fun _ u =>
      Ctx E sb B r (i ::ₘ H) (i :: L) (update v i (f { Dinode.zero with type })) u ∧
      u.block = s.block) t) t) t := by
  have hr : r i = 0 := by
    by_contra hpos
    exact h.held i (Nat.pos_of_ne_zero hpos) hn.free
  have hcount : H.count i = 0 := count_eq_zero_of_notMem hi
  have hzero : (s.inode i).ref = 0 := by rw [h.ref, hr, hcount]
  have href : (t.inode i).ref = 1 := by rw [hn.ref, hzero]
  have hunlocked : (t.inode i).locked = false := by
    rw [hn.locked]
    by_contra hl
    have hpos := h.inv.pin i (Bool.of_not_eq_false hl)
    omega
  have hview : update v i { Dinode.zero with type } i = { Dinode.zero with type } :=
    update_self i _ v
  refine wp_mono (ilock_spec hn.inv (.inl (by omega)) (.inl hunlocked)
    (.inl (by rwa [hview]))) fun _ t₁ ht₁ => ?_
  obtain ⟨hinv, hlock, -, rfl⟩ := ht₁
  obtain ⟨hft, hfa, hfs, hfn⟩ := hf { Dinode.zero with type }
  rw [wp_setCopy, wp_iupdate]
  have hset := hinv.setFields hlock.live
    (by rw [hview, hft]) (by rw [hview, hfa]) fun bn hbn => by
      rw [hfs] at hbn
      exact absurd hbn (Nat.not_lt_zero _)
  rw [update_idem] at hset
  simp only [update_self, update_idem] at hset ⊢
  refine ⟨⟨hset, fun j => ?_, fun j hj => ?_, fun j hj => ?_, h.others, fun j hj => ?_,
    fun j ht hn' => ?_, fun j hd => ?_⟩, hn.block⟩
  all_goals by_cases hji : j = i
  · simp only [hji, update_self, count_cons_self, href, hr, hcount]
  · simp only [update_of_ne hji, count_cons_of_ne hji]
    rw [hn.inode j hji, h.ref]
  · rw [hji]
    refine ⟨?_, ?_, ?_⟩
    · simp only [update_self]
      exact ⟨Nat.lt_of_lt_of_eq Nat.one_pos href.symm, rfl⟩
    · simp only [update_self]
    · simp only [update_self]
  · have hl := h.mine j ((List.mem_cons.mp hj).resolve_left hji)
    refine ⟨?_, ?_, ?_⟩
    · simp only [update_of_ne hji]
      rw [hn.inode j hji]
      exact hl.live
    · simp only [update_of_ne hji]
      rw [hn.inode j hji]
      exact hl.locked
    · simp only [update_of_ne hji]
      rw [hn.dinode j hji]
      exact hl.disk
  · rw [hji]
    exact .inl List.mem_cons_self
  · simp only [update_of_ne hji] at hj
    rw [hn.inode j hji] at hj
    exact (h.busy j hj).imp_left (List.mem_cons_of_mem i)
  · rw [hji] at hj
    omega
  · rw [update_of_ne hji]
    exact h.held j hj
  · rw [hji, update_self] at hn'
    exact absurd hn' hfn
  · rw [update_of_ne hji] at ht hn'
    simp only [update_of_ne hji]
    rw [hn.inode j hji]
    exact h.orphan j ht hn'
  · rw [hji, update_self, Aligned, length_bytes, hfs]
    exact Nat.dvd_zero _
  · rw [update_of_ne hji] at hd ⊢
    rw [hn.block]
    exact h.dirs j hd

end

end Xv6.Fs
