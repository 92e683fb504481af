import Xv6.Fs.Content
import Xv6.Fs.Table
import Xv6.Mkfs.Basic

/-!
# Xv6.Mkfs.Append — iappend does what the kernel's writei does

An image under construction is seen as a disk of the kernel on which the blocks below
`freeblock` are in use. The first free block is then the next one, so that a step of
`iappend` is a step of `writei` at the end of the file (`blockFor_bmap`, `iappend_writei`).
What is known of `writei` is thereby known of `iappend`.
-/

namespace Xv6.Mkfs

open Lib Fs Function List

/-- The inodes that have a place before the data blocks. There are more than `NINODES`: the
last inode block is filled up, and then comes the bitmap. -/
def maxInodes : Nat := (ninodeblocks + nbitmap) * IPB

/-- The kernel's superblock, with room for all these inodes. -/
def wide : Super := ⟨FSSIZE, nblocks, maxInodes, by decide, by decide, by decide⟩

/-- The image as a disk of the kernel. -/
def St.abs (m : St) : Fs.St where
  bitmap b := b < m.freeblock
  block b := if b < nmeta then zeroes else m.disk b
  dinode i := if i < maxInodes then getDinode (m.disk (IBLOCK i sb)) (i % IPB) else Dinode.zero
  inode _ := ⟨0, false, false, Dinode.zero⟩

/-- The disk `s` with inode `i` locked and its copy `d` in the table. -/
def opened (s : Fs.St) (i : Nat) (d : Dinode) : Fs.St :=
  { s with inode := update s.inode i ⟨1, true, true, d⟩ }

/-- The blocks that are not yet taken are empty. -/
structure St.Fresh (m : St) : Prop where
  low : nmeta ≤ m.freeblock
  zero : ∀ b, m.freeblock ≤ b → b < FSSIZE → m.disk b = zeroes

section
variable {m m' : St} {E : Fail → Prop} {F : Stop → Prop} {i j k fbn x : Nat} {d din : Dinode}
  {v : Nat → Dinode} {buf : Block}

/-! ## The image as a disk -/

theorem wide_datastart : wide.datastart = nmeta := by decide

theorem iblock_lt (hi : i < maxInodes) : IBLOCK i sb < nmeta := by
  have hdiv : i / IPB < ninodeblocks + nbitmap := Nat.div_lt_of_lt_mul (by
    rw [Nat.mul_comm]
    exact hi)
  have hblock : IBLOCK i sb = i / IPB + (2 + nlog) := rfl
  unfold nmeta
  omega

theorem nmeta_le : nmeta ≤ FSSIZE := by decide

/-- A data block is written. -/
theorem abs_wsect (buf : Block) (hx : nmeta ≤ x) :
    ({ m with disk := update m.disk x buf } : St).abs =
      { m.abs with block := update m.abs.block x buf } := by
  refine Fs.St.ext rfl ?_ ?_ rfl
  · funext b
    simp only [St.abs]
    by_cases hb : b = x
    · rw [hb, update_self, if_neg (by omega), update_self]
    · rw [update_of_ne hb, update_of_ne hb]
  · funext i
    simp only [St.abs]
    by_cases hi : i < maxInodes
    · have hlt := iblock_lt hi
      rw [if_pos hi, if_pos hi, update_of_ne (by omega)]
    · rw [if_neg hi, if_neg hi]

/-- An inode is written. -/
theorem abs_winode (hi : i < maxInodes) (hd : d.Fits) :
    ({ m with
       disk := update m.disk (IBLOCK i sb)
         (putDinode (m.disk (IBLOCK i sb)) (i % IPB) d) } : St).abs =
      { m.abs with dinode := update m.abs.dinode i d } := by
  have hlt := iblock_lt hi
  refine Fs.St.ext rfl ?_ ?_ rfl
  · funext b
    simp only [St.abs]
    by_cases hb : b < nmeta
    · rw [if_pos hb, if_pos hb]
    · rw [if_neg hb, if_neg hb, update_of_ne (by omega)]
  · funext j
    simp only [St.abs]
    by_cases hji : j = i
    · rw [hji, if_pos hi, update_self, update_self,
        getDinode_putDinode (Nat.mod_lt _ (by decide)) hd]
    rw [update_of_ne hji]
    by_cases hj : j < maxInodes
    · rw [if_pos hj, if_pos hj]
      by_cases hblock : IBLOCK j sb = IBLOCK i sb
      · -- another inode of the same block
        rw [hblock, update_self, getDinode_putDinode_other]
        have hdiv : j / IPB = i / IPB := Nat.add_right_cancel hblock
        intro hmod
        apply hji
        rw [← Nat.div_add_mod j IPB, ← Nat.div_add_mod i IPB, hdiv, hmod]
      · rw [update_of_ne hblock]
    · rw [if_neg hj, if_neg hj]

/-- A block is taken. It was empty already. -/
theorem abs_nextBlock (hm : m.Fresh) (hlt : m.freeblock < FSSIZE) :
    ({ m with freeblock := m.freeblock + 1 } : St).abs =
      { m.abs with
        bitmap := update m.abs.bitmap m.freeblock true
        block := update m.abs.block m.freeblock fun _ => 0 } := by
  have hlow := hm.low
  refine Fs.St.ext ?_ ?_ rfl rfl
  · funext b
    simp only [St.abs]
    by_cases hb : b = m.freeblock
    · rw [hb, update_self]
      exact decide_eq_true (Nat.lt_succ_self _)
    · have hiff : b < m.freeblock + 1 ↔ b < m.freeblock := by omega
      rw [update_of_ne hb]
      exact decide_eq_decide.mpr hiff
  · funext b
    simp only [St.abs]
    by_cases hb : b = m.freeblock
    · rw [hb, update_self, if_neg (by omega), hm.zero _ le_rfl hlt]
      rfl
    · rw [update_of_ne hb]

/-! ## An open inode -/

theorem opened_live {s : Fs.St} : ((opened s i d).inode i).Live := by
  simp only [opened, update_self]
  exact ⟨Nat.one_pos, rfl⟩

theorem opened_copy {s : Fs.St} (hinv : Fs.Inv wide v (opened s i d)) :
    v i = d ∧ (v i).type ≠ .none := by
  obtain ⟨hd, htype⟩ := hinv.copy i opened_live
  simp only [opened, update_self] at hd
  exact ⟨hd.symm, htype⟩

/-! ## Sectors -/

theorem rsect_spec (h : x < FSSIZE ∨ E .die) :
    wp E (rsect x) (fun r t => r = m.disk x ∧ t = m ∧ x < FSSIZE) m := by
  rw [rsect, wp_bind, wp_get, wp_ite]
  exact ⟨fun hlt => wp_ret ⟨rfl, rfl, hlt⟩,
    fun hge => (wp_throw _).mpr (h.resolve_left hge)⟩

@[simp] theorem wp_wsect {Q : Unit → St → Prop} :
    wp E (wsect x buf) Q m ↔ Q () { m with disk := update m.disk x buf } := by
  rw [wsect, wp_modify]

theorem rinode_spec (hi : i < maxInodes) :
    wp E (rinode i) (fun r t => r = m.abs.dinode i ∧ t = m) m := by
  have hlt : IBLOCK i sb < FSSIZE := lt_of_lt_of_le (iblock_lt hi) nmeta_le
  rw [rinode]
  refine wp_call (rsect_spec (.inl hlt)) fun r t ht => ?_
  rcases ht with ⟨rfl, rfl, -⟩
  exact wp_ret ⟨(if_pos hi).symm, rfl⟩

theorem winode_spec (hi : i < maxInodes) (hd : d.Fits) :
    wp E (winode i d) (fun _ t => ∃ disk, t = { m with disk } ∧
      t.abs = { m.abs with dinode := update m.abs.dinode i d } ∧
      ∀ b ≠ IBLOCK i sb, disk b = m.disk b) m := by
  have hlt : IBLOCK i sb < FSSIZE := lt_of_lt_of_le (iblock_lt hi) nmeta_le
  rw [winode]
  refine wp_call (rsect_spec (.inl hlt)) fun r t ht => ?_
  rcases ht with ⟨rfl, rfl, -⟩
  rw [wp_wsect]
  exact ⟨_, rfl, abs_winode hi hd, fun b hb => update_of_ne hb _ _⟩

/-! ## Blocks -/

/-- From `m` to `t` at most `n` blocks were taken, and no metadata changed. -/
structure Grows (m t : St) (n : Nat) : Prop where
  fresh : t.Fresh
  freeinode : t.freeinode = m.freeinode
  room : t.freeblock ≤ m.freeblock + n
  low : ∀ b, b < nmeta → t.disk b = m.disk b

variable {n : Nat}

theorem Grows.refl (hm : m.Fresh) : Grows m m n :=
  ⟨hm, rfl, Nat.le_add_right _ _, fun _ _ => rfl⟩

theorem Grows.mono {t : St} {a b : Nat} (h : Grows m t a) (hab : a ≤ b) : Grows m t b :=
  ⟨h.fresh, h.freeinode, le_trans h.room (Nat.add_le_add_left hab _), h.low⟩

theorem Grows.trans {t : St} {a b : Nat} (h₁ : Grows m m' a) (h₂ : Grows m' t b) :
    Grows m t (a + b) := by
  refine ⟨h₂.fresh, h₂.freeinode.trans h₁.freeinode, ?_,
    fun c hc => (h₂.low c hc).trans (h₁.low c hc)⟩
  have hroom₁ := h₁.room
  have hroom₂ := h₂.room
  omega

theorem Grows.nextBlock (hm : m.Fresh) : Grows m { m with freeblock := m.freeblock + 1 } 1 := by
  have hlow := hm.low
  exact ⟨⟨by show nmeta ≤ m.freeblock + 1; omega, fun b hb => hm.zero b (Nat.le_of_succ_le hb)⟩,
    rfl, Nat.le_refl _, fun _ _ => rfl⟩

/-- Only slots of the inode have changed. -/
structure SameBut (d d' : Dinode) : Prop where
  size : d'.size = d.size
  rest : ∀ k, NDIRECT < k → d'.addrs k = d.addrs k

theorem SameBut.refl : SameBut d d := ⟨rfl, fun _ _ => rfl⟩

theorem SameBut.trans {d' : Dinode} (h₁ : SameBut d din) (h₂ : SameBut din d') : SameBut d d' :=
  ⟨h₂.size.trans h₁.size, fun k hk => (h₂.rest k hk).trans (h₁.rest k hk)⟩

/-- A block in use is written. -/
theorem Grows.wsect (buf : Block) (hm : m.Fresh) (hx : nmeta ≤ x) (hused : x < m.freeblock) :
    Grows m { m with disk := update m.disk x buf } 0 := by
  refine ⟨⟨hm.low, fun b hb hlt => ?_⟩, rfl, Nat.le_refl _,
    fun b hb => update_of_ne (by omega) _ _⟩
  have hne : b ≠ x := by
    have hle : m.freeblock ≤ b := hb
    omega
  exact (update_of_ne hne _ _).trans (hm.zero b hb hlt)

/-- The kernel takes the block that mkfs takes. -/
theorem balloc_abs (hm : m.Fresh) (hlt : m.freeblock < FSSIZE) :
    wp F (Fs.balloc wide) (fun r t => r = m.freeblock ∧
      t = opened ({ m with freeblock := m.freeblock + 1 } : St).abs i d) (opened m.abs i d) := by
  have hfind : (List.range wide.size).find? (fun b => !(opened m.abs i d).bitmap b) =
      some m.freeblock := by
    rw [find?_range_eq_some]
    refine ⟨by simp [opened, St.abs], mem_range.mpr hlt, fun j hj => ?_⟩
    simpa [opened, St.abs] using hj
  rw [Fs.balloc, wp_bind, wp_get, hfind, wp_bind, wp_setBit, wp_bind, Fs.bzero, wp_setBlock,
    wp_pure, abs_nextBlock hm hlt]
  exact ⟨rfl, rfl⟩

theorem slotBlock_bmapAddr (hm : m.Fresh) (hk : k ≤ NDIRECT)
    (hslot : din.addrs k ≠ 0 → nmeta ≤ din.addrs k ∧ din.addrs k < m.freeblock) :
    wp E (slotBlock din k) (fun r t => Grows m t 1 ∧ nmeta ≤ r.2 ∧ r.2 < t.freeblock ∧
      t.disk = m.disk ∧ (r.2 = if din.addrs k = 0 then m.freeblock else din.addrs k) ∧
      SameBut din r.1 ∧
      (r.2 < FSSIZE → wp F (bmapAddr wide i k) (fun x u => x = r.2 ∧ u = opened t.abs i r.1)
        (opened m.abs i din))) m := by
  have hcopy : ((opened m.abs i din).inode i).d = din := by
    simp only [opened, update_self]
  rw [slotBlock]
  refine wp_if (fun h0 => ?_) fun h0 => wp_ret ⟨Grows.refl hm, (hslot h0).1, (hslot h0).2, rfl,
    (if_neg h0).symm, SameBut.refl, fun _ => ?_⟩
  · rw [nextBlock, wp_bind, wp_bind, wp_get, wp_bind, wp_set, wp_pure, wp_pure]
    refine ⟨Grows.nextBlock hm, hm.low, Nat.lt_succ_self _, rfl, (if_pos h0).symm,
      ⟨rfl, fun j hj => update_of_ne (by omega) _ _⟩, fun hlt => ?_⟩
    have hne : m.freeblock ≠ 0 := by
      have hlow := hm.low
      have hpos : 0 < nmeta := by decide
      omega
    rw [bmapAddr, wp_bind, wp_get, hcopy, if_pos h0]
    refine wp_call (balloc_abs hm hlt) fun r t ht => ?_
    rcases ht with ⟨rfl, rfl⟩
    rw [if_neg hne, wp_bind, wp_setCopy, wp_pure]
    refine ⟨rfl, ?_⟩
    simp only [opened, update_self, update_idem]
  · rw [bmapAddr, wp_bind, wp_get, hcopy, if_neg h0, wp_pure]
    exact ⟨rfl, rfl⟩

/-- A reference that is there names a block that was taken. -/
theorem slot_taken (hinv : Fs.Inv wide v (opened m.abs i din)) (hi : (v j).type ≠ .none)
    (h0 : slot (v j) m.abs.block k ≠ 0) :
    nmeta ≤ slot (v j) m.abs.block k ∧ slot (v j) m.abs.block k < m.freeblock := by
  rcases hinv.slot_data hi h0 with ⟨hdata, hused⟩
  have hge := hdata.1
  rw [wide_datastart] at hge
  exact ⟨hge, of_decide_eq_true hused⟩

/-- The block that `iappend` writes to is the one `bmap` finds. -/
theorem blockFor_bmap (hm : m.Fresh) (hinv : Fs.Inv wide v (opened m.abs i din))
    (hbn : fbn < MAXFILE) (hroom : m.freeblock + 2 ≤ FSSIZE ∨ E .die) :
    wp E (blockFor din fbn) (fun r t => Grows m t 2 ∧ r.2 ≠ 0 ∧
      SameBut din r.1 ∧
      (m.freeblock + 2 ≤ FSSIZE → r.2 < FSSIZE) ∧
      (r.2 < FSSIZE → wp F (bmap wide i fbn) (fun x u => x = r.2 ∧ u = opened t.abs i r.1)
        (opened m.abs i din))) m := by
  have hpos : 0 < nmeta := by decide
  obtain ⟨hd, htype⟩ := opened_copy hinv
  have htaken : ∀ k, slot din m.abs.block k ≠ 0 →
      nmeta ≤ slot din m.abs.block k ∧ slot din m.abs.block k < m.freeblock := by
    intro k h0
    have hslot := slot_taken (k := k) hinv htype
    rw [hd] at hslot
    exact hslot h0
  have haddr : ∀ k ≤ NDIRECT, din.addrs k ≠ 0 →
      nmeta ≤ din.addrs k ∧ din.addrs k < m.freeblock := by
    intro k hk h0
    have hslot := htaken k
    rw [slot_low hk] at hslot
    exact hslot h0
  rw [blockFor]
  refine wp_if (fun hlt => ?_) fun hge => ?_
  · refine wp_mono (slotBlock_bmapAddr (F := F) (i := i) hm (le_of_lt hlt)
      (haddr fbn (le_of_lt hlt))) fun r t ht => ?_
    rcases ht with ⟨hgrow, hlow, hused, -, -, hrest, hsim⟩
    have hle := hgrow.room
    refine ⟨hgrow.mono (by decide), by omega, hrest, fun _ => by omega, fun hr => ?_⟩
    rw [bmap, if_pos hlt]
    exact hsim hr
  · refine wp_call (slotBlock_bmapAddr (F := F) (i := i) hm le_rfl
      (haddr NDIRECT le_rfl)) fun r t₁ ht => ?_
    rcases r with ⟨din', ind⟩
    dsimp only at ht ⊢
    rcases ht with ⟨hgrow, hlow, hused, hdisk, hwhich, hrest, hsim⟩
    have hle := hgrow.room
    refine wp_call (rsect_spec (hroom.imp_left fun _ => by omega)) fun buf t ht => ?_
    rcases ht with ⟨rfl, rfl, hlt⟩
    have hj : fbn - NDIRECT < NINDIRECT := by
      rw [MAXFILE] at hbn
      omega
    have hblock : (opened t.abs i din').block ind = t.disk ind := if_neg (by omega)
    have hind : ind ≠ 0 := by omega
    refine wp_if (fun hw => ?_) fun hw => ?_
    · -- a new entry in the indirect block
      rw [nextBlock, wp_bind, wp_bind, wp_get, wp_bind, wp_set, wp_pure, wp_bind, wp_wsect, wp_pure]
      have hfresh := (Grows.nextBlock hgrow.fresh).fresh
      have hgrow' : Grows m { t with
          disk := update t.disk ind
            ((t.disk ind).setWord (fbn - NDIRECT) (BitVec.ofNat 32 t.freeblock))
          freeblock := t.freeblock + 1 } 2 :=
        (hgrow.trans (Grows.nextBlock hgrow.fresh)).trans
          (Grows.wsect _ hfresh hlow (Nat.lt_succ_of_lt hused))
      have hne : t.freeblock ≠ 0 := by
        have hlow' := hgrow.fresh.low
        omega
      refine ⟨hgrow', hne, hrest, fun _ => by show t.freeblock < FSSIZE; omega, fun hr => ?_⟩
      change t.freeblock < FSSIZE at hr
      rw [bmap, if_neg hge, if_pos hj]
      refine wp_call (hsim hlt) fun x u hu => ?_
      rcases hu with ⟨rfl, rfl⟩
      rw [if_neg hind, wp_bind, wp_get, hblock, if_pos hw]
      refine wp_call (balloc_abs hgrow.fresh hr) fun b u hu => ?_
      rcases hu with ⟨rfl, rfl⟩
      rw [if_neg hne, wp_bind, wp_setBlock, wp_pure]
      refine ⟨rfl, ?_⟩
      have hsame : (opened ({ t with freeblock := t.freeblock + 1 } : St).abs i din').block x =
          t.disk x := if_neg (by omega)
      have habs := abs_wsect (m := { t with freeblock := t.freeblock + 1 })
        ((t.disk x).setWord (fbn - NDIRECT) (BitVec.ofNat 32 t.freeblock)) hlow
      rw [hsame]
      simp only [opened]
      rw [habs]
    · refine wp_ret ⟨hgrow.mono (by decide), ?_, hrest, fun _ => ?_, fun _ => ?_⟩
      · intro hz
        exact hw (BitVec.eq_of_toNat_eq hz)
      · -- the entry was there before
        by_cases h0 : din.addrs NDIRECT = 0
        · rw [if_pos h0] at hwhich
          rw [hdisk, hwhich, hm.zero _ le_rfl (by omega)] at hw
          exact absurd (zero_getWord _) hw
        rw [if_neg h0] at hwhich
        have hentry := slot_entry (b := m.abs.block) hj h0
        have hold : m.abs.block (din.addrs NDIRECT) = t.disk ind := by
          rw [← hwhich, hdisk]
          exact if_neg (by omega)
        rw [hold] at hentry
        have hused' := (htaken (NDIRECT + 1 + (fbn - NDIRECT)) (by
          rw [hentry]
          exact fun hz => hw (BitVec.eq_of_toNat_eq hz))).2
        rw [hentry] at hused'
        omega
      · rw [bmap, if_neg hge, if_pos hj]
        refine wp_call (hsim hlt) fun x u hu => ?_
        rcases hu with ⟨rfl, rfl⟩
        rw [if_neg hind, wp_bind, wp_get, hblock, if_neg hw, wp_pure]
        exact ⟨rfl, rfl⟩

/-! ## The loops -/

variable {p : List Byte}

/-- A copy from a list is a copy that can always be read. -/
theorem fill_eq_bcopy {o tot : Nat} (hn : tot + n ≤ p.length) :
    readable (fun k => p[k]?) tot n = n ∧
      Block.fill buf o tot n (fun k => p[k]?) = bcopy buf o ((p.drop tot).take n) := by
  have hread : readable (fun k => p[k]?) tot n = n := by
    by_contra hne
    have hle := readable_le (fun k => p[k]?) tot n
    rcases unreadable_of_lt (lt_of_le_of_ne hle hne) with ⟨k, hk, hnone⟩
    rw [getElem?_eq_none_iff] at hnone
    omega
  refine ⟨hread, ?_⟩
  have hlen : ((p.drop tot).take n).length = n := by
    rw [length_take, length_drop]
    omega
  funext j
  unfold Block.fill bcopy
  rw [hread, hlen]
  split
  · next hj =>
    have hlt : j.val - o < n := by omega
    rw [getD_eq_getElem?_getD, getElem?_take_of_lt hlt, getElem?_drop]
  · rfl

/-- The blocks that `n` bytes from `off` touch. -/
def touched (off n : Nat) : Nat :=
  if n = 0 then 0 else (off % BSIZE + n + (BSIZE - 1)) / BSIZE

theorem touched_step {off n1 : Nat} (hn : n ≠ 0)
    (hn1 : n1 = min n ((off / BSIZE + 1) * BSIZE - off)) :
    touched (off + n1) (n - n1) + 1 = touched off n := by
  unfold touched BSIZE at *
  rw [if_neg hn]
  split <;> omega

/-- The loop of `iappend` is the loop of `writei`. -/
theorem iappend_loop_writei (fuel : Nat) {tot off : Nat} (hm : m.Fresh)
    (hinv : ∃ v, Fs.Inv wide v (opened m.abs i din)) (htot : tot ≤ p.length)
    (hfuel : p.length ≤ tot + fuel) (hoff : off ≤ MAXFILE * BSIZE)
    (hmax : off + (p.length - tot) ≤ MAXFILE * BSIZE ∨ E .assert)
    (hroom : m.freeblock + 2 * touched off (p.length - tot) ≤ FSSIZE ∨ E .die) :
    wp E (iappend.loop fuel (p.drop tot) din off) (fun r t =>
      r.2 = off + (p.length - tot) ∧ r.2 ≤ MAXFILE * BSIZE ∧
      Grows m t (2 * touched off (p.length - tot)) ∧
      (∃ v, Fs.Inv wide v (opened t.abs i r.1)) ∧
      SameBut din r.1 ∧
      wp F (writei.loop wide i (fun k => p[k]?) p.length fuel tot off)
        (fun x u => x = (p.length, r.2) ∧ u = opened t.abs i r.1) (opened m.abs i din)) m := by
  induction fuel generalizing m din tot off with
  | zero =>
    have heq : tot = p.length := by omega
    rw [iappend.loop, writei.loop, wp_pure, heq, Nat.sub_self]
    exact ⟨rfl, hoff, Grows.refl hm, hinv, SameBut.refl, wp_ret ⟨rfl, rfl⟩⟩
  | succ fuel ih =>
    rw [iappend.loop, writei.loop]
    refine wp_if (fun hnil => ?_) fun hne => ?_
    · have heq : tot = p.length := by
        have hge := drop_eq_nil_iff.mp hnil
        omega
      rw [wp_pure, heq, Nat.sub_self, if_pos le_rfl]
      exact ⟨rfl, hoff, Grows.refl hm, hinv, SameBut.refl, wp_ret ⟨rfl, rfl⟩⟩
    have hlt : tot < p.length := by
      by_contra hge
      exact hne (drop_eq_nil_iff.mpr (by omega))
    refine wp_if (fun hbn => ?_) fun hbn => (wp_throw _).mpr (hmax.resolve_left fun hle => ?_)
    swap
    · rw [Nat.div_lt_iff_lt_mul (by decide)] at hbn
      omega
    rw [if_neg (by omega), length_drop]
    obtain ⟨n1, hn1⟩ : ∃ n1, n1 = min (p.length - tot) ((off / BSIZE + 1) * BSIZE - off) := ⟨_, rfl⟩
    have hstep := touched_step (n := p.length - tot) (by omega) hn1
    have hker : min (p.length - tot) (BSIZE - off % BSIZE) = n1 := by
      unfold BSIZE at *
      omega
    have hpos : 0 < n1 ∧ n1 ≤ p.length - tot := by
      unfold BSIZE at *
      omega
    rw [← hn1, hker]
    rcases hinv with ⟨v, hinv⟩
    refine wp_call (blockFor_bmap (F := fun _ => False) hm hinv hbn
      (hroom.imp_left fun _ => by omega)) fun r t₁ hr => ?_
    rcases r with ⟨din', x⟩
    dsimp only at hr ⊢
    rcases hr with ⟨hgrow, hx0, hrest, hxlt, hsim⟩
    refine wp_call (rsect_spec (hroom.imp_left fun hr => hxlt (by omega))) fun buf t ht => ?_
    rcases ht with ⟨rfl, rfl, hxs⟩
    rcases wp_returns (hsim hxs) with ⟨y, u, hrun, hy, hu⟩
    rw [hy, hu] at hrun
    -- what the kernel knows of the block
    have hlock : ((opened m.abs i din).inode i).locked = true := by
      simp only [opened, update_self]
    rcases (wp_of_eq (E := fun _ => False) hrun).mp (bmap_spec (.inl hbn) hinv opened_live hlock) with
      ⟨v', hinv', -, hslot, -, -⟩
    replace hslot : slot (v' i) t.abs.block (dataSlot (off / BSIZE)) = x := hslot
    have hi' := (opened_copy hinv').2
    have htaken := slot_taken (k := dataSlot (off / BSIZE)) hinv' hi' (by rwa [hslot])
    rw [hslot] at htaken
    have hblock : (opened t.abs i din').block x = t.disk x := if_neg (by omega)
    -- the copy into the block
    have hmod : off - off / BSIZE * BSIZE = off % BSIZE := by
      unfold BSIZE
      omega
    obtain ⟨hread, hfill⟩ := fill_eq_bcopy (o := off % BSIZE)
      (show tot + n1 ≤ p.length by omega)
    rw [wp_bind, wp_wsect, hmod, drop_drop]
    generalize bcopy (t.disk x) (off % BSIZE) ((p.drop tot).take n1) = new at hfill ⊢
    have habs : opened ({ t with disk := update t.disk x new } : St).abs i din' =
        { opened t.abs i din' with
          block := update (opened t.abs i din').block x new } := by
      rw [abs_wsect _ htaken.1]
      rfl
    have hgrow' := hgrow.trans (Grows.wsect new hgrow.fresh htaken.1 htaken.2)
    have hset := hinv'.setData hi' (dataSlot_ne (off / BSIZE)) (by
      show slot (v' i) t.abs.block _ ≠ 0
      rw [hslot]
      exact hx0) new
    have hslot' : slot (v' i) (opened t.abs i din').block (dataSlot (off / BSIZE)) = x := hslot
    rw [hslot', ← habs] at hset
    have hroom' := hgrow.room
    have hlen : p.length - tot - n1 = p.length - (tot + n1) := by omega
    rw [hlen] at hstep
    refine wp_mono (ih hgrow'.fresh ⟨v', hset⟩ (by omega) (by omega) ?_
      (hmax.imp_left fun _ => by omega) (hroom.imp_left fun _ => ?_)) fun r u hr => ?_
    · have hnext : (off / BSIZE + 1) * BSIZE ≤ MAXFILE * BSIZE := Nat.mul_le_mul_right _ hbn
      omega
    · show t.freeblock + _ ≤ FSSIZE
      omega
    · rcases hr with ⟨hoff', hmax', hgrow'', hinv'', hrest', hker'⟩
      refine ⟨by omega, hmax', (hgrow'.trans hgrow'').mono (by omega), hinv'',
        hrest.trans hrest', ?_⟩
      rw [wp_bind, wp_of_eq hrun, if_neg hx0, wp_bind, wp_setBlock, if_neg (by omega), hblock,
        hfill, ← habs]
      exact hker'

/-- The numbers of an open inode are small enough to be written. -/
theorem opened_fits (hinv : Fs.Inv wide v (opened m.abs i din))
    (hrest : ∀ k, NDIRECT < k → din.addrs k = 0) (hn : n ≤ MAXFILE * BSIZE) :
    ({ din with size := n } : Dinode).Fits := by
  obtain ⟨hd, htype⟩ := opened_copy hinv
  refine ⟨lt_of_le_of_lt hn (by decide), fun k hk => ?_, hrest⟩
  by_cases h0 : din.addrs k = 0
  · exact lt_of_le_of_lt (Nat.le_of_eq h0) (by decide)
  · have hdata := hinv.slot_data (k := k) htype (by rwa [hd, slot_low hk])
    rw [hd, slot_low hk] at hdata
    exact Nat.lt_trans hdata.1.2 (by decide)

/-- `iappend` is `writei` at the end of the file. -/
theorem iappend_writei (hm : m.Fresh) (hi : i < maxInodes) (hinv : Fs.Inv wide m.abs.dinode m.abs)
    (htype : (m.abs.dinode i).type ≠ .none)
    (hmax : (m.abs.dinode i).size + p.length ≤ MAXFILE * BSIZE ∨ E .assert)
    (hroom : m.freeblock + 2 * touched (m.abs.dinode i).size p.length ≤ FSSIZE ∨ E .die) :
    wp E (iappend i p) (fun _ t => t.Fresh ∧ t.freeinode = m.freeinode ∧ t.disk 1 = m.disk 1 ∧
      t.freeblock ≤ m.freeblock + 2 * touched (m.abs.dinode i).size p.length ∧
      writei wide i (fun k => p[k]?) (m.abs.dinode i).size p.length
        (opened m.abs i (m.abs.dinode i)) =
          .ok (some p.length, opened t.abs i (t.abs.dinode i))) m := by
  have hlarge : MAXFILE * BSIZE < 2 ^ 32 := by decide
  have hsize := (hinv.full i htype).size_le
  have hopen : Fs.Inv wide m.abs.dinode (opened m.abs i (m.abs.dinode i)) :=
    hinv.setEntry (fun _ => ⟨rfl, htype⟩) (fun _ => rfl) fun _ => Nat.one_pos
  have hfits : (m.abs.dinode i).Fits := by
    have hget : m.abs.dinode i = getDinode (m.disk (IBLOCK i sb)) (i % IPB) := if_pos hi
    rw [hget]
    exact getDinode_fits _ _
  rw [iappend]
  refine wp_call (rinode_spec hi) fun r t ht => ?_
  rcases ht with ⟨rfl, rfl⟩
  refine wp_call (iappend_loop_writei (F := fun _ => False) (p := p) p.length hm
    ⟨_, hopen⟩ (Nat.zero_le _) (by omega) hsize hmax hroom) fun r u hr => ?_
  rcases r with ⟨din, off⟩
  dsimp only at hr ⊢
  rcases hr with ⟨hoff, hbound, hgrow, ⟨v, hinv'⟩, hrest, hker⟩
  have hfits' : ({ din with size := off } : Dinode).Fits :=
    opened_fits hinv' (fun k hk => (hrest.rest k hk).trans (hfits.rest k hk)) hbound
  refine wp_mono (winode_spec hi hfits') fun _ w hw => ?_
  rcases hw with ⟨disk, rfl, habs, hsame⟩
  have hlt := iblock_lt hi
  have hroom' := hgrow.room
  refine ⟨⟨hgrow.fresh.low, fun b hb hbs => ?_⟩, hgrow.freeinode, ?_, hroom', ?_⟩
  · have hne : b ≠ IBLOCK i sb := by
      have hlow := hgrow.fresh.low
      have hle : u.freeblock ≤ b := hb
      omega
    exact (hsame b hne).trans (hgrow.fresh.zero b hb hbs)
  · have hne : (1 : Nat) ≠ IBLOCK i sb := by
      have hge : 2 + nlog ≤ IBLOCK i sb := Nat.le_add_left _ _
      omega
    exact (hsame 1 hne).trans (hgrow.low 1 (by decide))
  · rcases wp_returns hker with ⟨x, s, hrun, rfl, rfl⟩
    have hu : u32 ((t.abs.dinode i).size + p.length) = (t.abs.dinode i).size + p.length :=
      Nat.mod_eq_of_lt (by omega)
    have hd : ((opened t.abs i (t.abs.dinode i)).inode i).d = t.abs.dinode i := by
      simp only [opened, update_self]
    have hwp : wp (fun _ => False) (writei wide i (fun k => p[k]?) (t.abs.dinode i).size p.length)
        (fun r s => r = some p.length ∧
          s = opened ({ u with disk } : St).abs i (({ u with disk } : St).abs.dinode i))
        (opened t.abs i (t.abs.dinode i)) := by
      rw [writei, wp_bind, wp_get, hd, hu, if_neg (by omega), if_neg (by omega), wp_bind,
        wp_of_eq hrun, wp_bind, wp_setCopy, wp_bind, wp_iupdate, wp_pure]
      refine ⟨rfl, ?_⟩
      -- the size grows by what was appended
      have hgrown : (if din.size < off then off else din.size) = off := by
        have hold := hrest.size
        split <;> omega
      rw [habs]
      simp only [opened, update_self, update_idem, hgrown]
    rcases wp_returns hwp with ⟨r, s, hwrite, rfl, rfl⟩
    exact hwrite

end

end Xv6.Mkfs
