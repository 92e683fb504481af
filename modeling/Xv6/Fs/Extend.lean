import Xv6.Fs.Inv

/-!
# Xv6.Fs.Extend — bmap

`bmap` finds the block of the contents of an inode, and allocates it if there is none. It
adds references to one inode and changes nothing else that is to be seen: no reference
that was there is lost, and no data block changes.
-/

namespace Xv6.Fs

open Lib Function

/-- From `v` and `s` to `v'` and `t` the locked inode `i` has only gained blocks. -/
structure Ext (i : Nat) (v : Nat → Dinode) (s : St) (v' : Nat → Dinode) (t : St) : Prop where
  other : ∀ j, j ≠ i → v' j = v j
  fields : v' i = { v i with addrs := (v' i).addrs }
  table : t.inode = update s.inode i { s.inode i with d := v' i }
  dinode : t.dinode = s.dinode
  keep : ∀ j k, (v j).type ≠ .none → slot (v j) s.block k ≠ 0 →
    slot (v' j) t.block k = slot (v j) s.block k
  same : ∀ j k, j ≠ i → (v j).type ≠ .none → slot (v' j) t.block k = slot (v j) s.block k
  data : ∀ j k, (v j).type ≠ .none → k ≠ NDIRECT → slot (v j) s.block k ≠ 0 →
    t.block (slot (v j) s.block k) = s.block (slot (v j) s.block k)
  zeros : ∀ k, k ≠ NDIRECT → slot (v i) s.block k = 0 → slot (v' i) t.block k ≠ 0 →
    t.block (slot (v' i) t.block k) = fun _ => 0

section
variable {F : Nat → Prop} {sb : Super} {v v' v'' : Nat → Dinode} {s t u : St} {E : Stop → Prop}
  {d d' : Dinode} {i k b r : Nat}

/-- A new copy of an inode leaves it in the table and locked. -/
theorem held_of_table (h : t.inode = update s.inode i { s.inode i with d := d })
    (hlive : (s.inode i).Live) (hlock : (s.inode i).locked = true) :
    (t.inode i).Live ∧ (t.inode i).locked = true := by
  rw [h, update_self]
  exact ⟨hlive, hlock⟩

theorem Ext.type_eq (h : Ext i v s v' t) (j : Nat) : (v' j).type = (v j).type := by
  by_cases hj : j = i
  · rw [hj, h.fields]
  · rw [h.other j hj]

theorem Ext.refl (hd : (s.inode i).d = v i) : Ext i v s v s := by
  refine ⟨fun _ _ => rfl, rfl, ?_, rfl, fun _ _ _ _ => rfl, fun _ _ _ _ => rfl,
    fun _ _ _ _ _ => rfl, fun _ _ h0 h1 => absurd h0 h1⟩
  rw [← hd, update_eq_self]

theorem Ext.trans (hi : (v i).type ≠ .none) (h₁ : Ext i v s v' t) (h₂ : Ext i v' t v'' u) :
    Ext i v s v'' u := by
  refine ⟨fun j hj => (h₂.other j hj).trans (h₁.other j hj), ?_, ?_, h₂.dinode.trans h₁.dinode,
    fun j k hj h0 => ?_, fun j k hji hj => ?_, fun j k hj hk h0 => ?_, fun k hk h0 h1 => ?_⟩
  · rw [h₂.fields, h₁.fields]
  · rw [h₂.table, h₁.table, update_self, update_idem]
  · have hstep := h₁.keep j k hj h0
    rw [h₂.keep j k (by rwa [h₁.type_eq]) (by rwa [hstep]), hstep]
  · rw [h₂.same j k hji (by rwa [h₁.type_eq]), h₁.same j k hji hj]
  · have hstep := h₁.keep j k hj h0
    have hdata := h₂.data j k (by rwa [h₁.type_eq]) hk (by rwa [hstep])
    rw [hstep] at hdata
    exact hdata.trans (h₁.data j k hj hk h0)
  · -- the block is new in the second step, or it was new in the first one
    by_cases hmid : slot (v' i) t.block k = 0
    · exact h₂.zeros k hk hmid h1
    · have hi' : (v' i).type ≠ .none := by rwa [h₁.type_eq]
      rw [h₂.keep i k hi' hmid, h₂.data i k hi' hk hmid]
      exact h₁.zeros k hk h0 hmid

/-- The bytes that were there are still there. -/
theorem Ext.content_eq (h : Ext i v s v' t) {j off : Nat} (hj : (v j).type ≠ .none)
    (h0 : slot (v j) s.block (dataSlot (off / BSIZE)) ≠ 0) :
    content (v' j) t.block off = content (v j) s.block off := by
  unfold content
  rw [h.keep j _ hj h0, h.data j _ hj (dataSlot_ne _) h0]

/-! ## A new reference -/

/-- The locked inode `i` takes the free block `r` into its empty reference `k`. -/
theorem InvOn.attach {w : Nat → Dinode} (h : InvOn F sb v s) (hlive : (s.inode i).Live)
    (hlock : (s.inode i).locked = true) (hD : sb.Data r) (hr : r ≠ 0) (hfree : s.bitmap r = false)
    (hempty : slot (v i) s.block k = 0) (hother : ∀ j ≠ i, w j = v j)
    (hfields : w i = { v i with addrs := (w i).addrs })
    (htable : t.inode = update s.inode i { s.inode i with d := w i })
    (hdinode : t.dinode = s.dinode) (hbitmap : t.bitmap = update s.bitmap r true)
    (hslot : ∀ k', slot (w i) t.block k' = if k' = k then r else slot (v i) s.block k')
    (hsame : ∀ j k', j ≠ i → (v j).type ≠ .none →
      slot (w j) t.block k' = slot (v j) s.block k')
    (hdata : ∀ j k', (v j).type ≠ .none → k' ≠ NDIRECT → slot (v j) s.block k' ≠ 0 →
      t.block (slot (v j) s.block k') = s.block (slot (v j) s.block k'))
    (hzero : t.block r = fun _ => 0) :
    InvOn F sb w t ∧ Ext i v s w t := by
  have htype : ∀ j, (w j).type = (v j).type := by
    intro j
    by_cases hj : j = i
    · rw [hj, hfields]
    · rw [hother j hj]
  have hsize : ∀ j, (w j).size = (v j).size := by
    intro j
    by_cases hj : j = i
    · rw [hj, hfields]
    · rw [hother j hj]
  have hkeep : ∀ j k', (v j).type ≠ .none → slot (v j) s.block k' ≠ 0 →
      slot (w j) t.block k' = slot (v j) s.block k' := by
    intro j k' hj h0
    by_cases hji : j = i
    · subst hji
      rw [hslot, if_neg]
      rintro rfl
      exact h0 hempty
    · exact hsame j k' hji hj
  have hne : ∀ j ≠ i, t.inode j = s.inode j := by
    intro j hj
    rw [htable, update_of_ne hj]
  have hself : t.inode i = { s.inode i with d := w i } := by rw [htable, update_self]
  have hi := (h.copy i hlive).2
  have hall : ∀ j, Agree sb j (w j) (t.inode j) (t.dinode j) := by
    intro j
    rw [hdinode]
    by_cases hji : j = i
    · subst hji
      rw [hself]
      exact ⟨fun _ => ⟨rfl, by rwa [htype]⟩, fun hn => absurd ⟨hlive, hlock⟩ hn,
        by rw [htype, h.dtype], fun _ => hlive.1, fun _ => h.range j hi⟩
    · rw [hother j hji, hne j hji]
      exact h.agree j
  refine ⟨.of_agree hall (fun b hb => ?_) ?_ fun j hF hj bn hbn => ?_, ⟨hother, hfields, htable,
    hdinode, hkeep, hsame, hdata, fun k' _ h0 h1 => ?_⟩⟩
  · rw [hbitmap]
    exact update_eq_of fun _ => h.reserved b hb
  · rw [hbitmap]
    refine h.own.take (a := (i, k)) hD hfree ?_
    rintro ⟨j, k'⟩ b
    unfold Holds
    simp only [htype, Prod.mk.injEq]
    by_cases hji : j = i
    · subst hji
      rw [hslot]
      by_cases hk : k' = k
      · subst hk
        simp only [if_true, hempty]
        constructor
        · rintro ⟨-, rfl, -⟩
          exact .inr ⟨⟨trivial, trivial⟩, rfl⟩
        · rintro (⟨-, h1, h2⟩ | ⟨-, rfl⟩)
          · exact absurd h1.symm h2
          · exact ⟨hi, rfl, hr⟩
      · simp [hk]
    · constructor
      · rintro ⟨hj, hs, hb⟩
        rw [hsame j k' hji hj] at hs
        exact .inl ⟨hj, hs, hb⟩
      · rintro (⟨hj, hs, hb⟩ | ⟨⟨h1, -⟩, -⟩)
        · rw [← hsame j k' hji hj] at hs
          exact ⟨hj, hs, hb⟩
        · exact absurd h1 hji
  · rw [htype] at hj
    rw [hsize] at hbn
    rcases h.whole j hF hj bn hbn with ⟨hlt, h0⟩
    exact ⟨hlt, by rwa [hkeep j _ hj h0]⟩
  · rw [hslot] at h1 ⊢
    by_cases hk : k' = k
    · rw [if_pos hk]
      exact hzero
    · rw [if_neg hk] at h1
      exact absurd h0 h1

/-! ## bmap -/

theorem zero_byte (j : Nat) : Block.byte (fun _ => 0) j = 0 := by
  unfold Block.byte
  split <;> rfl

theorem zero_getWord (j : Nat) : Block.getWord (fun _ => 0) j = 0 := by
  unfold Block.getWord
  rw [zero_byte, zero_byte, zero_byte, zero_byte]
  rfl

/-- Slot `k` of `addrs` is there, or was allocated, or there is no free block. -/
theorem bmapAddr_spec (h : InvOn F sb v s) (hlive : (s.inode i).Live)
    (hlock : (s.inode i).locked = true) (hk : k ≤ NDIRECT) :
    wp E (bmapAddr sb i k) (fun r t => ∃ v', InvOn F sb v' t ∧ Ext i v s v' t ∧
      (v' i).addrs k = r ∧ (r = 0 → t.DiskFull sb) ∧
      ∀ m, slot (v' i) t.block m ≠ 0 → slot (v i) s.block m ≠ 0 ∨ m = k) s := by
  rcases h.copy i hlive with ⟨hd, htype⟩
  rw [bmapAddr, wp_bind, wp_get, wp_ite, hd]
  refine ⟨fun h0 => ?_, fun h0 => wp_ret ⟨v, h, Ext.refl hd, rfl,
    fun hz => absurd hz h0, fun _ => .inl⟩⟩
  refine wp_call (balloc_spec h) fun r t ht => ?_
  rw [wp_ite]
  rcases ht with ⟨rfl, rfl, hfull⟩ | ⟨hr, hD, hfree, rfl⟩
  · exact ⟨fun _ => wp_ret ⟨v, h, Ext.refl hd, h0,
      fun _ => hfull, fun _ => .inl⟩, fun hne => absurd rfl hne⟩
  refine ⟨fun he => absurd he hr, fun _ => ?_⟩
  rw [wp_bind, wp_setCopy, wp_pure]
  -- the indirect block of no inode is the new block
  have hind : ∀ j, (v j).type ≠ .none → (v j).addrs NDIRECT ≠ r := by
    intro j hj he
    have hne := h.slot_ne_free (k := NDIRECT) hj hfree hr
    rw [slot_low le_rfl] at hne
    exact hne he
  have hblock : ∀ b ≠ r, update s.block r (fun _ => 0) b = s.block b :=
    fun b hb => update_of_ne hb _ _
  let d' : Dinode := { v i with addrs := update (v i).addrs k r }
  have hslot : ∀ k', slot (update v i d' i) (update s.block r fun _ => 0) k' =
      if k' = k then r else slot (v i) s.block k' := by
    intro k'
    rw [update_self]
    by_cases hk' : k' = k
    · rw [if_pos hk', slot_low (by omega), hk']
      exact update_self _ _ _
    rw [if_neg hk']
    by_cases hlow : k' ≤ NDIRECT
    · rw [slot_low hlow, slot_low hlow]
      exact update_of_ne hk' _ _
    by_cases hkN : k = NDIRECT
    · -- a new indirect block has no entries
      subst hkN
      have hnew : d'.addrs NDIRECT = r := update_self NDIRECT r (v i).addrs
      rw [slot_no_indirect (by omega) h0]
      unfold slot
      rw [if_neg hlow, hnew, update_self]
      split
      · rfl
      · rw [zero_getWord]
        rfl
    · have hsame : d'.addrs NDIRECT = (v i).addrs NDIRECT :=
        update_of_ne (Ne.symm hkN) _ _
      unfold slot
      rw [if_neg hlow, if_neg hlow, hsame, hblock _ (hind i htype)]
  have hatt := h.attach (w := update v i d') (k := k) hlive hlock hD hr hfree
    (by rw [slot_low hk]; exact h0) (t := {
      bitmap := update s.bitmap r true
      block := update s.block r fun _ => 0
      dinode := s.dinode
      inode := update s.inode i { s.inode i with d := d' } })
    (fun j hj => update_of_ne hj _ _) (by rw [update_self])
    (by rw [update_self]) rfl rfl hslot ?_ ?_ (update_self _ _ _)
  · refine ⟨update v i d', ?_, ?_, ?_, fun hz => absurd hz hr,
      fun m hm => ?_⟩
    · simpa only [hd] using hatt.1
    · simpa only [hd] using hatt.2
    · rw [update_self]
      exact update_self _ _ _
    · rw [hslot] at hm
      by_cases hmk : m = k
      · exact .inr hmk
      · rw [if_neg hmk] at hm
        exact .inl hm
  · intro j k' hj hjt
    rw [update_of_ne hj]
    exact slot_congr (fun _ _ => rfl) (fun _ => hblock _ (hind j hjt)) k'
  · intro j k' hj _ _
    exact hblock _ (h.slot_ne_free hj hfree hr)

/-- Block `bn` of the contents is there, or was allocated, or there is no free block. -/
theorem bmap_spec {bn : Nat} (hE : bn < MAXFILE ∨ E .bmapRange) (h : InvOn F sb v s)
    (hlive : (s.inode i).Live) (hlock : (s.inode i).locked = true) :
    wp E (bmap sb i bn) (fun r t => ∃ v', InvOn F sb v' t ∧ Ext i v s v' t ∧
      slot (v' i) t.block (dataSlot bn) = r ∧ (r = 0 → t.DiskFull sb) ∧
      ∀ m, slot (v' i) t.block m ≠ 0 →
        slot (v i) s.block m ≠ 0 ∨ m = NDIRECT ∨ m = dataSlot bn) s := by
  have htype := (h.copy i hlive).2
  rw [bmap]
  refine wp_if (fun hlt => ?_) fun hge => ?_
  · refine wp_mono (bmapAddr_spec h hlive hlock (le_of_lt hlt)) fun r t ht => ?_
    rcases ht with ⟨v', hinv, hext, hr, hfull, honly⟩
    rw [dataSlot, if_pos hlt]
    refine ⟨v', hinv, hext, ?_, hfull, fun m hm => (honly m hm).imp_right .inr⟩
    rw [slot_low (le_of_lt hlt)]
    exact hr
  · refine wp_if (fun hj => ?_) fun hj => (wp_throw _).mpr (hE.resolve_left fun hbn => ?_)
    swap
    · exact hj (indirect_lt hge hbn)
    rw [dataSlot_indirect hge]
    generalize bn - NDIRECT = j at hj
    refine wp_call (bmapAddr_spec h hlive hlock le_rfl) fun ind t ht => ?_
    rcases ht with ⟨v', hinv, hext, hind, hfull, honly⟩
    have honly' : ∀ m, slot (v' i) t.block m ≠ 0 →
        slot (v i) s.block m ≠ 0 ∨ m = NDIRECT ∨ m = NDIRECT + 1 + j :=
      fun m hm => (honly m hm).imp_right .inl
    refine wp_if (fun hz => wp_ret ⟨v', hinv, hext, slot_no_indirect (by omega) (hind.trans hz), fun
      _ => hfull hz, honly'⟩) fun h0 => ?_
    have hind0 : (v' i).addrs NDIRECT ≠ 0 := by rwa [hind]
    have hentry := slot_entry (b := t.block) hj hind0
    rw [hind] at hentry
    rcases held_of_table hext.table hlive hlock with ⟨hlive', hlock'⟩
    rw [wp_bind, wp_get]
    refine wp_if (fun hw => ?_) fun hw => wp_ret ⟨v', hinv, hext, hentry, fun hz => absurd
      (BitVec.eq_of_toNat_eq hz) hw, honly'⟩
    refine wp_call (balloc_spec hinv) fun r u hu => ?_
    rw [wp_ite]
    rcases hu with ⟨rfl, rfl, hfull'⟩ | ⟨hr, hD, hfree, rfl⟩
    · refine ⟨fun _ => wp_ret ⟨v', hinv, hext, ?_, fun _ => hfull', honly'⟩,
        fun hne => absurd rfl hne⟩
      rw [hentry, hw]
      rfl
    refine ⟨fun he => absurd he hr, fun _ => ?_⟩
    rw [wp_bind, wp_setBlock, wp_pure]
    rcases hinv.copy i hlive' with ⟨hd', htype'⟩
    have hne : ind ≠ r := by
      have hnf := hinv.slot_ne_free (k := NDIRECT) htype' hfree hr
      rwa [slot_low le_rfl, hind] at hnf
    have hblock : ∀ b ≠ r, b ≠ ind → ∀ w : Block,
        update (update t.block r fun _ => 0) ind w b = t.block b := by
      intro b hbr hbi w
      rw [update_of_ne hbi, update_of_ne hbr]
    have hword : (BitVec.ofNat 32 r).toNat = r := by
      have h₁ := hD.2
      have h₂ := sb.size_lt
      rw [BitVec.toNat_ofNat, Nat.mod_eq_of_lt (by omega)]
    -- the indirect block of `i` belongs to `i` alone
    have hown : ∀ j' k', (v' j').type ≠ .none → slot (v' j') t.block k' = ind →
        j' = i ∧ k' = NDIRECT := by
      intro j' k' hj' hs
      have hx := hinv.slot_inj (k := k') (m := NDIRECT) hj' htype' (by rwa [hs])
        (by rw [hs, slot_low le_rfl, hind])
      exact hx
    have hslot : ∀ k', slot (v' i) (update (update t.block r fun _ => 0) ind
        ((t.block ind).setWord j (BitVec.ofNat 32 r))) k' =
        if k' = NDIRECT + 1 + j then r else slot (v' i) t.block k' := by
      intro k'
      by_cases hlow : k' ≤ NDIRECT
      · rw [slot_low hlow, slot_low hlow, if_neg (by omega)]
      · unfold slot
        simp only [if_neg hlow, hind, update_self]
        by_cases hk' : k' = NDIRECT + 1 + j
        · have hj' : k' - (NDIRECT + 1) = j := by omega
          rw [if_pos hk', hj', if_neg (by rintro (hz | hz) <;> omega),
            Block.getWord_setWord_same _ _ (by rw [NINDIRECT] at hj; omega), hword]
        · rw [if_neg hk', Block.getWord_setWord_other _ _ (by omega)]
    have hatt := hinv.attach (w := v') (k := NDIRECT + 1 + j) hlive' hlock' hD hr hfree
      (by rw [hentry, hw]; rfl) (t := {
        bitmap := update t.bitmap r true
        block := update (update t.block r fun _ => 0) ind
          ((t.block ind).setWord j (BitVec.ofNat 32 r))
        dinode := t.dinode
        inode := t.inode })
      (fun _ _ => rfl) rfl (by rw [← hd']; exact (update_eq_self i t.inode).symm)
      rfl rfl hslot ?_ ?_ (by
        show update (update t.block r fun _ => 0) ind _ r = _
        rw [update_of_ne hne.symm, update_self])
    · have hold : update t.block r (fun _ => 0) ind = t.block ind :=
        update_of_ne hne _ _
      simp only [hold]
      refine ⟨v', hatt.1, hext.trans htype hatt.2, ?_, fun hz => absurd hz hr,
        fun m hm => ?_⟩
      · rw [hslot, if_pos rfl]
      · rw [hslot] at hm
        by_cases hmj : m = NDIRECT + 1 + j
        · exact .inr (.inr hmj)
        · rw [if_neg hmj] at hm
          exact honly' m hm
    · intro j' k' hj' hjt
      refine slot_congr (fun _ _ => rfl) (fun hz => hblock _ ?_ ?_ _) k'
      · have hnf := hinv.slot_ne_free (k := NDIRECT) hjt hfree hr
        rwa [slot_low le_rfl] at hnf
      · intro he
        exact hj' (hown j' NDIRECT hjt (by rw [slot_low le_rfl, he])).1
    · intro j' k' hjt hk' hz
      refine hblock _ (hinv.slot_ne_free hjt hfree hr) (fun he => ?_) _
      exact hk' (hown j' k' hjt he).2

/-- A block that is there is found without a change. -/
theorem bmap_mapped (hd : (s.inode i).d = d) {bn : Nat} (hbn : bn < MAXFILE)
    (h0 : slot d s.block (dataSlot bn) ≠ 0) :
    wp E (bmap sb i bn) (fun r t => t = s ∧ r = slot d s.block (dataSlot bn)) s := by
  have haddr : ∀ k, d.addrs k ≠ 0 →
      wp E (bmapAddr sb i k) (fun r t => t = s ∧ r = d.addrs k) s := by
    intro k hk
    rw [bmapAddr, wp_bind, wp_get, hd, if_neg hk, wp_pure]
    exact ⟨rfl, rfl⟩
  rw [bmap]
  refine wp_if (fun hlt => ?_) fun hge => ?_
  · rw [slot_direct hlt] at h0 ⊢
    exact haddr bn h0
  · obtain ⟨hind, hw, hslot⟩ := slot_indirect hge hbn h0
    rw [if_pos (indirect_lt hge hbn), hslot]
    refine wp_call (haddr NDIRECT hind) fun ind t ht => ?_
    rcases ht with ⟨rfl, rfl⟩
    rw [if_neg hind, wp_bind, wp_get, if_neg hw, wp_pure]
    exact ⟨rfl, rfl⟩

end

end Xv6.Fs
