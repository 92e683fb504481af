import Mathlib.Data.List.TakeWhile
import Xv6.Fs.Extend

/-!
# Xv6.Fs.Content — readi and writei

What the two loops over the blocks of an inode do to its contents. A file has no holes, so
`readi` finds every block and changes nothing. `writei` writes the bytes it reports and may
have written a few more of those it was given; every other byte of every inode stays as it
was, and so does the invariant, also when the disk fills up or the source cannot be read.
-/

namespace Xv6.Fs

open Lib Function List

/-- The `n` bytes of the contents from `off`. -/
def contents (d : Dinode) (blk : Nat → Block) (off n : Nat) : List Byte :=
  (List.range n).map fun k => content d blk (off + k)

/-- What the loop of `writei` at `off` leaves as it was, having written `e` of `n` bytes to the
inode `i`. -/
structure Spares (i off n e : Nat) (v : Nat → Dinode) (s : St) (w : Nat → Dinode) (t : St) :
    Prop where
  keep : ∀ j k, (v j).type ≠ .none → slot (v j) s.block k ≠ 0 →
    slot (w j) t.block k = slot (v j) s.block k
  outside : ∀ j p, (v j).type ≠ .none → slot (v j) s.block (dataSlot (p / BSIZE)) ≠ 0 →
    (j = i → p < off ∨ off + e ≤ p) → content (w j) t.block p = content (v j) s.block p
  same : ∀ j k, j ≠ i → (v j).type ≠ .none → slot (w j) t.block k = slot (v j) s.block k
  only : ∀ k, slot (w i) t.block k ≠ 0 → slot (v i) s.block k ≠ 0 ∨ k = NDIRECT ∨
    ∃ x, x < n ∧ k = dataSlot ((off + x) / BSIZE)
  zeros : ∀ p, slot (v i) s.block (dataSlot (p / BSIZE)) = 0 →
    slot (w i) t.block (dataSlot (p / BSIZE)) ≠ 0 → p < off ∨ off + e ≤ p →
    content (w i) t.block p = 0

/-- The loop has written these bytes to the locked inode. -/
structure Wrote (i off n e : Nat) (src : Nat → Option Byte) (v : Nat → Dinode) (s : St)
    (w : Nat → Dinode) (t : St) : Prop extends Spares i off n e v s w t where
  other : ∀ j, j ≠ i → w j = v j
  fields : w i = { v i with addrs := (w i).addrs }
  table : t.inode = update s.inode i { s.inode i with d := w i }
  dinode : t.dinode = s.dinode
  inside : ∀ k, k < e → slot (w i) t.block (dataSlot ((off + k) / BSIZE)) ≠ 0 ∧
    some (content (w i) t.block (off + k)) = src k

/-- The length of the piece that `writei` copies after `m` of `n` bytes. -/
def pieceLen (off n m : Nat) : Nat := min (n - m) (BSIZE - (off + m) % BSIZE)

/-- Why the loop ends after `m` of `n` bytes, with `e` bytes in the blocks: all are written,
there is no free block, or the source cannot be read to the end of a piece, of which the bytes
before that are in the block already. -/
inductive Ended (sb : Super) (off n m e : Nat) (src : Nat → Option Byte) (d : Dinode) (t : St) :
    Prop where
  | done (hm : m = n) (he : e = n)
  | full (hm : m < n) (he : e = m) (hnone : slot d t.block (dataSlot ((off + m) / BSIZE)) = 0)
      (hfull : t.DiskFull sb)
  | fault (hm : m < n) (hstart : m = 0 ∨ (off + m) % BSIZE = 0)
      (hread : readable src m (pieceLen off n m) < pieceLen off n m)
      (he : e = m + readable src m (pieceLen off n m))

/-- `writei` at `off` has written `m` of `n` bytes to the locked inode `i`, and `e` bytes to its
blocks. -/
structure Written (F : Nat → Prop) (sb : Super) (i off n m e : Nat) (src : Nat → Option Byte)
    (v : Nat → Dinode) (s : St) (w : Nat → Dinode) (t : St) :
    Prop extends Spares i off n e v s w t where
  ended : Ended sb off n m e src (w i) t
  inv : InvOn F sb w t
  other : ∀ j, j ≠ i → w j = v j
  fields : w i = { v i with size := max (v i).size (off + m), addrs := (w i).addrs }
  table : t.inode = update s.inode i { s.inode i with d := w i }
  dinode : t.dinode = update s.dinode i (w i)
  inside : ∀ k, k < e → some (content (w i) t.block (off + k)) = src k

section
variable {F : Nat → Prop} {sb : Super} {v w w' : Nat → Dinode} {s t u : St} {E : Stop → Prop}
  {d : Dinode} {blk : Nat → Block} {i j k m n off tot p bn : Nat} {src : Nat → Option Byte}

/-! ## Offsets -/

theorem div_of_same_block (hm : m < BSIZE - off % BSIZE) : (off + m) / BSIZE = off / BSIZE := by
  unfold BSIZE at *
  omega

theorem mod_of_same_block (hm : m < BSIZE - off % BSIZE) :
    (off + m) % BSIZE = off % BSIZE + m := by
  unfold BSIZE at *
  omega

/-- What is written below the largest size goes to a block that a file can have. -/
theorem block_lt_max (hmax : off + n ≤ MAXFILE * BSIZE) (hm : m < n) :
    (off + m) / BSIZE < MAXFILE := by
  rw [Nat.div_lt_iff_lt_mul (by decide)]
  omega

theorem pieceLen_pos (off : Nat) (hm : m < n) : 0 < min (n - m) (BSIZE - (off + m) % BSIZE) := by
  have hmod : (off + m) % BSIZE < BSIZE := Nat.mod_lt _ (by decide)
  omega

theorem Full.size_le (h : Full d blk) : d.size ≤ MAXFILE * BSIZE := by
  by_contra hlt
  exact lt_irrefl _ (h MAXFILE (by omega)).1

/-- The block of a byte below the size is there. -/
theorem Full.mapped (h : Full d blk) (hp : p < d.size) :
    p / BSIZE < MAXFILE ∧ slot d blk (dataSlot (p / BSIZE)) ≠ 0 :=
  h (p / BSIZE) (lt_of_le_of_lt (Nat.div_mul_le_self p BSIZE) hp)

theorem content_congr {d' : Dinode} (h : d'.addrs = d.addrs) :
    content d' blk p = content d blk p := by
  unfold content
  rw [slot_congr (d := d) (fun k _ => by rw [h]) fun _ => rfl]

/-! ## One block of data -/

/-- A data block is no indirect block. -/
theorem InvOn.slot_setData (h : InvOn F sb v s) (hi : (v i).type ≠ .none) (hk : k ≠ NDIRECT)
    (h0 : slot (v i) s.block k ≠ 0) (x : Block) (hj : (v j).type ≠ .none) :
    slot (v j) (update s.block (slot (v i) s.block k) x) m = slot (v j) s.block m := by
  refine slot_congr (fun _ _ => rfl) (fun _ => update_of_ne (fun he => ?_) _ _) m
  have hind : slot (v i) s.block k = slot (v j) s.block NDIRECT := by
    rw [slot_low (Nat.le_refl NDIRECT), he]
  exact hk (h.slot_inj hi hj h0 hind).2

theorem InvOn.setData (h : InvOn F sb v s) (hi : (v i).type ≠ .none) (hk : k ≠ NDIRECT)
    (h0 : slot (v i) s.block k ≠ 0) (x : Block) :
    InvOn F sb v { s with block := update s.block (slot (v i) s.block k) x } := by
  refine { h with own := h.own.congr fun y b => ?_, whole := fun j hF hj bn hbn => ?_ }
  · unfold Holds
    refine and_congr_right fun hy => ?_
    rw [h.slot_setData hi hk h0 x hy]
  · rcases h.whole j hF hj bn hbn with ⟨hlt, hne⟩
    refine ⟨hlt, ?_⟩
    rwa [h.slot_setData hi hk h0 x hj]

/-- Writing block `bn` of inode `i` changes the bytes of that block only. -/
theorem InvOn.content_setData (h : InvOn F sb v s) (hi : (v i).type ≠ .none)
    (h0 : slot (v i) s.block (dataSlot bn) ≠ 0) (x : Block) (hj : (v j).type ≠ .none) :
    content (v j) (update s.block (slot (v i) s.block (dataSlot bn)) x) p =
      if j = i ∧ p / BSIZE = bn then x.byte (p % BSIZE) else content (v j) s.block p := by
  unfold content
  rw [h.slot_setData hi (dataSlot_ne bn) h0 x hj]
  split
  · next hc => rw [hc.1, hc.2, update_self]
  · next hc =>
    rw [update_of_ne]
    intro he
    have hsame := h.slot_inj hi hj h0 he.symm
    exact hc ⟨hsame.1.symm, (dataSlot_inj hsame.2).symm⟩

/-! ## Copies into a block -/

theorem readable_le (src : Nat → Option Byte) (tot m : Nat) : readable src tot m ≤ m := by
  have hlen := (List.takeWhile_prefix (l := List.range m) fun k => (src (tot + k)).isSome).length_le
  rwa [length_range] at hlen

theorem isSome_of_lt_readable (hk : k < readable src tot m) : (src (tot + k)).isSome = true := by
  unfold readable at hk
  have hpre := takeWhile_prefix (l := List.range m) fun k => (src (tot + k)).isSome
  have hget := hpre.getElem hk
  rw [getElem_range] at hget
  have hmem := mem_takeWhile_imp (getElem_mem hk)
  rwa [hget] at hmem

/-- A copy that stops early met a byte it could not read. -/
theorem unreadable_of_lt (h : readable src tot m < m) : ∃ k < m, src (tot + k) = none := by
  by_contra hall
  have hself : (List.range m).takeWhile (fun k => (src (tot + k)).isSome) = List.range m := by
    rw [takeWhile_eq_self_iff]
    intro k hk
    rw [mem_range] at hk
    cases hsrc : src (tot + k) with
    | none => exact absurd ⟨k, hk, hsrc⟩ hall
    | some x => rfl
  rw [readable, hself, length_range] at h
  exact lt_irrefl _ h

theorem byte_fill {b : Block} {o q : Nat} (hq : q < BSIZE) :
    (Block.fill b o tot m src).byte q =
      if o ≤ q ∧ q < o + readable src tot m then (src (tot + (q - o))).getD 0 else b.byte q := by
  unfold Block.byte Block.fill
  rw [dif_pos hq, dif_pos hq]

/-! ## The loop of writei -/

/-- Only the references of the inodes and the blocks matter. -/
theorem Spares.congr (h : Spares i off n tot v s w t) (hw : ∀ j, (w' j).addrs = (w j).addrs)
    (hu : u.block = t.block) : Spares i off n tot v s w' u := by
  have hslot : ∀ j k, slot (w' j) t.block k = slot (w j) t.block k := fun j =>
    slot_congr (fun k _ => by rw [hw j]) fun _ => rfl
  have hbyte : ∀ j p, content (w' j) t.block p = content (w j) t.block p := fun j _ =>
    content_congr (hw j)
  constructor <;> simp only [hu, hslot, hbyte]
  exacts [h.keep, h.outside, h.same, h.only, h.zeros]

theorem Wrote.start (hd : (s.inode i).d = v i) : Wrote i off n 0 src v s v s := by
  refine ⟨⟨fun _ _ _ _ => rfl, fun _ _ _ _ _ => rfl, fun _ _ _ _ => rfl, fun _ => .inl,
    fun _ h0 h1 => absurd h0 h1⟩, fun _ _ => rfl, rfl, ?_, rfl,
    fun k hk => absurd hk (Nat.not_lt_zero k)⟩
  rw [← hd, update_eq_self]

section
variable (h : Wrote i off n tot src v s w t)
include h

theorem Wrote.type_eq (j : Nat) :
    (w j).type = (v j).type := by
  by_cases hj : j = i
  · rw [hj, h.fields]
  · rw [h.other j hj]

/-- A new block changes nothing that was written. -/
theorem Wrote.ext (hi : (v i).type ≠ .none) (hlt : tot < n) (he : Ext i w t w' u)
    (honly : ∀ m, slot (w' i) u.block m ≠ 0 →
      slot (w i) t.block m ≠ 0 ∨ m = NDIRECT ∨ m = dataSlot ((off + tot) / BSIZE)) :
    Wrote i off n tot src v s w' u := by
  have hmap : ∀ j k, (v j).type ≠ .none → slot (v j) s.block k ≠ 0 →
      slot (w j) t.block k ≠ 0 := by
    intro j k hj h0
    rwa [h.keep j k hj h0]
  refine ⟨⟨fun j k hj h0 => ?_, fun j p hj h0 hp => ?_, fun j k hji hj => ?_, fun k hk => ?_,
    fun p h0 h1 hp => ?_⟩, fun j hj => (he.other j hj).trans (h.other j hj), ?_, ?_,
    he.dinode.trans h.dinode, fun k hk => ?_⟩
  · rw [he.keep j k (by rwa [h.type_eq]) (hmap j k hj h0), h.keep j k hj h0]
  · rw [he.content_eq (by rwa [h.type_eq]) (hmap j _ hj h0), h.outside j p hj h0 hp]
  · rw [he.same j k hji (by rwa [h.type_eq]), h.same j k hji hj]
  · rcases honly k hk with hold | hind | hnew
    · exact h.only k hold
    · exact .inr (.inl hind)
    · exact .inr (.inr ⟨tot, hlt, hnew⟩)
  · by_cases hmid : slot (w i) t.block (dataSlot (p / BSIZE)) = 0
    · -- a new block is empty
      unfold content
      rw [he.zeros _ (dataSlot_ne _) hmid h1]
      exact zero_byte _
    · rw [he.content_eq (by rwa [h.type_eq]) hmid, h.zeros p h0 hmid hp]
  · rw [he.fields, h.fields]
  · rw [he.table, h.table, update_self, update_idem]
  · rcases h.inside k hk with ⟨h0, hsrc⟩
    have ht : (w i).type ≠ .none := by rwa [h.type_eq]
    refine ⟨?_, ?_⟩
    · rwa [he.keep i _ ht h0]
    · rwa [he.content_eq ht h0]

/-- A copy into the block at the current offset, of the bytes that can be read. -/
theorem Wrote.fill (hinv : InvOn F sb w t) (hi : (v i).type ≠ .none)
    (hm : m ≤ BSIZE - (off + tot) % BSIZE)
    (h0 : slot (w i) t.block (dataSlot ((off + tot) / BSIZE)) ≠ 0) :
    Wrote i off n (tot + readable src tot m) src v s w
      { t with block := update t.block (slot (w i) t.block (dataSlot ((off + tot) / BSIZE)))
                 (Block.fill (t.block (slot (w i) t.block (dataSlot ((off + tot) / BSIZE))))
                   ((off + tot) % BSIZE) tot m src) } := by
  have ht : ∀ j, (v j).type ≠ .none → (w j).type ≠ .none := fun j hj => by rwa [h.type_eq]
  have hsame := fun (x : Block) (j k : Nat) (hj : (v j).type ≠ .none) =>
    hinv.slot_setData (m := k) (ht i hi) (dataSlot_ne _) h0 x (ht j hj)
  have hbyte := fun (x : Block) (j p : Nat) (hj : (v j).type ≠ .none) =>
    hinv.content_setData (p := p) (ht i hi) h0 x (ht j hj)
  have hread := readable_le src tot m
  have hlt : ∀ p, p % BSIZE < BSIZE := fun p => Nat.mod_lt p (by decide)
  -- a byte before or after those of this call stays, also if it is in the block
  have hout : ∀ j p, (v j).type ≠ .none →
      (j = i → p < off ∨ off + (tot + readable src tot m) ≤ p) →
      content (w j) (update t.block (slot (w i) t.block (dataSlot ((off + tot) / BSIZE)))
        (Block.fill (t.block (slot (w i) t.block (dataSlot ((off + tot) / BSIZE))))
          ((off + tot) % BSIZE) tot m src)) p = content (w j) t.block p := by
    intro j p hj hp
    rw [hbyte _ j p hj]
    split
    · next hc =>
      rw [byte_fill (hlt p), if_neg, hc.1]
      · unfold content
        rw [hc.2]
      · have hrange := hp hc.1
        have hblock := hc.2
        unfold BSIZE at *
        omega
    · rfl
  refine ⟨⟨fun j k hj hne => ?_, fun j p hj hne hp => ?_, fun j k hji hj => ?_, fun k hk => ?_,
    fun p hz hne hp => ?_⟩, h.other, h.fields, h.table, h.dinode, fun k hk => ?_⟩
  · rw [hsame _ j k hj, h.keep j k hj hne]
  · rw [hout j p hj hp, h.outside j p hj hne fun he => (hp he).imp_right (by omega)]
  · rw [hsame _ j k hj, h.same j k hji hj]
  · rw [hsame _ i k hi] at hk
    exact h.only k hk
  · rw [hsame _ i _ hi] at hne
    rw [hout i p hi fun _ => hp, h.zeros p hz hne (hp.imp_right (by omega))]
  · rw [hsame _ i _ hi, hbyte _ i _ hi]
    by_cases hold : k < tot
    · rcases h.inside k hold with ⟨hne, hsrc⟩
      refine ⟨hne, ?_⟩
      split
      · next hc =>
        rw [byte_fill (hlt _), if_neg, ← hsrc]
        · unfold content
          rw [hc.2]
        · have hblock := hc.2
          unfold BSIZE at *
          omega
      · exact hsrc
    · obtain ⟨e, rfl⟩ : ∃ e, k = tot + e := ⟨k - tot, by omega⟩
      have he : e < BSIZE - (off + tot) % BSIZE := by omega
      have hsome := isSome_of_lt_readable (show e < readable src tot m by omega)
      rw [← Nat.add_assoc, div_of_same_block he, mod_of_same_block he, if_pos ⟨rfl, rfl⟩,
        byte_fill (by omega), if_pos (by omega), Nat.add_sub_cancel_left]
      refine ⟨h0, ?_⟩
      rcases Option.isSome_iff_exists.mp hsome with ⟨x, hx⟩
      rw [hx]
      rfl

end

theorem writei_loop_spec (hi : (v i).type ≠ .none) (hlive : (s.inode i).Live)
    (hlock : (s.inode i).locked = true) (hmax : off + n ≤ MAXFILE * BSIZE) (fuel : Nat)
    (hfuel : n ≤ tot + fuel) (htot : tot ≤ n) (hstart : tot < n → tot = 0 ∨ (off + tot) % BSIZE = 0)
    (hinv : InvOn F sb w t) (h : Wrote i off n tot src v s w t) :
    wp E (writei.loop sb i src n fuel tot (off + tot)) (fun r u => r.2 = off + r.1 ∧
      ∃ e w', Ended sb off n r.1 e src (w' i) u ∧ InvOn F sb w' u ∧
        Wrote i off n e src v s w' u) t := by
  induction fuel generalizing tot w t with
  | zero => exact wp_ret ⟨rfl, tot, w, .done (by omega) (by omega), hinv, h⟩
  | succ fuel ih =>
    rw [writei.loop]
    refine wp_if (fun hge => wp_ret ⟨rfl, tot, w, .done (by omega) (by omega), hinv, h⟩) fun hlt =>
      ?_
    rcases held_of_table h.table hlive hlock with ⟨hlive', hlock'⟩
    have hbn := block_lt_max hmax (lt_of_not_ge hlt)
    refine wp_call (bmap_spec (.inl hbn) hinv hlive' hlock') fun r t₁ hr => ?_
    rcases hr with ⟨w', hinv', hext, hr, hfull, honly⟩
    have hwrote := h.ext hi (by omega) hext honly
    refine wp_if (fun hz => wp_ret ⟨rfl, tot, w', .full (by omega) rfl (hr.trans hz) (hfull hz),
      hinv', hwrote⟩) fun h0 => ?_
    have hi' : (w' i).type ≠ .none := by rwa [hwrote.type_eq]
    rw [← hr] at h0 ⊢
    have hm := Nat.min_le_right (n - tot) (BSIZE - (off + tot) % BSIZE)
    have hlen : tot + min (n - tot) (BSIZE - (off + tot) % BSIZE) ≤ n := by omega
    have hpos := pieceLen_pos off (lt_of_not_ge hlt)
    have hset := fun x => hinv'.setData hi' (dataSlot_ne _) h0 x
    rw [wp_bind, wp_setBlock, wp_ite]
    have hfill := hwrote.fill hinv' hi hm h0
    refine ⟨fun hpart => wp_ret ⟨rfl, _, w', .fault (by omega) (hstart (by omega))
      hpart rfl, hset _, hfill⟩, fun hall => ?_⟩
    have hread := readable_le src tot (min (n - tot) (BSIZE - (off + tot) % BSIZE))
    rw [le_antisymm hread (by omega)] at hfill
    rw [Nat.add_assoc]
    refine ih (by omega) hlen (fun hmore => .inr ?_) (hset _) hfill
    unfold BSIZE at *
    omega

/-! ## writei -/

theorem Ended.le (h : Ended sb off n m tot src d t) : m ≤ tot ∧ tot ≤ n := by
  cases h with
  | done hm he => omega
  | full hm he hnone hfull => omega
  | fault hm hstart hread he =>
    have hle := Nat.min_le_left (n - m) (BSIZE - (off + m) % BSIZE)
    unfold pieceLen at *
    omega

/-- The locked inode gets new fields, in memory and on disk. -/
theorem InvOn.setFields {d : Dinode} (h : InvOn F sb v s) (hlive : (s.inode i).Live)
    (htype : d.type = (v i).type) (haddrs : d.addrs = (v i).addrs) (hfull : Full d s.block) :
    InvOn F sb (update v i d)
      { s with inode := update s.inode i { s.inode i with d := d }
               dinode := update s.dinode i d } := by
  have hslot : ∀ k, slot d s.block k = slot (v i) s.block k := fun k =>
    slot_congr (fun k _ => by rw [haddrs]) (fun _ => rfl) k
  have hi := (h.copy i hlive).2
  have hagree : Agree sb i d { s.inode i with d := d } d :=
    ⟨fun _ => ⟨rfl, by rwa [htype]⟩, fun _ => rfl, rfl, fun _ => hlive.1, fun _ => h.range i hi⟩
  refine .of_agree (h.agree_update hagree) h.reserved (h.own.congr fun x b => ?_)
    (h.whole_update fun _ => hfull)
  unfold Holds
  by_cases hxi : x.1 = i
  · rw [hxi, update_self, hslot, htype]
  · rw [update_of_ne hxi]

/-- The blocks of what was written are there, after those that were there before. -/
theorem Wrote.full {e : Nat} (h : Wrote i off n e src v s w t) (hi : (v i).type ≠ .none)
    (hfull : Full (v i) s.block) (hoff : off ≤ (v i).size) (hme : m ≤ e) (hm : m ≤ n)
    (hmax : off + n ≤ MAXFILE * BSIZE) (hd : d.size = max (v i).size (off + m))
    (haddrs : d.addrs = (w i).addrs) : Full d t.block := by
  intro bn hbn
  have hslot : slot d t.block (dataSlot bn) = slot (w i) t.block (dataSlot bn) :=
    slot_congr (fun k _ => by rw [haddrs]) (fun _ => rfl) _
  rw [hslot]
  by_cases hold : bn * BSIZE < (v i).size
  · rcases hfull bn hold with ⟨hlt, hne⟩
    exact ⟨hlt, by rwa [h.keep i _ hi hne]⟩
  have hk : bn * BSIZE - off < m := by omega
  have hdiv : (off + (bn * BSIZE - off)) / BSIZE = bn := by
    rw [Nat.add_sub_cancel' (by omega), Nat.mul_div_cancel _ (by decide)]
  have hin := (h.inside _ (lt_of_lt_of_le hk hme)).1
  rw [hdiv] at hin
  refine ⟨?_, hin⟩
  rw [← Nat.mul_lt_mul_right (a := BSIZE) (by decide)]
  omega

theorem Written.locked (h : Written F sb i off n m tot src v s w t) (hlive : (s.inode i).Live)
    (hlock : (s.inode i).locked = true) : Locked w t i := by
  rcases held_of_table h.table hlive hlock with ⟨hlive', hlock'⟩
  refine ⟨hlive', hlock', ?_⟩
  rw [h.dinode, update_self]

/-- `writei` of `n` bytes is refused, or writes some of them. -/
theorem writei_spec (h : InvOn F sb v s) (hF : F i) (hlive : (s.inode i).Live)
    (hlock : (s.inode i).locked = true) (hn : n < 2 ^ 32) :
    wp E (writei sb i src off n) (fun r t =>
      (r = none ∧ t = s ∧ ((v i).size < off ∨ MAXFILE * BSIZE < off + n)) ∨
      ∃ m e w, r = some m ∧ m ≤ n ∧ off ≤ (v i).size ∧ off + n ≤ MAXFILE * BSIZE ∧
        Written F sb i off n m e src v s w t) s := by
  rcases h.copy i hlive with ⟨hd, hi⟩
  have hfull := h.whole i hF hi
  have hsize := hfull.size_le
  have hmax : MAXFILE * BSIZE < 2 ^ 32 := by decide
  rw [writei, wp_bind, wp_get, hd]
  refine wp_if (fun hbad => wp_ret (.inl ⟨rfl, rfl, ?_⟩)) fun hok => ?_
  · unfold u32 at hbad
    omega
  have hle : off ≤ (v i).size := by omega
  have hu : u32 (off + n) = off + n := by
    unfold u32 at hok ⊢
    omega
  rw [wp_ite, hu]
  refine ⟨fun hbig => wp_ret (.inl ⟨rfl, rfl, .inr hbig⟩), fun hfit => ?_⟩
  refine wp_call (writei_loop_spec hi hlive hlock (by omega) n
    (by omega) (Nat.zero_le n) (fun _ => .inl rfl) h (Wrote.start hd)) fun r u hr => ?_
  rcases r with ⟨m, o⟩
  rcases hr with ⟨ho, e, w, hended, hinv, hwrote⟩
  change o = off + m at ho
  change Ended sb off n m e src (w i) u at hended
  subst ho
  have hle' := hended.le
  have hmn : m ≤ n := by omega
  have hself : u.inode i = { s.inode i with d := w i } := by
    rw [hwrote.table, update_self]
  have hws : (w i).size = (v i).size := by rw [hwrote.fields]
  have hmaxsize : (if (w i).size < off + m then off + m else (w i).size) =
      max (v i).size (off + m) := by
    rw [hws]
    split <;> omega
  rw [wp_bind, wp_setCopy, wp_bind, wp_iupdate, wp_pure]
  simp only [update_self, hself, hmaxsize]
  have hfull' : Full { w i with size := max (v i).size (off + m) } u.block :=
    hwrote.full hi hfull hle hle'.1 hmn (by omega) rfl rfl
  have hset := hinv.setFields (i := i) (d := { w i with size := max (v i).size (off + m) })
    (by rw [hself]; exact hlive) rfl rfl hfull'
  simp only [hself] at hset
  have hslot : ∀ k, slot { w i with size := max (v i).size (off + m) } u.block k =
      slot (w i) u.block k := slot_congr (fun _ _ => rfl) (fun _ => rfl)
  have hended' : Ended sb off n m e src { w i with size := max (v i).size (off + m) }
      { u with
        dinode := update u.dinode i { w i with size := max (v i).size (off + m) }
        inode := update u.inode i
          { s.inode i with d := { w i with size := max (v i).size (off + m) } } } := by
    cases hended with
    | done hm he => exact .done hm he
    | full hm he hnone hfree => exact .full hm he ((hslot _).trans hnone) hfree
    | fault hm hstart hread he => exact .fault hm hstart hread he
  refine .inr ⟨m, e, _, rfl, hmn, hle, by omega, hwrote.toSpares.congr (fun j => ?_) rfl, ?_, hset,
    fun j hj => ?_, ?_, ?_, ?_, fun k hk => ?_⟩
  · exact update_field Dinode.addrs (by rfl) j
  · rw [update_self]
    exact hended'
  · rw [update_of_ne hj, hwrote.other j hj]
  · rw [update_self]
    exact congrArg (fun d : Dinode => { d with size := max (v i).size (off + m) }) hwrote.fields
  · rw [update_self, hwrote.table, update_idem]
  · rw [update_self, hwrote.dinode]
  · rw [update_self, ← (hwrote.inside k hk).2]
    exact congrArg some (content_congr rfl)

/-! ## readi -/

theorem contents_add : contents d blk off (tot + m) =
    contents d blk off tot ++ contents d blk (off + tot) m := by
  unfold contents
  rw [range_add, map_append, map_map]
  simp only [Function.comp_def, Nat.add_assoc]

theorem contents_congr {d' : Dinode} {blk' : Nat → Block}
    (h : ∀ k < n, content d' blk' (off + k) = content d blk (off + k)) :
    contents d' blk' off n = contents d blk off n :=
  map_congr_left fun k hk => h k (mem_range.mp hk)

/-- The bytes of one round of the loop. -/
theorem contents_slice (hm : m ≤ BSIZE - off % BSIZE) :
    contents d blk off m =
      Block.slice (blk (slot d blk (dataSlot (off / BSIZE)))) (off % BSIZE) m := by
  unfold contents Block.slice
  refine map_congr_left fun k hk => ?_
  rw [mem_range] at hk
  rw [content, div_of_same_block (by omega), mod_of_same_block (by omega)]

variable {dst : Nat → Bool}

theorem readi_loop_spec (hd : (s.inode i).d = d) (hmap : ∀ p, off ≤ p → p < off + n →
      p / BSIZE < MAXFILE ∧ slot d s.block (dataSlot (p / BSIZE)) ≠ 0) (fuel : Nat)
    (hfuel : n ≤ tot + fuel) (htot : tot ≤ n) :
    wp E (readi.loop sb i dst n fuel tot (off + tot) (contents d s.block off tot))
      (fun r t => t = s ∧ ((∀ k < n, dst k = true) → r = some (contents d s.block off n)))
      s := by
  induction fuel generalizing tot with
  | zero =>
    have heq : tot = n := by omega
    rw [heq]
    exact wp_ret ⟨rfl, fun _ => rfl⟩
  | succ fuel ih =>
    rw [readi.loop, wp_ite]
    refine ⟨fun hge => wp_ret ⟨rfl, fun _ => by rw [le_antisymm htot hge]⟩,
      fun hlt => ?_⟩
    rcases hmap (off + tot) (by omega) (by omega) with ⟨hbn, h0⟩
    refine wp_call (bmap_mapped hd hbn h0) fun r t hr => ?_
    rcases hr with ⟨rfl, rfl⟩
    have hmod : (off + tot) % BSIZE < BSIZE := Nat.mod_lt _ (by decide)
    rw [if_neg h0, wp_bind, wp_get]
    refine wp_if (fun _ => ?_) fun hdst => wp_ret ⟨rfl, fun hall => ?_⟩
    · rw [← contents_slice (Nat.min_le_right _ _), ← contents_add, Nat.add_assoc]
      exact ih (by omega) (by omega)
    · refine absurd (all_eq_true.mpr fun k hk => ?_) hdst
      rw [mem_range] at hk
      exact hall _ (by omega)

/-- How many bytes `readi` finds. -/
def readLen (size off n : Nat) : Nat := if off + n < 2 ^ 32 then min n (size - off) else 0

/-- `readi` of blocks that are there changes nothing, and returns the bytes if they can be
copied out. -/
theorem readi_mapped (hd : (s.inode i).d = d) (hn : n < 2 ^ 32) (hsize : d.size < 2 ^ 32)
    (hmap : ∀ p, off ≤ p → p < off + readLen d.size off n →
      p / BSIZE < MAXFILE ∧ slot d s.block (dataSlot (p / BSIZE)) ≠ 0) :
    wp E (readi sb i dst off n) (fun r t => t = s ∧ ((∀ k < n, dst k = true) →
      r = some (contents d s.block off (readLen d.size off n)))) s := by
  rw [readi, wp_bind, wp_get, hd]
  refine wp_if (fun hbad => wp_ret ⟨rfl, fun _ => ?_⟩) fun hok => ?_
  · have hzero : readLen d.size off n = 0 := by
      unfold readLen
      unfold u32 at hbad
      split <;> omega
    rw [hzero]
    rfl
  · have hu : u32 (off + n) = off + n ∧ off + n < 2 ^ 32 := by
      unfold u32 at hok ⊢
      omega
    have hlen : (if d.size < u32 (off + n) then d.size - off else n) = readLen d.size off n := by
      rw [readLen, if_pos hu.2, hu.1]
      split <;> omega
    have hle : readLen d.size off n ≤ n := by
      rw [← hlen, hu.1]
      split <;> omega
    simp only [hlen]
    refine wp_mono (readi_loop_spec hd hmap _ (by omega) (Nat.zero_le _))
      fun r t hr => ⟨hr.1, fun hall => hr.2 fun k hk => hall k (by omega)⟩

/-- A file has no holes. -/
theorem readi_spec (h : InvOn F sb v s) (hF : F i) (hlive : (s.inode i).Live) (hn : n < 2 ^ 32) :
    wp E (readi sb i dst off n) (fun r t => t = s ∧ ((∀ k < n, dst k = true) →
      r = some (contents (v i) s.block off (readLen (v i).size off n)))) s := by
  rcases h.copy i hlive with ⟨hd, hi⟩
  have hsize := (h.whole i hF hi).size_le
  have hmax : MAXFILE * BSIZE < 2 ^ 32 := by decide
  refine readi_mapped hd hn (by omega) fun p hp hlt => (h.whole i hF hi).mapped ?_
  unfold readLen at hlt
  split at hlt <;> omega

end

end Xv6.Fs
