import Xv6.Fs.Bytes
import Xv6.Fs.Logged

/-!
# Xv6.Fs.Fault — a write from memory that cannot be read

The copy into a block is made page by page. When it meets a page that cannot be read, the bytes
before it are in the block already, but `writei` leaves its loop without `log_write` and does
not count them: a read of the file sees them, and the block in the cache is neither in the log
nor what is on disk. `Harmless` says when nothing of this is to be seen: the readable bytes end
where a block of the file begins, or those in the last block are there already.
-/

namespace Xv6.Fs

open Lib Function

/-- The metadata lies before the data. -/
structure Lays (lay : Superblock) (sb : Super) : Prop where
  bit : ∀ b, b < sb.size → BBLOCK b lay < sb.datastart
  inode : ∀ i, i < sb.ninodes → IBLOCK i lay < sb.datastart

/-- Reference `k` of the copy of inode `i` in the table. -/
def LSt.slot (t : LSt) (i k : Nat) : Nat := Fs.slot (t.fs.inode i).d t.fs.block k

/-- What is in the log when `tot` bytes at `off` have been written: blocks of metadata, and of
the inode its indirect block, blocks that it did not have, and those of the `tot` bytes. -/
structure Tracked (sb : Super) (i off tot : Nat) (s t : LSt) : Prop where
  mono : ∀ b, b ∈ s.log → b ∈ t.log
  only : ∀ b, b ∈ t.log → b ∈ s.log ∨ b < sb.datastart ∨ ∃ k, t.slot i k = b ∧
    (k = NDIRECT ∨ s.slot i k = 0 ∨ ∃ x, x < tot ∧ k = dataSlot ((off + x) / BSIZE))
  fresh : ∀ k, k ≠ NDIRECT → s.slot i k = 0 → t.slot i k ≠ 0 → t.slot i k ∈ t.log

section
variable {lay : Superblock} {sb : Super} {v w w' : Nat → Dinode} {s t u : LSt} {E : Stop → Prop}
  {i k m n off tot bn : Nat} {src : Nat → Option Byte}

/-! ## The log of a write -/

theorem Tracked.start : Tracked sb i off 0 s s :=
  ⟨fun _ => id, fun _ => .inl, fun _ _ h0 h1 => absurd h0 h1⟩

/-- More is logged, and no reference is lost. -/
theorem Tracked.grow (h : Tracked sb i off tot s t) (hle : tot ≤ m) (hmono : ∀ b ∈ t.log, b ∈ u.log)
    (hkeep : ∀ k, t.slot i k ≠ 0 → u.slot i k = t.slot i k)
    (honly : ∀ b ∈ u.log, b ∈ t.log ∨ b < sb.datastart ∨ ∃ k, u.slot i k = b ∧
      (k = NDIRECT ∨ s.slot i k = 0 ∨ ∃ x < m, k = dataSlot ((off + x) / BSIZE)))
    (hfresh : ∀ k ≠ NDIRECT, t.slot i k = 0 → u.slot i k ≠ 0 → u.slot i k ∈ u.log) :
    Tracked sb i off m s u := by
  refine ⟨fun b hb => hmono b (h.mono b hb), fun b hb => ?_, fun k hk h0 h1 => ?_⟩
  · rcases honly b hb with hold | hnew
    · rcases h.only b hold with hs | hmeta | ⟨k, hslot, hk⟩
      · exact .inl hs
      · exact .inr (.inl hmeta)
      · by_cases hz : b = 0
        · exact .inr (.inl (hz ▸ sb.datastart_pos))
        · refine .inr (.inr ⟨k, ?_, hk.imp_right (Or.imp_right ?_)⟩)
          · rw [hkeep k (by rwa [hslot]), hslot]
          · rintro ⟨x, hx, hkx⟩
            exact ⟨x, by omega, hkx⟩
    · exact .inr hnew
  · by_cases hmid : t.slot i k = 0
    · exact hfresh k hk hmid h1
    · rw [hkeep k hmid]
      exact hmono _ (h.fresh k hk h0 hmid)

theorem Tracked.bmap (hlay : Lays lay sb) (h : Tracked sb i off tot s t)
    (hkeep : ∀ k, s.slot i k ≠ 0 → t.slot i k = s.slot i k) (hinv : Inv sb w t.fs)
    (hlive : (t.fs.inode i).Live) (hlock : (t.fs.inode i).locked = true) (hbn : bn < MAXFILE) :
    wp E (Logged.bmap lay sb i bn) (fun r u => ∃ w', Inv sb w' u.fs ∧ Ext i w t.fs w' u.fs ∧
      u.slot i (dataSlot bn) = r ∧ Tracked sb i off tot s u ∧ Grown (fun _ => True) t u) t := by
  rcases hinv.copy i hlive with ⟨hd, hi⟩
  by_cases h0 : t.slot i (dataSlot bn) = 0
  swap
  · refine wp_mono (Logged.bmap_mapped rfl hbn h0) fun r u hu => ?_
    rcases hu with ⟨rfl, rfl⟩
    exact ⟨w, hinv, Ext.refl hd, rfl, h, Grown.of_eq rfl rfl⟩
  refine wp_mono (wp_and (Logged.bmap_erases.wp (bmap_spec (.inl hbn) hinv hlive hlock))
    (Logged.bmap_grown hbn)) fun r u hu => ?_
  rcases hu with ⟨⟨w', hinv', hext, hr, -, honly⟩, -, hgrown, hfresh⟩
  have hd' : (u.fs.inode i).d = w' i := by rw [hext.table, update_self]
  have hslot : ∀ k, u.slot i k = Fs.slot (w' i) u.fs.block k := fun k => by rw [LSt.slot, hd']
  have hslot' : ∀ k, t.slot i k = Fs.slot (w i) t.fs.block k := fun k => by rw [LSt.slot, hd]
  have hi' : (w' i).type ≠ .none := by rwa [hext.type_eq]
  -- a block of the inode, or none, has its bit before the data
  have hbit : ∀ k, BBLOCK (u.slot i k) lay < sb.datastart := by
    intro k
    refine hlay.bit _ ?_
    by_cases hz : u.slot i k = 0
    · rw [hz]
      exact lt_of_le_of_lt (Nat.zero_le _) sb.nblocks_lt
    · rw [hslot] at hz ⊢
      exact (hinv'.slot_data hi' hz).1.2
  have hind : Logged.indirect u i = u.slot i NDIRECT := (slot_low le_rfl).symm
  rw [← hslot] at hr
  have hempty : s.slot i (dataSlot bn) = 0 := by
    by_contra hne
    rw [hkeep _ hne] at h0
    exact hne h0
  refine ⟨w', hinv', hext, hr, h.grow le_rfl hgrown.mono (fun k hk => ?_)
    (fun b hb => ?_) fun k hk hz hnz => ?_,
    hgrown.weaken fun _ _ => trivial⟩
  · rw [hslot', hslot] at *
    exact hext.keep i k hi hk
  · rw [← hr, hind] at hgrown
    rcases hgrown.only b hb with hold | rfl | rfl | ⟨-, rfl | ⟨-, rfl⟩⟩
    · exact .inl hold
    · exact .inr (.inl (hbit _))
    · exact .inr (.inr ⟨_, rfl, .inr (.inl hempty)⟩)
    · exact .inr (.inr ⟨_, rfl, .inl rfl⟩)
    · exact .inr (.inl (hbit _))
  · have hwhich := honly k (by rwa [← hslot])
    rw [← hslot'] at hwhich
    rcases hwhich with hne | hN | rfl
    · exact absurd hz hne
    · exact absurd hN hk
    · rw [hr] at hnz ⊢
      exact hfresh h0 hnz

/-- A data block of the inode is written: no reference changes. -/
theorem InvOn.slot_fill (hinv : Inv sb w t.fs) (hlive : (t.fs.inode i).Live)
    (h0 : t.slot i (dataSlot bn) ≠ 0) (x : Block) (log : List Nat) :
    Inv sb w { t.fs with block := update t.fs.block (t.slot i (dataSlot bn)) x } ∧
    ∀ k, LSt.slot ⟨{ t.fs with
      block := update t.fs.block (t.slot i (dataSlot bn)) x }, log⟩ i k = t.slot i k := by
  rcases hinv.copy i hlive with ⟨hd, hi⟩
  unfold LSt.slot at h0 ⊢
  rw [hd] at h0 ⊢
  exact ⟨hinv.setData hi (dataSlot_ne bn) h0 x,
    fun k => hinv.slot_setData hi (dataSlot_ne bn) h0 x hi⟩

theorem writei_loop_tracked (hlay : Lays lay sb) (hmax : off + n ≤ MAXFILE * BSIZE) (fuel : Nat)
    (hfuel : n ≤ tot + fuel) (hinv : Inv sb w t.fs) (hlive : (t.fs.inode i).Live)
    (hlock : (t.fs.inode i).locked = true) (hkeep : ∀ k, s.slot i k ≠ 0 → t.slot i k = s.slot i k)
    (h : Tracked sb i off tot s t) (hdata : ∀ b ∉ t.log, t.fs.block b = s.fs.block b) :
    wp E (Logged.writei.loop lay sb i src n fuel tot (off + tot)) (fun r u =>
      Tracked sb i off r.1 s u ∧ ∀ b ∉ u.log, u.fs.block b = s.fs.block b ∨
        b = u.slot i (dataSlot ((off + r.1) / BSIZE))) t := by
  induction fuel generalizing tot w t with
  | zero => exact wp_ret ⟨h, fun b hb => .inl (hdata b hb)⟩
  | succ fuel ih =>
    rw [Logged.writei.loop]
    refine wp_if (fun _ => wp_ret ⟨h, fun b hb => .inl (hdata b hb)⟩) fun hlt => ?_
    have hbn := block_lt_max hmax (lt_of_not_ge hlt)
    refine wp_call (h.bmap hlay hkeep hinv hlive hlock hbn) fun r u hu => ?_
    rcases hu with ⟨w', hinv', hext, rfl, htracked, hgrown⟩
    rcases held_of_table hext.table hlive hlock with ⟨hlive', hlock'⟩
    have hdata' : ∀ b ∉ u.log, u.fs.block b = s.fs.block b := fun b hb =>
      (hgrown.data b hb).trans (hdata b fun ht => hb (hgrown.mono b ht))
    have hkeep' : ∀ k, s.slot i k ≠ 0 → u.slot i k = s.slot i k := by
      intro k hk
      have hold := hkeep k hk
      rw [← hold] at hk ⊢
      unfold LSt.slot at hk ⊢
      rw [(hinv.copy i hlive).1] at hk ⊢
      rw [hext.table, update_self]
      exact hext.keep i k (hinv.copy i hlive).2 hk
    refine wp_if (fun _ => wp_ret ⟨htracked, fun b hb => .inl (hdata' b hb)⟩) fun h0 => ?_
    rw [wp_bind, wp_quiet, wp_setBlock, wp_ite]
    have hfill := fun x log => hinv'.slot_fill hlive' h0 x log
    have hother : ∀ (x : Block) b, b ∉ u.log → b ≠ u.slot i (dataSlot ((off + tot) / BSIZE)) →
        update u.fs.block (u.slot i (dataSlot ((off + tot) / BSIZE))) x b =
          s.fs.block b := fun x b hb hne =>
      (update_of_ne hne _ _).trans (hdata' b hb)
    refine ⟨fun _ => wp_ret ⟨htracked.grow le_rfl (fun _ => id)
      (fun k _ => (hfill _ _).2 k) (fun _ => .inl) fun k _ hz hnz => ?_, fun b hb => ?_⟩,
      fun hread => ?_⟩
    · rw [(hfill _ _).2] at hnz
      exact absurd hz hnz
    · -- the block is not in the log
      by_cases hne : b = u.slot i (dataSlot ((off + tot) / BSIZE))
      · exact .inr (by rw [(hfill _ _).2, hne])
      · exact .inl (hother _ b hb hne)
    have hlogged := Grown.logWrite (X := fun b => b = u.slot i (dataSlot ((off + tot) / BSIZE)))
      (s := u) (t := ⟨{ u.fs with
        block := update u.fs.block (u.slot i (dataSlot ((off + tot) / BSIZE)))
          (Block.fill (u.fs.block (u.slot i (dataSlot ((off + tot) / BSIZE))))
            ((off + tot) % BSIZE) tot (min (n - tot) (BSIZE - (off + tot) % BSIZE)) src) },
        if u.slot i (dataSlot ((off + tot) / BSIZE)) ∈ u.log then u.log
        else u.log ++ [u.slot i (dataSlot ((off + tot) / BSIZE))]⟩) rfl
      (fun b hb => update_of_ne hb _ _) rfl
    have hpos := pieceLen_pos off (lt_of_not_ge hlt)
    rw [wp_bind, wp_logWrite, Nat.add_assoc]
    refine ih (by omega) (hfill _ []).1 hlive' hlock' (fun k hk => ?_)
      (htracked.grow (by omega) hlogged.mono (fun k _ => (hfill _ _).2 k) (fun b hb => ?_)
        fun k _ hz hnz => ?_) fun b hb => ?_
    · rw [(hfill _ _).2, hkeep' k hk]
    · rcases hlogged.only b hb with hold | rfl
      · exact .inl hold
      · exact .inr (.inr ⟨_, (hfill _ _).2 _, .inr (.inr ⟨tot, by omega, rfl⟩)⟩)
    · rw [(hfill _ _).2] at hnz
      exact absurd hz hnz
    · rw [hlogged.data b hb]
      exact hdata' b fun hu => hb (hlogged.mono b hu)

theorem writei_tracked (hlay : Lays lay sb) (hinv : Inv sb v s.fs) (hlive : (s.fs.inode i).Live)
    (hlock : (s.fs.inode i).locked = true) (hn : n < 2 ^ 32) :
    wp E (Logged.writei lay sb i src off n) (fun r t => ∀ m, r = some m →
      Tracked sb i off m s t ∧ ∀ b ∉ t.log, t.fs.block b = s.fs.block b ∨
        b = t.slot i (dataSlot ((off + m) / BSIZE))) s := by
  have hmax : MAXFILE * BSIZE < 2 ^ 32 := by decide
  rw [Logged.writei, wp_bind, wp_quiet, wp_get]
  refine wp_if (fun _ => wp_ret nofun) fun hok => ?_
  refine wp_if (fun _ => wp_ret nofun) fun hfit => ?_
  have hend : off + n ≤ MAXFILE * BSIZE := by
    unfold u32 at hok hfit
    omega
  refine wp_call (writei_loop_tracked hlay hend n (by omega) hinv hlive hlock (fun _ _ => rfl)
    Tracked.start fun _ _ => rfl) fun r u hu => ?_
  rcases hu with ⟨htracked, hdata⟩
  rw [wp_bind, wp_quiet, wp_setCopy, wp_bind, Logged.iupdate, wp_bind, wp_quiet, wp_iupdate,
    wp_logWrite, wp_pure]
  rintro m ⟨rfl⟩
  let fs : St := { u.fs with
    inode := update u.fs.inode i { u.fs.inode i with
      d := { (u.fs.inode i).d with
        size := if (u.fs.inode i).d.size < r.2 then r.2 else (u.fs.inode i).d.size } } }
  -- the size is no reference
  have hslot : ∀ log dinode k, LSt.slot ⟨{ fs with dinode := dinode }, log⟩ i k = u.slot i k := by
    intro log dinode k
    unfold LSt.slot
    simp only [fs, update_self]
    exact slot_congr (fun _ _ => rfl) (fun _ => rfl) k
  have hblock := hlay.inode i (hinv.range i (hinv.copy i hlive).2).2
  have hlogged := Grown.logWrite (X := fun b => b = IBLOCK i lay) rfl (s := u)
    (t := ⟨{ fs with dinode := update u.fs.dinode i (fs.inode i).d },
      if IBLOCK i lay ∈ u.log then u.log else u.log ++ [IBLOCK i lay]⟩) (fun _ _ => rfl) rfl
  refine ⟨htracked.grow le_rfl hlogged.mono (fun k _ => hslot _ _ k) (fun b hb => ?_)
    fun k _ hz hnz => ?_, fun b hb => ?_⟩
  · rcases hlogged.only b hb with hold | rfl
    · exact .inl hold
    · exact .inr (.inl hblock)
  · rw [hslot] at hnz
    exact absurd hz hnz
  · rw [hslot]
    exact hdata b fun hu => hb (hlogged.mono b hu)

/-! ## Where the source ends -/

/-- What `writei` returns when it stops at the first byte that cannot be read: the bytes of the
blocks before. -/
def faultAt (src : Nat → Option Byte) (off n : Nat) : Nat :=
  (off + readable src 0 n) / BSIZE * BSIZE - off

/-- Byte `k` of the source can be read, and goes to the block in which the copy fails. -/
def Torn (src : Nat → Option Byte) (off n k : Nat) : Prop :=
  k < readable src 0 n ∧ (off + k) / BSIZE = (off + readable src 0 n) / BSIZE

theorem readable_succ : readable src tot (m + 1) =
    if readable src tot m = m ∧ (src (tot + m)).isSome then m + 1 else readable src tot m := by
  unfold readable
  rw [List.range_succ, List.takeWhile_append, List.length_range]
  by_cases hall : ((List.range m).takeWhile fun k => (src (tot + k)).isSome).length = m
  · by_cases hlast : (src (tot + m)).isSome
    · simp [hall, hlast]
    · simp [hall, hlast]
  · simp [hall]

/-- The byte after those that can be read. -/
theorem src_readable (h : readable src tot m < m) : src (tot + readable src tot m) = none := by
  induction m with
  | zero => exact absurd h (Nat.not_lt_zero _)
  | succ m ih =>
    rw [readable_succ] at h ⊢
    split at h
    · exact absurd h (lt_irrefl _)
    · next hno =>
      rw [if_neg hno]
      by_cases hlt : readable src tot m < m
      · exact ih hlt
      · have heq : readable src tot m = m := by omega
        rw [heq]
        simpa [heq] using hno

variable {e : Nat}

theorem readable_eq (hsome : ∀ k < e, (src k).isSome) (hnone : src e = none) (he : e < n) :
    readable src 0 n = e := by
  rcases Nat.lt_trichotomy (readable src 0 n) e with hlt | heq | hgt
  · have hn := src_readable (show readable src 0 n < n by omega)
    have hs := hsome _ hlt
    rw [Nat.zero_add] at hn
    rw [hn] at hs
    cases hs
  · exact heq
  · have hs := isSome_of_lt_readable hgt
    rw [Nat.zero_add, hnone] at hs
    cases hs

/-! ## What is to be seen -/

/-- A write that reports `tot` bytes has changed nothing else: reads of the rest of the file
return what they did, and a block that is not in the log is in the cache as it is on disk. -/
structure Invisible (sb : Super) (disk : Nat → Block) (i off tot : Nat) (s t : LSt) : Prop where
  reads : ∀ p m, p + m ≤ (s.fs.inode i).d.size → p + m ≤ off ∨ off + tot ≤ p →
    ∃ bytes, readi sb i (fun _ => true) p m s.fs = .ok (some bytes, s.fs) ∧
      readi sb i (fun _ => true) p m t.fs = .ok (some bytes, t.fs)
  cache : ∀ b, b ∉ t.log → t.fs.block b = disk b

/-- The bytes that a failed copy leaves behind are those that were there, in the file and, if
the block is not in the log already, also behind its end. -/
def Harmless (i off n : Nat) (src : Nat → Option Byte) (s : LSt) : Prop :=
  ∀ k, Torn src off n k → s.slot i (dataSlot ((off + k) / BSIZE)) ≠ 0 →
    off + k < (s.fs.inode i).d.size ∨ s.slot i (dataSlot ((off + k) / BSIZE)) ∉ s.log →
    src k = some (content (s.fs.inode i).d s.fs.block (off + k))

theorem block_ext {x y : Block} (h : ∀ j < BSIZE, x.byte j = y.byte j) : x = y := by
  funext j
  have hj := h j.val j.isLt
  unfold Block.byte at hj
  rwa [dif_pos j.isLt, dif_pos j.isLt] at hj

/-- A read of bytes that are there. -/
theorem readi_contents {fs : St} {p : Nat} (h : Inv sb v fs) (hlive : (fs.inode i).Live)
    (hp : p + m ≤ (v i).size) :
    readi sb i (fun _ => true) p m fs = .ok (some (contents (v i) fs.block p m), fs) := by
  have hsize := (h.full i (h.copy i hlive).2).size_le
  have hmax : MAXFILE * BSIZE < 2 ^ 32 := by decide
  rcases wp_returns (readi_spec (E := fun _ => False) h trivial hlive
    (by omega : m < 2 ^ 32)) with ⟨r, t, hrun, rfl, hr⟩
  rw [hrun, hr fun _ _ => rfl, readLen, if_pos (by omega), Nat.min_eq_left (by omega)]

/-- The first byte that cannot be read is in the block where the write has stopped. -/
theorem fault_place {r : Nat} (hstart : tot = 0 ∨ (off + tot) % BSIZE = 0)
    (hr : r < pieceLen off n tot) : (off + (tot + r)) / BSIZE = (off + tot) / BSIZE ∧
      (off + (tot + r)) / BSIZE * BSIZE - off = tot := by
  unfold pieceLen BSIZE at *
  omega

/-- The write itself has not logged the block in which it stops, unless it is new. -/
theorem Tracked.not_logged (h : Tracked sb i off tot s t) (hinv : Inv sb w t.fs)
    (hlive : (t.fs.inode i).Live) (hstart : tot = 0 ∨ (off + tot) % BSIZE = 0)
    (hkeep : t.slot i (dataSlot ((off + tot) / BSIZE)) = s.slot i (dataSlot ((off + tot) / BSIZE)))
    (h0 : s.slot i (dataSlot ((off + tot) / BSIZE)) ≠ 0)
    (hlog : s.slot i (dataSlot ((off + tot) / BSIZE)) ∉ s.log) :
    s.slot i (dataSlot ((off + tot) / BSIZE)) ∉ t.log := by
  rcases hinv.copy i hlive with ⟨hd, hi⟩
  have hslot : ∀ k, t.slot i k = Fs.slot (w i) t.fs.block k := fun k => by rw [LSt.slot, hd]
  intro hmem
  rcases h.only _ hmem with hs | hmeta | ⟨k, hk, hwhy⟩
  · exact hlog hs
  · have hge := (hinv.slot_data (k := dataSlot ((off + tot) / BSIZE)) hi (by
      rwa [← hslot, hkeep])).1.1
    rw [← hslot, hkeep] at hge
    omega
  -- it is the reference of the block itself
  rw [← hkeep, hslot, hslot] at hk
  rw [← hkeep, hslot] at h0
  obtain ⟨-, rfl⟩ := hinv.slot_inj hi hi h0 hk.symm
  rcases hwhy with hN | hz | ⟨x, hx, hsame⟩
  · exact dataSlot_ne _ hN
  · rw [← hslot, hkeep] at h0
    exact h0 hz
  · have hdiv := dataSlot_inj hsame
    unfold BSIZE at hstart hdiv
    omega

/-- A write that has ended because its source cannot be read: `tot` bytes are reported and `e`
bytes are in the blocks. -/
structure Stopped (sb : Super) (i off n tot e : Nat) (src : Nat → Option Byte) (v : Nat → Dinode)
    (s : LSt) (w : Nat → Dinode) (t : LSt) : Prop where
  inv : Inv sb v s.fs
  live : (s.fs.inode i).Live
  inv' : Inv sb w t.fs
  live' : (t.fs.inode i).Live
  size : (v i).size ≤ (w i).size
  keep : ∀ k, s.slot i k ≠ 0 → t.slot i k = s.slot i k
  inside : ∀ k, k < e → some (content (w i) t.fs.block (off + k)) = src k
  outside : ∀ p, s.slot i (dataSlot (p / BSIZE)) ≠ 0 → p < off ∨ off + e ≤ p →
    content (w i) t.fs.block p = content (v i) s.fs.block p
  tracked : Tracked sb i off tot s t
  data : ∀ b, b ∉ t.log → t.fs.block b = s.fs.block b ∨
    b = t.slot i (dataSlot ((off + tot) / BSIZE))
  block : t.slot i (dataSlot ((off + tot) / BSIZE)) ≠ 0
  start : tot = 0 ∨ (off + tot) % BSIZE = 0
  read : readable src 0 n = e
  le : tot ≤ e
  same : (off + e) / BSIZE = (off + tot) / BSIZE

variable (h : Stopped sb i off n tot e src v s w t)
include h

theorem Stopped.torn : Torn src off n k ↔ tot ≤ k ∧ k < e := by
  have hstart := h.start
  have hsame := h.same
  unfold Torn
  rw [h.read, hsame]
  unfold BSIZE at *
  omega

theorem Stopped.harmless {disk : Nat → Block} (hcache : ∀ b ∉ s.log, s.fs.block b = disk b)
    (hquiet : Invisible sb disk i off tot s t) :
    Harmless i off n src s := by
  intro k hk h0 hseen
  rcases h.torn.mp hk with ⟨hge, hlt⟩
  have hd := (h.inv.copy i h.live).1
  have hsize := h.size
  have hsame : (off + k) / BSIZE = (off + tot) / BSIZE := by rw [← h.same, ← h.read, hk.2]
  rw [← h.inside k hlt, hd]
  refine congrArg some ?_
  rcases hseen with hin | hout
  · -- a read of this byte
    rw [hd] at hin
    rcases hquiet.reads (off + k) 1 (by rw [hd]; omega) (.inr (by omega)) with
      ⟨bytes, hbefore, hafter⟩
    rw [readi_contents h.inv h.live (by omega)] at hbefore
    rw [readi_contents h.inv' h.live' (by omega)] at hafter
    simp only [Except.ok.injEq, Prod.mk.injEq, and_true, Option.some.injEq] at hbefore hafter
    simpa [contents] using hafter.trans hbefore.symm
  · -- the block is not in the log
    rw [hsame] at h0 hout
    have hkeep := h.keep _ h0
    have hnot := h.tracked.not_logged h.inv' h.live' h.start hkeep h0 hout
    have hdisk := (hquiet.cache _ hnot).trans (hcache _ hout).symm
    unfold LSt.slot at hkeep hdisk
    rw [hd, (h.inv'.copy i h.live').1] at hkeep
    rw [hd] at hdisk
    unfold content
    rw [hsame, hkeep, hdisk]

theorem Stopped.invisible {disk : Nat → Block} (hcache : ∀ b ∉ s.log, s.fs.block b = disk b)
    (hharm : Harmless i off n src s) :
    Invisible sb disk i off tot s t := by
  rcases h.inv.copy i h.live with ⟨hd, hi⟩
  have hd' := (h.inv'.copy i h.live').1
  have hslot : ∀ k, s.slot i k = Fs.slot (v i) s.fs.block k := fun k => by rw [LSt.slot, hd]
  have hslot' : ∀ k, t.slot i k = Fs.slot (w i) t.fs.block k := fun k => by rw [LSt.slot, hd']
  have hbytes : ∀ p, s.slot i (dataSlot (p / BSIZE)) ≠ 0 →
      p < (v i).size ∨ s.slot i (dataSlot (p / BSIZE)) ∉ s.log → p < off ∨ off + tot ≤ p →
      content (w i) t.fs.block p = content (v i) s.fs.block p := by
    intro p h0 hseen hout
    by_cases hfar : p < off ∨ off + e ≤ p
    · exact h.outside p h0 hfar
    · obtain ⟨k, rfl⟩ : ∃ k, p = off + k := ⟨p - off, by omega⟩
      have hsrc := hharm k (h.torn.mpr (by omega)) h0 (by rwa [hd])
      rw [← h.inside k (by omega), hd] at hsrc
      exact Option.some.inj hsrc
  refine ⟨fun p m hp hout => ?_, fun b hb => ?_⟩
  · rw [hd] at hp
    have hsame : contents (w i) t.fs.block p m = contents (v i) s.fs.block p m := by
      refine contents_congr fun k hk => hbytes _ ?_ (.inl (by omega)) (by omega)
      rw [hslot]
      exact ((h.inv.full i hi).mapped (by omega)).2
    refine ⟨_, readi_contents h.inv h.live hp, ?_⟩
    rw [readi_contents h.inv' h.live' (le_trans hp h.size), hsame]
  · have hold : b ∉ s.log := fun hs => hb (h.tracked.mono b hs)
    rcases h.data b hb with hsame | rfl
    · rw [hsame, hcache b hold]
    -- the block in which the copy has failed was there before, or it is in the log
    have h0 : s.slot i (dataSlot ((off + tot) / BSIZE)) ≠ 0 := fun hz =>
      hb (h.tracked.fresh _ (dataSlot_ne _) hz h.block)
    rw [h.keep _ h0] at hold ⊢
    rw [← hcache _ hold]
    refine block_ext fun j hj => ?_
    have hstart := h.start
    have hpos : ((off + tot) / BSIZE * BSIZE + j) / BSIZE = (off + tot) / BSIZE ∧
        ((off + tot) / BSIZE * BSIZE + j) % BSIZE = j := by
      unfold BSIZE at *
      omega
    have hbyte := hbytes ((off + tot) / BSIZE * BSIZE + j) (by rwa [hpos.1])
      (.inr (by rwa [hpos.1])) (by unfold BSIZE at *; omega)
    unfold content at hbyte
    rwa [hpos.1, hpos.2, ← hslot, ← hslot', h.keep _ h0] at hbyte

end

/-- A write that ends because its source cannot be read, as `bmap` has found a block for the next
byte: it reports the bytes of the blocks before the failed one, and nothing else is to be seen
of it just when the bytes in the failed one are `Harmless`. -/
theorem writei_fault (lay : Superblock) (sb : Super) (disk : Nat → Block) (v : Nat → Dinode)
    (s t : LSt) (i off n tot : Nat) (src : Nat → Option Byte) (hlay : Lays lay sb)
    (hinv : Inv sb v s.fs) (hlive : (s.fs.inode i).Live) (hlock : (s.fs.inode i).locked = true)
    (hcache : ∀ b, b ∉ s.log → s.fs.block b = disk b) (hn : n < 2 ^ 32)
    (hrun : Logged.writei lay sb i src off n s = .ok (some tot, t)) (htot : tot < n)
    (hblock : t.slot i (dataSlot ((off + tot) / BSIZE)) ≠ 0) :
    tot = faultAt src off n ∧ (Invisible sb disk i off tot s t ↔ Harmless i off n src s) := by
  have hrun' : writei sb i src off n s.fs = .ok (some tot, t.fs) := by
    rw [Logged.writei_erases s, hrun]
    rfl
  rcases (wp_of_eq (E := fun _ => False) hrun').mp (writei_spec hinv trivial hlive hlock hn) with
    ⟨hbad, -⟩ | ⟨m, e, w, hm, -, hoff, -, hw⟩
  · cases hbad
  cases hm
  rcases (wp_of_eq (E := fun _ => False) hrun).mp (writei_tracked hlay hinv hlive hlock hn) tot
    rfl with ⟨htracked, hdata⟩
  rcases hinv.copy i hlive with ⟨hd, hi⟩
  have hentry : t.fs.inode i = { s.fs.inode i with d := w i } := by
    rw [hw.table, update_self]
  have hlive' := (hw.locked hlive hlock).live
  have hslot : ∀ k, s.slot i k = slot (v i) s.fs.block k := fun k => by rw [LSt.slot, hd]
  have hslot' : ∀ k, t.slot i k = slot (w i) t.fs.block k := fun k => by rw [LSt.slot, hentry]
  cases hw.ended with
  | done hm he => omega
  | full hm he hnone hfull =>
    rw [hslot'] at hblock
    exact absurd hnone hblock
  | fault hm hstart hread he =>
    rcases fault_place hstart hread with ⟨hdiv, hplace⟩
    rw [← he] at hdiv hplace
    have hread' : readable src 0 n = e := by
      refine readable_eq (fun k hk => ?_) (by rw [he, src_readable hread]) ?_
      · rw [← hw.inside k hk]
        rfl
      · have hle := Nat.min_le_left (n - tot) (BSIZE - (off + tot) % BSIZE)
        unfold pieceLen at *
        omega
    have hstopped : Stopped sb i off n tot e src v s w t := {
      inv := hinv, live := hlive, inv' := hw.inv, live' := hlive'
      size := by
        rw [hw.fields]
        exact Nat.le_max_left _ _
      keep := fun k hk => by
        rw [hslot] at hk ⊢
        rw [hslot']
        exact hw.keep i k hi hk
      inside := hw.inside
      outside := fun p h0 hp => hw.outside i p hi (by rwa [← hslot]) fun _ => hp
      tracked := htracked, data := hdata, block := hblock, start := hstart, read := hread'
      le := by omega
      same := hdiv }
    exact ⟨by rw [faultAt, hread', hplace], hstopped.harmless hcache, hstopped.invisible hcache⟩

/-! ## A buffer at the end of the memory -/

/-- Where things are on a disk with `newSuper`. -/
def newLayout : Superblock where
  magic := FSMAGIC
  size := 7
  nblocks := 4
  ninodes := 2
  nlog := 0
  logstart := 1
  inodestart := 1
  bmapstart := 2

theorem newLayout_lays : Lays newLayout newSuper := by
  refine ⟨fun b hb => ?_, fun i hi => ?_⟩
  · have hdiv : b / BPB = 0 := Nat.div_eq_of_lt (lt_of_lt_of_le hb (by decide))
    rw [BBLOCK, hdiv]
    decide
  · have hdiv : i / IPB = 0 := Nat.div_eq_of_lt (lt_of_lt_of_le hi (by decide))
    rw [IBLOCK, hdiv]
    decide

/-- Eight bytes, in block 3. -/
def smallFile : Dinode :=
  { newFile with
    size := 8
    addrs := fun k => if k = 0 then 3 else 0 }

/-- A disk with this file, inode 1, which is locked and holds zeros. -/
def smallDisk : St :=
  .small (fun b => b < 4) (fun _ _ => 0) [Dinode.zero, smallFile]
    [absent, (1, true, true)]

/-- Four bytes `x`, the last ones of a page after which nothing is mapped. -/
def pageEnd (x : Byte) (k : Nat) : Option Byte := if 4092 + k < 4096 then some x else none

theorem smallDisk_inv : Inv newSuper smallDisk.dinode smallDisk :=
  St.small_inv (by decide +kernel) (by decide) (by decide)

/-- Four of eight bytes can be read: none is reported, but a read of the file sees them, and
block 3 is neither in the log nor as on disk. -/
theorem not_invisible_pageEnd : ∃ t,
    Logged.writei newLayout newSuper 1 (pageEnd 7) 0 8 ⟨smallDisk, []⟩ = .ok (some 0, t) ∧
      (∃ u, readi newSuper 1 (fun _ => true) 0 4 smallDisk = .ok (some [0, 0, 0, 0], u)) ∧
      (∃ u, readi newSuper 1 (fun _ => true) 0 4 t.fs = .ok (some [7, 7, 7, 7], u)) ∧
      3 ∉ t.log ∧ t.fs.block 3 ≠ smallDisk.block 3 := by
  have hrun : (Logged.writei newLayout newSuper 1 (pageEnd 7) 0 8 ⟨smallDisk, []⟩).toOption.any
      (fun x => decide (x.1 = some 0 ∧ 3 ∉ x.2.log ∧ (x.2.fs.block 3).byte 0 = 7) &&
        (readi newSuper 1 (fun _ => true) 0 4 x.2.fs).toOption.any
          fun y => decide (y.1 = some [7, 7, 7, 7])) = true := by decide +kernel
  have hbefore : (readi newSuper 1 (fun _ => true) 0 4 smallDisk).toOption.any
      (fun y => decide (y.1 = some [0, 0, 0, 0])) = true := by decide +kernel
  rcases exists_run hrun with ⟨⟨r, t⟩, hr, hx⟩
  rw [Bool.and_eq_true, decide_eq_true_eq] at hx
  rcases hx with ⟨⟨rfl, hlog, hbyte⟩, hread⟩
  rcases exists_run hbefore with ⟨⟨b, u⟩, hb, hbytes⟩
  rcases exists_run hread with ⟨⟨b', u'⟩, hb', hbytes'⟩
  rw [decide_eq_true_eq] at hbytes hbytes'
  subst hbytes hbytes'
  refine ⟨t, hr, ⟨u, hb⟩, ⟨u', hb'⟩, hlog, fun heq => ?_⟩
  rw [heq] at hbyte
  exact absurd hbyte (by decide)

/-- Zeros in the place of zeros are not seen. -/
theorem writei_fault_pageEnd : ∃ t,
    Logged.writei newLayout newSuper 1 (pageEnd 0) 0 8 ⟨smallDisk, []⟩ = .ok (some 0, t) ∧
      Invisible newSuper smallDisk.block 1 0 0 ⟨smallDisk, []⟩ t := by
  have hrun : (Logged.writei newLayout newSuper 1 (pageEnd 0) 0 8 ⟨smallDisk, []⟩).toOption.any
      (fun x => decide (x.1 = some 0 ∧ x.2.slot 1 (dataSlot ((0 + 0) / BSIZE)) ≠ 0)) = true := by
    decide +kernel
  rcases exists_run hrun with ⟨⟨r, t⟩, hr, hx⟩
  rw [decide_eq_true_eq] at hx
  rcases hx with ⟨rfl, hblock⟩
  refine ⟨t, hr, (writei_fault newLayout newSuper smallDisk.block smallDisk.dinode _ t 1 0 8 0
    (pageEnd 0) newLayout_lays smallDisk_inv ⟨by decide, by decide⟩ (by decide) (fun _ _ => rfl)
    (by decide) hr (by decide) hblock).2.mpr fun k hk _ _ => ?_⟩
  have hsome := isSome_of_lt_readable hk.1
  rw [Nat.zero_add] at hsome ⊢
  unfold pageEnd at hsome ⊢
  split at hsome
  · next hlt =>
    rw [if_pos hlt]
    exact congrArg some (zero_byte _).symm
  · cases hsome

end Xv6.Fs
