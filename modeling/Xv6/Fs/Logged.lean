import Mathlib.Data.List.Nodup
import Xv6.Fs.Content
import Xv6.Fs.Layout
import Xv6.Lib.Erase

/-!
# Xv6.Fs.Logged — writei and what it hands to the log

The functions below `writei` once more, with the calls of `log_write` in their places. The log
is the list of the blocks that the running transaction has logged and thereby pinned in the
buffer cache. To the file system they do what the functions of `Fs.Basic` do
(`Logged.writei_erases`). A block that `writei` changes is in the log, but for one case: a
source that can be read only in part leaves a changed block behind that is not logged.
-/

namespace Xv6.Fs

open Lib Function List

/-- The file system and the blocks in the log of the transaction. -/
structure LSt where
  fs : St
  log : List Nat

abbrev L := StateT LSt (Except Stop)

/-- What does not write to a block. -/
def quiet {α : Type} (m : F α) : L α := zoom LSt.fs (fun t s => { t with fs := s }) m

/-- `log_write`: a block is in the log once. -/
def logWrite (b : Nat) : L Unit :=
  modify fun t => { t with log := if b ∈ t.log then t.log else t.log ++ [b] }

namespace Logged

def bzero (b : Nat) : L Unit := do
  quiet (setBlock b fun _ _ => 0)
  logWrite b

def balloc (lay : Superblock) (sb : Super) : L Nat := do
  let s ← quiet get
  match (List.range sb.size).find? fun b => !s.bitmap b with
  | none => return 0
  | some b =>
    quiet (setBit b true)
    logWrite (BBLOCK b lay)
    bzero b
    return b

def iupdate (lay : Superblock) (i : Nat) : L Unit := do
  quiet (Fs.iupdate i)
  logWrite (IBLOCK i lay)

def bmapAddr (lay : Superblock) (sb : Super) (i k : Nat) : L Nat := do
  let s ← quiet get
  if (s.inode i).d.addrs k = 0 then
    let addr ← balloc lay sb
    if addr = 0 then return 0
    else
      quiet (setCopy i fun d => { d with addrs := update d.addrs k addr })
      return addr
  else return (s.inode i).d.addrs k

def bmap (lay : Superblock) (sb : Super) (i bn : Nat) : L Nat := do
  if bn < NDIRECT then bmapAddr lay sb i bn
  else if bn - NDIRECT < NINDIRECT then
    let ind ← bmapAddr lay sb i NDIRECT
    if ind = 0 then return 0
    else
      let s ← quiet get
      if (s.block ind).getWord (bn - NDIRECT) = 0 then
        let addr ← balloc lay sb
        if addr = 0 then return 0
        else
          quiet (setBlock ind fun a => a.setWord (bn - NDIRECT) (BitVec.ofNat 32 addr))
          logWrite ind
          return addr
      else return ((s.block ind).getWord (bn - NDIRECT)).toNat
  else throw .bmapRange

def writei.loop (lay : Superblock) (sb : Super) (i : Nat) (src : Nat → Option Byte) (n : Nat) :
    Nat → Nat → Nat → L (Nat × Nat)
  | 0, tot, off => return (tot, off)
  | fuel + 1, tot, off =>
    if n ≤ tot then return (tot, off)
    else do
      let addr ← bmap lay sb i (off / BSIZE)
      if addr = 0 then return (tot, off)
      else
        let m := min (n - tot) (BSIZE - off % BSIZE)
        quiet (setBlock addr fun b => Block.fill b (off % BSIZE) tot m src)
        if readable src tot m < m then return (tot, off)
        else
          logWrite addr
          writei.loop lay sb i src n fuel (tot + m) (off + m)

def writei (lay : Superblock) (sb : Super) (i : Nat) (src : Nat → Option Byte) (off n : Nat) :
    L (Option Nat) := do
  let s ← quiet get
  if (s.inode i).d.size < off ∨ u32 (off + n) < off then return none
  else if MAXFILE * BSIZE < u32 (off + n) then return none
  else
    let r ← writei.loop lay sb i src n n 0 off
    quiet (setCopy i fun d => { d with size := if d.size < r.2 then r.2 else d.size })
    iupdate lay i
    return some r.1

/-! ## Without the log -/

section
variable {lay : Superblock} {sb : Super} {i k bn n : Nat} {src : Nat → Option Byte}

theorem quiet_erases {α : Type} (m : F α) : Erases LSt.fs (quiet m) m :=
  Erases.zoom (fun _ _ => rfl) m

theorem logWrite_erases (b : Nat) : Erases LSt.fs (logWrite b) (pure ()) := fun _ => rfl

theorem bzero_erases (b : Nat) : Erases LSt.fs (bzero b) (Fs.bzero b) := by
  intro t
  rfl

theorem balloc_erases : Erases LSt.fs (balloc lay sb) (Fs.balloc sb) := by
  refine (quiet_erases get).bind fun s => ?_
  cases (List.range sb.size).find? fun b => !s.bitmap b with
  | none => exact Erases.pure 0
  | some b =>
    refine (quiet_erases _).bind fun _ => Erases.skip (logWrite_erases _) ?_
    exact (bzero_erases b).bind fun _ => Erases.pure b

theorem iupdate_erases : Erases LSt.fs (iupdate lay i) (Fs.iupdate i) := by
  intro t
  rfl

theorem bmapAddr_erases : Erases LSt.fs (bmapAddr lay sb i k) (Fs.bmapAddr sb i k) := by
  refine (quiet_erases get).bind fun s => Erases.ite ?_ (Erases.pure _)
  refine balloc_erases.bind fun addr => Erases.ite (Erases.pure _) ?_
  exact (quiet_erases _).bind fun _ => Erases.pure _

theorem bmap_erases : Erases LSt.fs (bmap lay sb i bn) (Fs.bmap sb i bn) := by
  refine Erases.ite bmapAddr_erases (Erases.ite ?_ (Erases.throw _))
  refine bmapAddr_erases.bind fun ind => Erases.ite (Erases.pure _) ?_
  refine (quiet_erases get).bind fun s => Erases.ite ?_ (Erases.pure _)
  refine balloc_erases.bind fun addr => Erases.ite (Erases.pure _) ?_
  exact (quiet_erases _).bind fun _ => Erases.skip (logWrite_erases _) (Erases.pure _)

theorem writei_loop_erases (fuel : Nat) : ∀ tot off,
    Erases LSt.fs (writei.loop lay sb i src n fuel tot off)
      (Fs.writei.loop sb i src n fuel tot off) := by
  induction fuel with
  | zero => exact fun tot off => Erases.pure _
  | succ fuel ih =>
    intro tot off
    refine Erases.ite (Erases.pure _) ?_
    refine bmap_erases.bind fun addr => Erases.ite (Erases.pure _) ?_
    refine (quiet_erases _).bind fun _ => Erases.ite (Erases.pure _) ?_
    exact Erases.skip (logWrite_erases _) (ih _ _)

/-- Without the log, `writei` is that of the file system. -/
theorem writei_erases {off : Nat} :
    Erases LSt.fs (writei lay sb i src off n) (Fs.writei sb i src off n) := by
  refine (quiet_erases get).bind fun s => Erases.ite (Erases.pure _) ?_
  refine Erases.ite (Erases.pure _) ((writei_loop_erases n 0 off).bind fun r => ?_)
  exact (quiet_erases _).bind fun _ => iupdate_erases.bind fun _ => Erases.pure _

end

end Logged

/-! ## What is logged -/

/-- From `s` to `t` only the blocks `X` have been logged, and no other block has changed. -/
structure Grown (X : Nat → Prop) (s t : LSt) : Prop where
  nodup : s.log.Nodup → t.log.Nodup
  mono : ∀ b, b ∈ s.log → b ∈ t.log
  only : ∀ b, b ∈ t.log → b ∈ s.log ∨ X b
  data : ∀ b, b ∉ t.log → t.fs.block b = s.fs.block b

section
variable {X Y Z : Nat → Prop} {s t u : LSt} {E : Stop → Prop} {b : Nat}

theorem Grown.of_eq (hlog : t.log = s.log) (hblock : t.fs.block = s.fs.block) : Grown X s t := by
  refine ⟨fun h => by rwa [hlog], fun b hb => by rwa [hlog], fun b hb => .inl ?_,
    fun b _ => by rw [hblock]⟩
  rwa [hlog] at hb

theorem Grown.trans (h₁ : Grown X s t) (h₂ : Grown Y t u) (hX : ∀ b, X b → Z b)
    (hY : ∀ b, Y b → Z b) : Grown Z s u := by
  refine ⟨fun h => h₂.nodup (h₁.nodup h), fun b hb => h₂.mono b (h₁.mono b hb), fun b hb => ?_,
    fun b hb => ?_⟩
  · rcases h₂.only b hb with ht | hy
    · exact (h₁.only b ht).imp_right (hX b)
    · exact .inr (hY b hy)
  · rw [h₂.data b hb, h₁.data b fun ht => hb (h₂.mono b ht)]

theorem Grown.weaken (h : Grown X s t) (hX : ∀ b, X b → Z b) : Grown Z s t :=
  h.trans (Grown.of_eq (X := X) rfl rfl) hX hX

/-- A block is changed, if at all, and then logged. -/
theorem Grown.logWrite (hX : X b) (hdata : ∀ b' ≠ b, t.fs.block b' = s.fs.block b')
    (hlog : t.log = if b ∈ s.log then s.log else s.log ++ [b]) : Grown X s t := by
  have hmem : ∀ b', b' ∈ t.log ↔ b' ∈ s.log ∨ b' = b := by
    intro b'
    rw [hlog]
    split
    · next hb =>
      refine ⟨.inl, fun h => h.elim id ?_⟩
      rintro rfl
      exact hb
    · rw [mem_append, mem_singleton]
  refine ⟨fun h => ?_, fun b' hb' => (hmem b').mpr (.inl hb'), fun b' hb' => ?_, fun b' hb' => ?_⟩
  · rw [hlog]
    split
    · exact h
    · next hb =>
      rw [nodup_append]
      refine ⟨h, nodup_singleton b, fun x hx y hy he => hb ?_⟩
      rw [mem_singleton] at hy
      rwa [← hy, ← he]
  · rcases (hmem b').mp hb' with hs | rfl
    · exact .inl hs
    · exact .inr hX
  · exact hdata b' fun he => hb' ((hmem b').mpr (.inr he))

theorem mem_logged (b : Nat) (log : List Nat) :
    b ∈ if b ∈ log then log else log ++ [b] := by
  split
  · assumption
  · exact mem_append_right _ (mem_singleton_self b)

@[simp] theorem wp_quiet {α : Type} {m : F α} {Q : α → LSt → Prop} :
    wp E (quiet m) Q s ↔ wp E m (fun a r => Q a { s with fs := r }) s.fs := wp_zoom

@[simp] theorem wp_logWrite {Q : Unit → LSt → Prop} :
    wp E (logWrite b) Q s ↔
      Q () { s with log := if b ∈ s.log then s.log else s.log ++ [b] } := by
  rw [Xv6.Fs.logWrite, wp_modify]

end

namespace Logged

section
variable {lay : Superblock} {sb : Super} {s : LSt} {E : Stop → Prop} {i k bn : Nat}

/-- The block of the free map, and the new block. -/
theorem balloc_grown : wp E (balloc lay sb) (fun r t =>
    Grown (fun b => b = BBLOCK r lay ∨ b = r) s t ∧ t.fs.inode = s.fs.inode ∧
    (r ≠ 0 → r ∈ t.log ∧ t.fs.block r = fun _ => 0)) s := by
  rw [balloc, wp_bind, wp_quiet, wp_get]
  cases (List.range sb.size).find? fun b => !s.fs.bitmap b with
  | none => exact wp_ret ⟨Grown.of_eq rfl rfl, rfl, fun hne => absurd rfl hne⟩
  | some r =>
    rw [wp_bind, wp_quiet, wp_setBit, wp_bind, wp_logWrite, wp_bind, bzero, wp_bind, wp_quiet,
      wp_setBlock, wp_logWrite, wp_pure]
    have hbit := Grown.logWrite (X := fun b => b = BBLOCK r lay) (s := s) (b := BBLOCK r lay)
      (t := ⟨{ s.fs with bitmap := update s.fs.bitmap r true },
        if BBLOCK r lay ∈ s.log then s.log else s.log ++ [BBLOCK r lay]⟩) rfl
      (fun _ _ => rfl) rfl
    refine ⟨hbit.trans (Grown.logWrite (X := fun b => b = r) (b := r) rfl (fun b hb => ?_) rfl)
      (fun b hb => Or.inl hb) fun b hb => Or.inr hb, rfl, fun _ => ⟨?_, update_self ..⟩⟩
    · exact update_of_ne hb _ _
    · exact mem_logged _ _

/-- The indirect block of the copy in the table. -/
def indirect (t : LSt) (i : Nat) : Nat := (t.fs.inode i).d.addrs NDIRECT

theorem bmapAddr_grown : wp E (bmapAddr lay sb i k) (fun r t =>
    Grown (fun b => b = BBLOCK r lay ∨ b = r) s t ∧
    ((s.fs.inode i).d.addrs k ≠ 0 → t = s ∧ r = (s.fs.inode i).d.addrs k) ∧
    (∀ k' ≠ k, (t.fs.inode i).d.addrs k' = (s.fs.inode i).d.addrs k') ∧
    (r ≠ 0 → (t.fs.inode i).d.addrs k = r) ∧
    ((s.fs.inode i).d.addrs k = 0 → r ≠ 0 → r ∈ t.log ∧ t.fs.block r = fun _ => 0)) s := by
  rw [bmapAddr, wp_bind, wp_quiet, wp_get]
  refine wp_if (fun h0 => ?_) fun h0 => wp_ret ⟨Grown.of_eq rfl rfl, fun _ => ⟨rfl, rfl⟩, fun _ _ =>
    rfl, fun _ => rfl, fun hz => absurd hz h0⟩
  refine wp_call balloc_grown fun r t ht => ?_
  rcases ht with ⟨hgrown, hinode, hfresh⟩
  refine wp_if (fun hr => ?_) fun hr => ?_
  · rw [hr] at hgrown
    exact wp_ret ⟨hgrown, fun hne => absurd h0 hne, fun _ _ => by rw [hinode],
      fun hne => absurd rfl hne, fun _ hne => absurd rfl hne⟩
  · rw [wp_bind, wp_quiet, wp_setCopy, wp_pure]
    refine ⟨hgrown.trans (Grown.of_eq (X := fun _ => False) rfl rfl) (fun _ => id)
      (fun _ => False.elim), fun hne => absurd h0 hne, fun k' hk' => ?_, fun _ => ?_,
      fun _ _ => hfresh hr⟩
    · simp only [update_self, hinode, update_of_ne hk']
    · simp only [update_self]

/-- What `bmap` logs: the new block and its bit, and for an entry of an indirect block this
block, with its own bit if it is new. -/
theorem bmap_grown (hbn : bn < MAXFILE) : wp E (bmap lay sb i bn) (fun r t =>
    (indirect s i ≠ 0 → indirect t i = indirect s i) ∧
    Grown (fun b => b = BBLOCK r lay ∨ b = r ∨ (indirect t i ≠ 0 ∧ (b = indirect t i ∨
      (indirect s i = 0 ∧ b = BBLOCK (indirect t i) lay)))) s t ∧
    (slot (s.fs.inode i).d s.fs.block (dataSlot bn) = 0 → r ≠ 0 → r ∈ t.log)) s := by
  rw [bmap]
  refine wp_if (fun hlt => ?_) fun hge => ?_
  · refine wp_mono bmapAddr_grown fun r t ht => ?_
    rcases ht with ⟨hgrown, -, hkeep, -, hfresh⟩
    refine ⟨fun _ => hkeep NDIRECT (by omega), hgrown.weaken fun b hb => hb.imp_right .inl,
      fun h0 hr => ?_⟩
    rw [slot_direct hlt] at h0
    exact (hfresh h0 hr).1
  · have hj := indirect_lt hge hbn
    rw [if_pos hj, wp_bind, dataSlot_indirect hge]
    refine wp_mono bmapAddr_grown fun ind t ht => ?_
    rcases ht with ⟨hgrown, hsame, -, hind, hnew⟩
    have hsame' : indirect s i ≠ 0 → indirect t i = indirect s i := fun hne => by
      rw [(hsame hne).1]
    refine wp_if (fun h0 => wp_ret ?_) fun h0 => ?_
    · -- no indirect block could be allocated
      rw [h0] at hgrown
      exact ⟨hsame', hgrown.weaken fun b hb => hb.imp_right .inl, fun _ hne => absurd rfl hne⟩
    replace hind : indirect t i = ind := hind h0
    -- it was there, or it is logged with its bit
    have hfirst : Grown (fun b => ind ≠ 0 ∧ (b = ind ∨ (indirect s i = 0 ∧ b = BBLOCK ind lay)))
        s t := by
      by_cases hz : indirect s i = 0
      · exact hgrown.weaken fun b hb => ⟨h0, hb.symm.imp_right fun hb => ⟨hz, hb⟩⟩
      · rw [(hsame hz).1]
        exact Grown.of_eq rfl rfl
    rw [wp_bind, wp_quiet, wp_get]
    refine wp_if (fun hw => ?_) fun hw => wp_ret ?_
    swap
    · refine ⟨hsame', hfirst.weaken fun b hb => ?_, fun hz _ => absurd ?_ hw⟩
      · rw [hind]
        exact .inr (.inr hb)
      -- a new indirect block has no entries
      by_cases hs0 : (s.fs.inode i).d.addrs NDIRECT = 0
      · rw [(hnew hs0 h0).2, zero_getWord]
      · rcases hsame hs0 with ⟨rfl, rfl⟩
        rw [slot_entry hj hs0] at hz
        exact BitVec.eq_of_toNat_eq hz
    refine wp_call balloc_grown fun r u hu => ?_
    rcases hu with ⟨hballoc, hinode, hfresh⟩
    have hindu : indirect u i = ind := by
      rw [← hind]
      unfold indirect
      rw [hinode]
    have hboth : Grown (fun b => b = BBLOCK r lay ∨ b = r ∨ (ind ≠ 0 ∧ (b = ind ∨
        (indirect s i = 0 ∧ b = BBLOCK ind lay)))) s u :=
      hfirst.trans hballoc (fun b hb => .inr (.inr hb)) fun b hb => hb.imp_right .inl
    have hsame'' : indirect s i ≠ 0 → ind = indirect s i := fun hne => hind ▸ hsame' hne
    refine wp_if (fun hr => wp_ret ?_) fun hr => ?_
    · rw [hr] at hboth
      rw [hindu]
      exact ⟨hsame'', hboth, fun _ hne => absurd rfl hne⟩
    rw [wp_bind, wp_quiet, wp_setBlock, wp_bind, wp_logWrite, wp_pure]
    have hentry : indirect ⟨{ u.fs with
        block := update u.fs.block ind
          ((u.fs.block ind).setWord (bn - NDIRECT) (BitVec.ofNat 32 r)) },
        if ind ∈ u.log then u.log else u.log ++ [ind]⟩ i = ind := hindu
    rw [hentry]
    have hlast := hboth.trans (Z := fun b => b = BBLOCK r lay ∨ b = r ∨ (ind ≠ 0 ∧ (b = ind ∨
      (indirect s i = 0 ∧ b = BBLOCK ind lay)))) (Grown.logWrite (X := fun b => b = ind)
      (s := u) (t := ⟨{ u.fs with
        block := update u.fs.block ind
          ((u.fs.block ind).setWord (bn - NDIRECT) (BitVec.ofNat 32 r)) },
        if ind ∈ u.log then u.log else u.log ++ [ind]⟩) rfl
      (fun b hb => update_of_ne hb _ _) rfl) (fun _ => id)
      fun b hb => .inr (.inr ⟨h0, .inl hb⟩)
    refine ⟨hsame'', hlast, fun _ hr => ?_⟩
    show r ∈ if ind ∈ u.log then u.log else u.log ++ [ind]
    split
    · exact (hfresh hr).1
    · exact mem_append_left _ (hfresh hr).1

/-- Nothing is logged for a block that is there. -/
theorem bmap_mapped {d : Dinode} (hd : (s.fs.inode i).d = d) (hbn : bn < MAXFILE)
    (h0 : slot d s.fs.block (dataSlot bn) ≠ 0) :
    wp E (bmap lay sb i bn) (fun r t => t = s ∧ r = slot d s.fs.block (dataSlot bn)) s := by
  have haddr : ∀ k, d.addrs k ≠ 0 →
      wp E (bmapAddr lay sb i k) (fun r t => t = s ∧ r = d.addrs k) s := by
    intro k hk
    rw [← hd] at hk ⊢
    exact wp_mono bmapAddr_grown fun r t ht => ht.2.1 hk
  rw [bmap]
  refine wp_if (fun hlt => ?_) fun hge => ?_
  · rw [slot_direct hlt] at h0 ⊢
    exact haddr bn h0
  · obtain ⟨hind, hw, hslot⟩ := slot_indirect hge hbn h0
    rw [if_pos (indirect_lt hge hbn), hslot]
    refine wp_call (haddr NDIRECT hind) fun ind t ht => ?_
    rcases ht with ⟨rfl, rfl⟩
    rw [if_neg hind, wp_bind, wp_quiet, wp_get, if_neg hw, wp_pure]
    exact ⟨rfl, rfl⟩

end

end Logged

end Xv6.Fs
