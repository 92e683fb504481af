import Mathlib.Data.List.Perm.Subperm
import Xv6.Filewrite.Basic
import Xv6.Fs.Fault

/-!
# Xv6.Filewrite.Blocks — a chunk fits in a transaction

`filewrite` cuts a write into chunks so that each of them logs at most `MAXOPBLOCKS` blocks:
the inode, the indirect block and its bit, and two for each block of data. A chunk that does
not begin at a block has one block more than it has blocks of data, but its first block is
there already. Blocks are counted by a list of data blocks and one of blocks of the free map
that grow with the rounds of the loop (`Budget`).
-/

namespace Xv6.Filewrite

open Lib Fs List

/-- What the log holds after `r` rounds: `r` data blocks, the bits of `a` of them, and the
indirect block with its bit. -/
def Budget (i r a : Nat) (t : LSt) : Prop :=
  ∃ D B : List Nat, ∃ c, D.length ≤ r ∧ B.length ≤ a ∧ ∀ b, b ∈ t.log → b ∈ D ∨ b ∈ B ∨
    (Logged.indirect t i ≠ 0 ∧ (b = Logged.indirect t i ∨ b = c))

section
variable {lay : Superblock} {sb : Super} {s t : LSt} {E : Stop → Prop} {i r a n off tot : Nat}
  {src : Nat → Option Byte}

/-- A round that may allocate. -/
theorem Budget.alloc {x y c : Nat} (h : Budget i r a s)
    (hind : Logged.indirect s i ≠ 0 → Logged.indirect t i = Logged.indirect s i)
    (hgrown : Grown (fun b => b = x ∨ b = y ∨ (Logged.indirect t i ≠ 0 ∧
      (b = Logged.indirect t i ∨ (Logged.indirect s i = 0 ∧ b = c)))) s t) :
    Budget i (r + 1) (a + 1) t := by
  rcases h with ⟨D, B, c₀, hD, hB, hlog⟩
  refine ⟨y :: D, x :: B, if Logged.indirect s i = 0 then c else c₀, ?_, ?_, fun b hb => ?_⟩
  · rw [length_cons]
    omega
  · rw [length_cons]
    omega
  rcases hgrown.only b hb with hold | hx | hy | ⟨h0, hi | ⟨hz, hc⟩⟩
  · rcases hlog b hold with hd | hb' | ⟨h0, hi⟩
    · exact .inl (mem_cons_of_mem y hd)
    · exact .inr (.inl (mem_cons_of_mem x hb'))
    · rw [hind h0, if_neg h0]
      exact .inr (.inr ⟨h0, hi⟩)
  · exact .inr (.inl (hx ▸ mem_cons_self))
  · exact .inl (hy ▸ mem_cons_self)
  · exact .inr (.inr ⟨h0, .inl hi⟩)
  · exact .inr (.inr ⟨h0, .inr (by rw [if_pos hz, hc])⟩)

/-- A round in which the block is there. -/
theorem Budget.mapped {y : Nat} (h : Budget i r a s)
    (hind : Logged.indirect t i = Logged.indirect s i) (hgrown : Grown (fun b => b = y) s t) :
    Budget i (r + 1) a t := by
  rcases h with ⟨D, B, c, hD, hB, hlog⟩
  refine ⟨y :: D, B, c, ?_, hB, fun b hb => ?_⟩
  · rw [length_cons]
    omega
  rw [hind]
  rcases hgrown.only b hb with hold | hy
  · exact (hlog b hold).imp_left (mem_cons_of_mem y)
  · exact .inl (hy ▸ mem_cons_self)

/-- A chunk that does not begin at a block. -/
def ragged (off : Nat) : Nat := if off % BSIZE = 0 then 0 else 1

/-- Where the loop is after `r` rounds. -/
structure Place (off n r tot : Nat) : Prop where
  block : (off + tot) / BSIZE = off / BSIZE + r
  start : r = 0 ∨ (off + tot) % BSIZE = 0

theorem Place.next {m : Nat} (h : Place off n r tot) (hm : m = min (n - tot)
    (BSIZE - (off + tot) % BSIZE)) (hlt : tot + m < n) : Place off n (r + 1) (tot + m) := by
  have hblock := h.block
  constructor
  · unfold BSIZE at *
    omega
  · right
    unfold BSIZE at *
    omega

theorem Place.rounds (h : Place off n r tot) (hlt : tot < n) (hn : n ≤ maxChunk) :
    r + 1 ≤ 3 + ragged off := by
  have hblock := h.block
  have hmax : maxChunk = 3 * BSIZE := by decide
  rw [hmax] at hn
  unfold ragged BSIZE at *
  split <;> omega

/-- The loop, from its round `r` on. -/
theorem loop_budget (hn : n ≤ maxChunk) (hmax : off + n ≤ MAXFILE * BSIZE) (fuel : Nat)
    (hfuel : n ≤ tot + fuel) (hplace : tot < n → Place off n r tot)
    (hfirst : r = 0 → ragged off = 1 → tot < n →
      slot (s.fs.inode i).d s.fs.block (dataSlot ((off + tot) / BSIZE)) ≠ 0) (h : Budget i r a s)
    (hnodup : s.log.Nodup) (hr : r ≤ 3 + ragged off) (ha : a + min r (ragged off) ≤ r) :
    wp E (Logged.writei.loop lay sb i src n fuel tot (off + tot)) (fun _ t =>
      t.log.Nodup ∧ ∃ r a, Budget i r a t ∧ r ≤ 3 + ragged off ∧ a + min r (ragged off) ≤ r)
      s := by
  induction fuel generalizing tot r a s with
  | zero => exact wp_ret ⟨hnodup, r, a, h, hr, ha⟩
  | succ fuel ih =>
    rw [Logged.writei.loop]
    refine wp_if (fun _ => wp_ret ⟨hnodup, r, a, h, hr, ha⟩) fun hlt => ?_
    have htot : tot < n := by omega
    have hround := (hplace htot).rounds htot hn
    have hbn := block_lt_max hmax htot
    -- the round, whatever the state after `bmap` and the budget of this round are
    have hrest : ∀ (addr : Nat) (t : LSt) (X : Nat → Prop) (a' : Nat), Grown X s t → X addr →
        (∀ u, Logged.indirect u i = Logged.indirect t i → Grown X s u → Budget i (r + 1) a' u) →
        a' + min (r + 1) (ragged off) ≤ r + 1 →
        wp E (do
          if addr = 0 then return (tot, off + tot)
          else
            let m := min (n - tot) (BSIZE - (off + tot) % BSIZE)
            quiet (setBlock addr fun b => Block.fill b ((off + tot) % BSIZE) tot m src)
            if readable src tot m < m then return (tot, off + tot)
            else
              logWrite addr
              Logged.writei.loop lay sb i src n fuel (tot + m) (off + tot + m)) (fun _ t =>
          t.log.Nodup ∧ ∃ r a, Budget i r a t ∧ r ≤ 3 + ragged off ∧ a + min r (ragged off) ≤ r)
          t := by
      intro addr t X a' hgrown hX hbudget ha'
      have hnodup' := hgrown.nodup hnodup
      refine wp_if (fun _ => wp_ret ⟨hnodup', r + 1, a', hbudget t rfl hgrown, hround, ha'⟩) fun _
        => ?_
      rw [wp_bind, wp_quiet, wp_setBlock]
      refine wp_if (fun _ => wp_ret ⟨hnodup', r + 1, a', ?_, hround, ha'⟩) fun _ => ?_
      · -- the changed block is not logged
        exact hbudget t rfl hgrown
      rw [wp_bind, wp_logWrite, Nat.add_assoc]
      have hlogged := hgrown.trans (Z := X) (Grown.logWrite (X := X) (b := addr) hX
        (t := ⟨{ t.fs with
          block := Function.update t.fs.block addr (Block.fill (t.fs.block addr)
            ((off + tot) % BSIZE) tot (min (n - tot) (BSIZE - (off + tot) % BSIZE)) src) },
          if addr ∈ t.log then t.log else t.log ++ [addr]⟩)
        (fun b hb => Function.update_of_ne hb _ _) rfl) (fun _ => id) fun _ => id
      have hpos := pieceLen_pos off htot
      refine ih (r := r + 1) (a := a') (by omega) (fun hlt' => (hplace htot).next rfl hlt')
        (fun h0 => absurd h0 (Nat.succ_ne_zero r)) (hbudget _ rfl hlogged)
        (hlogged.nodup hnodup) hround ha'
    rw [wp_bind]
    by_cases hu : r = 0 ∧ ragged off = 1
    · -- the first block of a ragged chunk is there
      refine wp_mono (Logged.bmap_mapped rfl hbn (hfirst hu.1 hu.2 htot)) fun addr t ht => ?_
      rcases ht with ⟨rfl, rfl⟩
      refine hrest _ t (fun b => b = _) a (Grown.of_eq rfl rfl) rfl
        (fun u hind hgrown => h.mapped hind hgrown) ?_
      rw [hu.1, hu.2] at ha ⊢
      omega
    · refine wp_mono (Logged.bmap_grown hbn) fun addr t ht => ?_
      rcases ht with ⟨hind, hgrown, -⟩
      refine hrest addr t _ (a + 1) hgrown (.inr (.inl rfl)) (fun u hindu hgrown' => ?_) ?_
      · rw [← hindu] at hgrown'
        exact h.alloc (fun hne => hindu.trans (hind hne)) hgrown'
      · have hle : ragged off ≤ 1 := by
          unfold ragged
          split <;> omega
        omega

/-- The blocks of a budget, with that of the inode, are as many as a transaction may log. -/
theorem Budget.fits {c : Nat} (h : Budget i r a s) (hr : r ≤ 3 + ragged off)
    (ha : a + min r (ragged off) ≤ r) (hnodup : t.log.Nodup)
    (honly : ∀ b ∈ t.log, b ∈ s.log ∨ b = c) : t.log.length ≤ MAXOPBLOCKS := by
  rcases h with ⟨D, B, c₀, hD, hB, hlog⟩
  have hsub : t.log ⊆ D ++ B ++ [Logged.indirect s i, c₀, c] := by
    intro b hb
    rw [mem_append, mem_append]
    rcases honly b hb with hold | rfl
    · rcases hlog b hold with hd | hb' | ⟨-, rfl | rfl⟩
      · exact .inl (.inl hd)
      · exact .inl (.inr hb')
      · exact .inr (by simp)
      · exact .inr (by simp)
    · exact .inr (by simp)
  have hle := (subperm_of_subset hnodup hsub).length_le
  rw [length_append, length_append] at hle
  have hlen : [Logged.indirect s i, c₀, c].length = 3 := rfl
  have hragged : ragged off ≤ 1 := by
    unfold ragged
    split <;> omega
  have hmax : MAXOPBLOCKS = 10 := rfl
  omega

end

/-- A chunk that `filewrite` hands to `writei` at a position in a file without holes logs at
most `MAXOPBLOCKS` blocks, whatever the layout of the disk is and wherever `balloc` finds its
blocks. -/
theorem writei_fits (lay : Superblock) (sb : Super) (s : Fs.St) (i off n : Nat)
    (src : Nat → Option Byte) (hfull : Full (s.inode i).d s.block)
    (hoff : off ≤ (s.inode i).d.size) (hn : n ≤ maxChunk) :
    ∃ r t, Logged.writei lay sb i src off n ⟨s, []⟩ = .ok (r, t) ∧
      t.log.Nodup ∧ t.log.length ≤ MAXOPBLOCKS := by
  refine wp_returns ?_
  rw [Logged.writei, wp_bind, wp_quiet, wp_get]
  refine wp_if (fun _ => wp_ret ⟨nodup_nil, Nat.zero_le _⟩) fun hstart => ?_
  refine wp_if (fun _ => wp_ret ⟨nodup_nil, Nat.zero_le _⟩) fun hend => ?_
  have hmax : off + n ≤ MAXFILE * BSIZE := by
    have hchunk : maxChunk = 3072 := by decide
    unfold u32 at hstart hend
    omega
  have hempty : Budget i 0 0 ⟨s, []⟩ :=
    ⟨[], [], 0, Nat.le_refl 0, Nat.le_refl 0, fun b hb => absurd hb not_mem_nil⟩
  have hplace : Place off n 0 0 := ⟨rfl, .inl rfl⟩
  have hfirst : ragged off = 1 → slot (s.inode i).d s.block (dataSlot (off / BSIZE)) ≠ 0 := by
    intro hu
    refine (hfull (off / BSIZE) (lt_of_lt_of_le ?_ hoff)).2
    unfold ragged at hu
    split at hu
    · omega
    · next hne =>
      unfold BSIZE at hne ⊢
      omega
  refine wp_call (loop_budget (r := 0) (a := 0) hn hmax n (by omega)
    (fun _ => hplace) (fun _ hu _ => hfirst hu) hempty nodup_nil (Nat.zero_le _)
    (by omega)) fun p u hu => ?_
  rcases hu with ⟨hnodup, r, a, hbudget, hr, ha⟩
  rw [wp_bind, wp_quiet, wp_setCopy, wp_bind, Logged.iupdate, wp_bind, wp_quiet, wp_iupdate,
    wp_logWrite, wp_pure]
  have hgrown := Grown.logWrite (X := fun b => b = IBLOCK i lay) rfl (s := u)
    (t := ⟨u.fs, if IBLOCK i lay ∈ u.log then u.log else u.log ++ [IBLOCK i lay]⟩)
    (fun b _ => rfl) rfl
  exact ⟨hgrown.nodup hnodup, hbudget.fits hr ha (hgrown.nodup hnodup) hgrown.only⟩

/-- Two bytes of a new file. -/
theorem writei_fits_newDisk : ∃ r t,
    Logged.writei newLayout newSuper 1 (fun _ => some 7) 0 2 ⟨newDisk, []⟩ = .ok (r, t) ∧
      t.log.Nodup ∧ t.log.length ≤ MAXOPBLOCKS :=
  writei_fits newLayout newSuper newDisk 1 0 2 (fun _ => some 7)
    (fun bn hbn => absurd hbn (Nat.not_lt_zero _)) (Nat.zero_le _) (by decide)

end Xv6.Filewrite
