import Mathlib.Data.List.Nodup
import Mathlib.Data.List.Perm.Subperm
import Xv6.Param

/-!
# Xv6.Bio — the buffer cache

`kernel/bio.c`: which buffer `bget` hands out, and what `brelse`, `bpin` and `bunpin`
do to reference counts and to the LRU order. The circular list through `bcache.head`
is the list of buffers from `head.next` (most recently released) to `head.prev`.
A buffer's contents play no part in this choice and are left to the log's model.
-/

namespace Xv6.Bio

open List

/-- `struct buf`; `id` is its index in `bcache.buf`. -/
structure Buf where
  id : Nat
  valid : Bool
  dev : Nat
  blockno : Nat
  refcnt : Nat
deriving DecidableEq, Repr

/-- `bcache` with the cache counters of `sysproc.c`. -/
structure Bcache where
  bufs : List Buf
  read_cache_counter : BitVec 64
  read_cache_hit_counter : BitVec 64
  write_cahce_counter : BitVec 64
deriving DecidableEq, Repr

/-- The list as `binit` links it: each buffer is inserted after `head`. -/
def binit : Bcache where
  bufs := ((List.range NBUF).map fun i => ⟨i, false, 0, 0, 0⟩).reverse
  read_cache_counter := 0
  read_cache_hit_counter := 0
  write_cahce_counter := 0

/-- Apply `f` to the buffer with index `i`. -/
def Bcache.modify (c : Bcache) (i : Nat) (f : Buf → Buf) : Bcache :=
  { c with bufs := c.bufs.map fun b => if b.id = i then f b else b }

/-- `bget`: the buffer that already holds the block, else the least recently released
one that nobody references. `none` is the panic "bget: no buffers". -/
def bget (c : Bcache) (dev blockno : Nat) : Option (Nat × Bcache) :=
  let c := { c with read_cache_counter := c.read_cache_counter + 1 }
  match c.bufs.find? fun b => b.dev = dev ∧ b.blockno = blockno with
  | some b =>
    let c := { c with read_cache_hit_counter := c.read_cache_hit_counter + 1 }
    some (b.id, c.modify b.id fun b => { b with refcnt := b.refcnt + 1 })
  | none =>
    match c.bufs.reverse.find? fun b => b.refcnt = 0 with
    | some b =>
      let c := { c with write_cahce_counter := c.write_cahce_counter + 1 }
      some (b.id, c.modify b.id fun b =>
        { b with dev := dev, blockno := blockno, valid := false, refcnt := 1 })
    | none => none

/-- Move buffer `i` right after `head`. -/
def Bcache.toFront (c : Bcache) (i : Nat) : Bcache :=
  { c with bufs := c.bufs.filter (fun b => b.id = i) ++ c.bufs.filter fun b => ¬ b.id = i }

/-- The buffer with index `i` has no references. -/
def Bcache.idle (c : Bcache) (i : Nat) : Prop := ∀ b ∈ c.bufs, b.id = i → b.refcnt = 0

instance (c : Bcache) (i : Nat) : Decidable (c.idle i) :=
  inferInstanceAs (Decidable (∀ b ∈ c.bufs, b.id = i → b.refcnt = 0))

/-- `brelse`: drop a reference; the last one makes the buffer most recently used. -/
def brelse (c : Bcache) (i : Nat) : Bcache :=
  let c := c.modify i fun b => { b with refcnt := b.refcnt - 1 }
  if c.idle i then c.toFront i else c

/-- `bpin`. -/
def bpin (c : Bcache) (i : Nat) : Bcache := c.modify i fun b => { b with refcnt := b.refcnt + 1 }

/-- `bunpin`. -/
def bunpin (c : Bcache) (i : Nat) : Bcache := c.modify i fun b => { b with refcnt := b.refcnt - 1 }

/-! ## Reference accounting -/

/-- The cache is well formed, and its reference counts are accounted for: buffer `i` is
referenced `refs i` times by holders, and once more if it holds a block of `P`, the blocks
pinned by the log. -/
structure Accounts (c : Bcache) (refs : Nat → Nat) (P : List Nat) : Prop where
  length : c.bufs.length = NBUF
  nodup : (c.bufs.map Buf.id).Nodup
  uniq : ∀ b ∈ c.bufs, ∀ b' ∈ c.bufs,
    b.dev = b'.dev → b.blockno = b'.blockno → b.dev ≠ 0 → b.id = b'.id
  refcnt : ∀ b ∈ c.bufs,
    b.refcnt = refs b.id + if b.dev = ROOTDEV ∧ b.blockno ∈ P then 1 else 0
  dev : ∀ b ∈ c.bufs, 0 < b.refcnt → b.dev = ROOTDEV
  present : ∀ x ∈ P, ∃ b ∈ c.bufs, b.dev = ROOTDEV ∧ b.blockno = x

variable {c c' : Bcache} {refs refs' : Nat → Nat} {P P' : List Nat} {i x : Nat} {b : Buf}

/-- A buffer is determined by its index. -/
theorem Accounts.eq_of_id (h : Accounts c refs P) {b' : Buf} (hb : b ∈ c.bufs) (hb' : b' ∈ c.bufs)
    (hid : b.id = b'.id) : b = b' :=
  inj_on_of_nodup_map h.nodup hb hb' hid

theorem mem_modify {f : Buf → Buf} {b' : Buf} :
    b' ∈ (c.modify i f).bufs ↔ ∃ b ∈ c.bufs, (if b.id = i then f b else b) = b' :=
  mem_map

section
variable (h : Accounts c refs P)
include h

/-- Changing the reference count of one buffer, and the accounts with it. -/
theorem Accounts.setRefcnt (f : Buf → Nat)
    (hP : ∀ y ∈ P', ∃ b ∈ c.bufs, b.dev = ROOTDEV ∧ b.blockno = y) (hself : ∀ b ∈ c.bufs, b.id = i →
      f b = refs' i + if b.dev = ROOTDEV ∧ b.blockno ∈ P' then 1 else 0)
    (hdev : ∀ b ∈ c.bufs, b.id = i → 0 < f b → b.dev = ROOTDEV)
    (hother : ∀ b ∈ c.bufs, b.id ≠ i → b.refcnt =
      refs' b.id + if b.dev = ROOTDEV ∧ b.blockno ∈ P' then 1 else 0) :
    Accounts (c.modify i fun b => { b with refcnt := f b }) refs' P' := by
  have hkeep : ∀ b : Buf, (if b.id = i then { b with refcnt := f b } else b).id = b.id ∧
      (if b.id = i then { b with refcnt := f b } else b).dev = b.dev ∧
      (if b.id = i then { b with refcnt := f b } else b).blockno = b.blockno := by
    intro b
    split <;> exact ⟨rfl, rfl, rfl⟩
  constructor
  · simp [Bcache.modify, h.length]
  · have : (c.modify i fun b => { b with refcnt := f b }).bufs.map Buf.id = c.bufs.map Buf.id := by
      simp only [Bcache.modify, map_map]
      exact map_congr_left fun b _ => (hkeep b).1
    rw [this]
    exact h.nodup
  · intro b₁ hb₁ b₂ hb₂
    obtain ⟨b₁, hm₁, rfl⟩ := mem_modify.mp hb₁
    obtain ⟨b₂, hm₂, rfl⟩ := mem_modify.mp hb₂
    rw [(hkeep b₁).1, (hkeep b₁).2.1, (hkeep b₁).2.2, (hkeep b₂).1, (hkeep b₂).2.1, (hkeep b₂).2.2]
    exact h.uniq b₁ hm₁ b₂ hm₂
  · intro b' hb'
    obtain ⟨b, hb, rfl⟩ := mem_modify.mp hb'
    split
    · next hid =>
      change f b = refs' b.id + if b.dev = ROOTDEV ∧ b.blockno ∈ P' then 1 else 0
      rw [hid]
      exact hself b hb hid
    · next hid => exact hother b hb hid
  · intro b' hb'
    obtain ⟨b, hb, rfl⟩ := mem_modify.mp hb'
    split
    · next hid => exact hdev b hb hid
    · exact h.dev b hb
  · intro y hy
    obtain ⟨b, hb, hbdev, hbno⟩ := hP y hy
    refine ⟨_, mem_modify.mpr ⟨b, hb, rfl⟩, ?_, ?_⟩
    · rw [(hkeep b).2.1, hbdev]
    · rw [(hkeep b).2.2, hbno]

/-- The statistics counters play no part. -/
theorem Accounts.recount (n₁ n₂ n₃ : BitVec 64) :
    Accounts ⟨c.bufs, n₁, n₂, n₃⟩ refs P :=
  ⟨h.length, h.nodup, h.uniq, h.refcnt, h.dev, h.present⟩

/-- The accounts do not depend on the order of the list. -/
theorem Accounts.of_perm (hp : c'.bufs.Perm c.bufs) :
    Accounts c' refs P where
  length := by rw [hp.length_eq, h.length]
  nodup := (hp.map Buf.id).nodup_iff.mpr h.nodup
  uniq b hb b' hb' := h.uniq b (hp.mem_iff.mp hb) b' (hp.mem_iff.mp hb')
  refcnt b hb := h.refcnt b (hp.mem_iff.mp hb)
  dev b hb := h.dev b (hp.mem_iff.mp hb)
  present y hy := by
    obtain ⟨b, hb, hh⟩ := h.present y hy
    exact ⟨b, hp.mem_iff.mpr hb, hh⟩

/-- Recycling an idle buffer for a block that is not cached. -/
theorem Accounts.recycle (hb : b ∈ c.bufs) (hidle : b.refcnt = 0)
    (hmiss : ∀ b' ∈ c.bufs, ¬ (b'.dev = ROOTDEV ∧ b'.blockno = x)) :
    Accounts (c.modify b.id fun b =>
        { b with dev := ROOTDEV, blockno := x, valid := false, refcnt := 1 })
      (fun j => refs j + if j = b.id then 1 else 0) P := by
  have hzero : refs b.id = 0 := by
    have := h.refcnt b hb
    omega
  have hxP : x ∉ P := by
    intro hx
    obtain ⟨b', hb', hh⟩ := h.present x hx
    exact hmiss b' hb' hh
  -- the buffers after the step: the recycled one, and the others as they were
  have hcases : ∀ b' ∈ (c.modify b.id fun b =>
        { b with dev := ROOTDEV, blockno := x, valid := false, refcnt := 1 }).bufs,
      (b'.id = b.id ∧ b'.dev = ROOTDEV ∧ b'.blockno = x ∧ b'.refcnt = 1) ∨
        (b' ∈ c.bufs ∧ b'.id ≠ b.id) := by
    intro b' hb'
    obtain ⟨b₀, hb₀, rfl⟩ := mem_modify.mp hb'
    split
    · next hid => exact Or.inl ⟨hid, rfl, rfl, rfl⟩
    · next hid => exact Or.inr ⟨hb₀, hid⟩
  constructor
  · simp [Bcache.modify, h.length]
  · have : (c.modify b.id fun b =>
        { b with dev := ROOTDEV, blockno := x, valid := false, refcnt := 1 }).bufs.map Buf.id =
        c.bufs.map Buf.id := by
      simp only [Bcache.modify, map_map]
      refine map_congr_left fun b' _ => ?_
      simp only [Function.comp]
      split <;> rfl
    rw [this]
    exact h.nodup
  · intro b₁ hb₁ b₂ hb₂ hdev hno hne
    rcases hcases b₁ hb₁ with ⟨hid₁, hdev₁, hno₁, -⟩ | ⟨hb₁, -⟩ <;>
      rcases hcases b₂ hb₂ with ⟨hid₂, hdev₂, hno₂, -⟩ | ⟨hb₂, -⟩
    · rw [hid₁, hid₂]
    · exact absurd ⟨by rw [← hdev, hdev₁], by rw [← hno, hno₁]⟩ (hmiss b₂ hb₂)
    · exact absurd ⟨by rw [hdev, hdev₂], by rw [hno, hno₂]⟩ (hmiss b₁ hb₁)
    · exact h.uniq b₁ hb₁ b₂ hb₂ hdev hno hne
  · intro b' hb'
    rcases hcases b' hb' with ⟨hid, -, hno, hcnt⟩ | ⟨hb', hid⟩
    · simp [hid, hno, hcnt, hzero, hxP]
    · simp [hid, h.refcnt b' hb']
  · intro b' hb'
    rcases hcases b' hb' with ⟨-, hdev, -⟩ | ⟨hb', -⟩
    · exact fun _ => hdev
    · exact h.dev b' hb'
  · intro y hy
    obtain ⟨b', hb', hdev, hno⟩ := h.present y hy
    refine ⟨b', mem_modify.mpr ⟨b', hb', if_neg ?_⟩, hdev, hno⟩
    intro hid
    have hcnt := h.refcnt b' hb'
    rw [h.eq_of_id hb' hb hid, hidle, ← h.eq_of_id hb' hb hid, hdev, hno] at hcnt
    simp [hy] at hcnt

/-- `bget` adds one reference to the buffer it returns, and that buffer holds the block. -/
theorem bget_accounts (hg : bget c ROOTDEV x = some (i, c')) :
    Accounts c' (fun j => refs j + if j = i then 1 else 0) P ∧
      ∃ b ∈ c'.bufs, b.id = i ∧ b.dev = ROOTDEV ∧ b.blockno = x := by
  simp only [bget] at hg
  split at hg
  · next b hfind =>
    -- a hit
    simp only [Option.some.injEq, Prod.mk.injEq] at hg
    obtain ⟨rfl, rfl⟩ := hg
    have hb := mem_of_find?_eq_some hfind
    obtain ⟨hdev, hno⟩ : b.dev = ROOTDEV ∧ b.blockno = x := by
      simpa using find?_some hfind
    refine ⟨Accounts.setRefcnt (h.recount _ _ _) _ h.present ?_ ?_ ?_,
      { b with refcnt := b.refcnt + 1 }, mem_modify.mpr ⟨b, hb, if_pos rfl⟩, rfl, hdev, hno⟩
    · intro b' hb' hid
      rw [h.refcnt b' hb', hid, if_pos rfl]
      omega
    · intro b' hb' hid _
      rw [h.eq_of_id hb' hb hid, hdev]
    · intro b' hb' hid
      rw [if_neg hid]
      exact h.refcnt b' hb'
  · next hmiss =>
    split at hg
    · next b hfind =>
      simp only [Option.some.injEq, Prod.mk.injEq] at hg
      obtain ⟨rfl, rfl⟩ := hg
      have hb : b ∈ c.bufs := by simpa using mem_of_find?_eq_some hfind
      have hidle : b.refcnt = 0 := by simpa using find?_some hfind
      have hmiss' : ∀ b' ∈ c.bufs, ¬ (b'.dev = ROOTDEV ∧ b'.blockno = x) := by
        simpa [find?_eq_none] using hmiss
      exact ⟨Accounts.recycle (h.recount _ _ _) hb hidle hmiss',
        _, mem_modify.mpr ⟨b, hb, if_pos rfl⟩, rfl, rfl, rfl⟩
    · cases hg

/-- `brelse` drops one of the holders' references. -/
theorem brelse_accounts (hi : 0 < refs i) :
    Accounts (brelse c i) (fun j => refs j - if j = i then 1 else 0) P := by
  have hdec : Accounts (c.modify i fun b => { b with refcnt := b.refcnt - 1 })
      (fun j => refs j - if j = i then 1 else 0) P := by
    refine h.setRefcnt _ h.present ?_ ?_ ?_
    · intro b hb hid
      rw [h.refcnt b hb, hid, if_pos rfl]
      omega
    · intro b hb _ hpos
      exact h.dev b hb (by omega)
    · intro b hb hid
      rw [if_neg hid]
      exact h.refcnt b hb
  simp only [brelse]
  split
  · refine hdec.of_perm ?_
    simp only [Bcache.toFront, decide_not]
    exact filter_append_perm _ _
  · exact hdec

/-- `bpin` of a buffer whose block becomes pinned. -/
theorem bpin_accounts (hb : b ∈ c.bufs) (hdev : b.dev = ROOTDEV) (hx : b.blockno ∉ P) :
    Accounts (bpin c b.id) refs (P ++ [b.blockno]) := by
  refine h.setRefcnt _ ?_ ?_ ?_ ?_
  · intro y hy
    rcases mem_append.mp hy with hy | hy
    · exact h.present y hy
    · exact ⟨b, hb, hdev, (mem_singleton.mp hy).symm⟩
  · intro b' hb' hid
    have heq := h.eq_of_id hb' hb hid
    subst heq
    rw [h.refcnt b' hb']
    simp [hdev, hx]
  · intro b' hb' hid _
    rw [h.eq_of_id hb' hb hid, hdev]
  · intro b' hb' hid
    have hno : b'.dev = ROOTDEV → b'.blockno ≠ b.blockno := by
      intro hdev' hno
      exact hid (h.uniq b' hb' b hb (by rw [hdev', hdev]) hno (by rw [hdev']; decide))
    rw [h.refcnt b' hb']
    by_cases hd : b'.dev = ROOTDEV
    · simp [hd, hno hd]
    · simp [hd]

end

/-- `bunpin` of the buffer of a pinned block. -/
theorem bunpin_accounts (h : Accounts c refs (x :: P)) (hx : x ∉ P) (hb : b ∈ c.bufs)
    (hdev : b.dev = ROOTDEV) (hno : b.blockno = x) :
    Accounts (bunpin c b.id) refs P := by
  refine h.setRefcnt _ (fun y hy => h.present y (mem_cons_of_mem x hy)) ?_ ?_ ?_
  · intro b' hb' hid
    have heq := h.eq_of_id hb' hb hid
    subst heq
    rw [h.refcnt b' hb']
    simp [hdev, hno, hx]
  · intro b' hb' hid _
    rw [h.eq_of_id hb' hb hid, hdev]
  · intro b' hb' hid
    have hne : b'.dev = ROOTDEV → b'.blockno ≠ x := by
      intro hdev' hno'
      exact hid (h.uniq b' hb' b hb (by rw [hdev', hdev]) (by rw [hno', hno]) (by rw [hdev']; decide))
    rw [h.refcnt b' hb']
    by_cases hd : b'.dev = ROOTDEV
    · simp [hd, hne hd]
    · simp [hd]

/-! ## When `bget` finds a buffer -/

/-- A cached block is found. -/
theorem bget_of_cached (hb : b ∈ c.bufs) (hdev : b.dev = ROOTDEV) (hno : b.blockno = x) :
    bget c ROOTDEV x ≠ none := by
  have hfind : (c.bufs.find? fun b => b.dev = ROOTDEV ∧ b.blockno = x) ≠ none := by
    rw [Ne, find?_eq_none]
    intro hall
    exact hall b hb (by simp [hdev, hno])
  simp only [bget]
  split
  · simp
  · next hnone => exact absurd hnone hfind

/-- An idle buffer is found if nothing else is. -/
theorem bget_of_idle (hb : b ∈ c.bufs) (hidle : b.refcnt = 0) :
    bget c ROOTDEV x ≠ none := by
  simp only [bget]
  split
  · simp
  · split
    · simp
    · next hnone =>
      rw [find?_eq_none] at hnone
      exact absurd hidle (by simpa using hnone b (mem_reverse.mpr hb))

variable (h : Accounts c refs P)
include h

/-- With nothing held and fewer than `NBUF` blocks pinned some buffer is idle. -/
theorem Accounts.exists_idle (hrefs : ∀ j, refs j = 0) (hlen : P.length < NBUF) :
    ∃ b ∈ c.bufs, b.refcnt = 0 := by
  by_contra hnone
  have hbusy : ∀ b ∈ c.bufs, b.dev = ROOTDEV ∧ b.blockno ∈ P := by
    intro b hb
    by_contra hidle
    have hcnt := h.refcnt b hb
    rw [hrefs, if_neg hidle] at hcnt
    exact hnone ⟨b, hb, hcnt⟩
  -- the blocks of the buffers are distinct and all pinned
  have hnodup : (c.bufs.map Buf.blockno).Nodup := by
    refine List.Nodup.map_on ?_ h.nodup.of_map
    intro b hb b' hb' hno
    have hdev := (hbusy b hb).1
    refine h.eq_of_id hb hb' (h.uniq b hb b' hb' ?_ hno (by rw [hdev]; decide))
    rw [hdev, (hbusy b' hb').1]
  have hsub : (c.bufs.map Buf.blockno).Subperm P := by
    refine hnodup.subperm fun y hy => ?_
    obtain ⟨b, hb, rfl⟩ := mem_map.mp hy
    exact (hbusy b hb).2
  have hle := hsub.length_le
  rw [length_map, h.length] at hle
  omega

/-- There is room for at most `NBUF` pinned blocks. -/
theorem Accounts.pinned_le (hnodup : P.Nodup) : P.length ≤ NBUF := by
  have hsub : P.Subperm (c.bufs.map Buf.blockno) := by
    refine hnodup.subperm fun x hx => ?_
    obtain ⟨b, hb, -, rfl⟩ := h.present x hx
    exact mem_map_of_mem hb
  have hle := hsub.length_le
  rwa [length_map, h.length] at hle

/-- With `NBUF` blocks pinned every buffer holds one of them. -/
theorem Accounts.all_pinned (hnodup : P.Nodup) (hlen : P.length = NBUF) (hb : b ∈ c.bufs) :
    b.dev = ROOTDEV ∧ b.blockno ∈ P := by
  -- one buffer for each pinned block: as many as there are buffers
  have hsub : P.Subperm ((c.bufs.filter fun b => b.dev = ROOTDEV ∧ b.blockno ∈ P).map Buf.blockno) := by
    refine hnodup.subperm fun x hx => ?_
    obtain ⟨b', hb', hdev, rfl⟩ := h.present x hx
    exact mem_map_of_mem (mem_filter.mpr ⟨hb', by simp [hdev, hx]⟩)
  have hle := hsub.length_le
  rw [length_map, hlen, ← h.length] at hle
  have hall := length_filter_eq_length_iff.mp (Nat.le_antisymm (length_filter_le _ _) hle)
  simpa using hall b hb

/-- Then a block that is not cached cannot be had. -/
theorem Accounts.bget_none (hnodup : P.Nodup) (hlen : P.length = NBUF) (hx : x ∉ P) :
    bget c ROOTDEV x = none := by
  have hmiss : (c.bufs.find? fun b => b.dev = ROOTDEV ∧ b.blockno = x) = none := by
    rw [find?_eq_none]
    intro b hb
    have hpin := (h.all_pinned hnodup hlen hb).2
    simp only [decide_eq_true_eq, not_and]
    rintro - rfl
    exact hx hpin
  have hbusy : (c.bufs.reverse.find? fun b => b.refcnt = 0) = none := by
    rw [find?_eq_none]
    intro b hb
    have hb := mem_reverse.mp hb
    have hcnt := h.refcnt b hb
    rw [if_pos (h.all_pinned hnodup hlen hb)] at hcnt
    simp [hcnt]
  simp only [bget]
  split
  · next b hb =>
    rw [hmiss] at hb
    cases hb
  · split
    · next b hb =>
      rw [hbusy] at hb
      cases hb
    · rfl

end Xv6.Bio
