import Xv6.Umalloc.Ring

/-!
# Xv6.Umalloc.Heap — free blocks and live blocks

The free blocks and those that the program holds have no byte in common and together are what
`sbrk` has granted. `malloc` takes a block from the end of a free one; the scan comes by every
free block before it asks for more memory, and finds the new block when it has got it. This
holds as long as a size, which is a `uint`, can count what was granted.
-/

namespace Xv6.Umalloc

open Lib List

/-- The blocks that the program holds. -/
def St.blocks (s : St) : List Span :=
  s.live.map fun l => (l.1 - HSIZE, (s.mem (l.1 - HSIZE)).size)

/-- The free blocks are `F`, and they and the live ones make up what was granted. -/
structure Sound (prog : Program) (s : St) (F : List Span) : Prop where
  list : FreeList prog s F
  apart : (F ++ s.blocks).Pairwise (Apart HSIZE)
  covers : ∀ b, Covers HSIZE (F ++ s.blocks) b ↔ Covers HSIZE s.granted b
  units : units (F ++ s.blocks) = units s.granted
  room : ∀ l ∈ s.live, HSIZE ≤ l.1 ∧ l.2 + HSIZE ≤ HSIZE * (s.mem (l.1 - HSIZE)).size
  granted : ∀ x ∈ s.granted, prog.heap ≤ x.1 ∧ x.stop HSIZE ≤ s.brk
  brk : prog.heap ≤ s.brk

/-- Before the first call there is no list. -/
structure Fresh (prog : Program) (s : St) : Prop where
  freep : s.freep = 0
  brk : s.brk = prog.heap
  granted : s.granted = []
  live : s.live = []

section
variable {prog : Program} {s t : St} {F F' : List Span} {x y : Span} {n : Nat}

/-- A live block has room for its header at least. -/
theorem blocks_pos
    (hroom : ∀ l ∈ s.live, HSIZE ≤ l.1 ∧ l.2 + HSIZE ≤ HSIZE * (s.mem (l.1 - HSIZE)).size)
    (hx : x ∈ s.blocks) : 0 < x.2 := by
  rcases mem_map.mp hx with ⟨l, hl, rfl⟩
  have hl' := (hroom l hl).2
  refine Nat.pos_of_ne_zero fun h0 => ?_
  change (s.mem (l.1 - HSIZE)).size = 0 at h0
  rw [h0] at hl'
  exact absurd hl' (by have := hsize_pos; omega)

theorem Sound.pos (h : Sound prog s F) (hx : x ∈ F ++ s.blocks) : 0 < x.2 := by
  rcases mem_append.mp hx with hx | hx
  · exact h.list.pos x hx
  · exact blocks_pos h.room hx

/-- Every block is in the heap. -/
theorem Sound.inside (h : Sound prog s F) (hx : x ∈ F ++ s.blocks) :
    prog.heap ≤ x.1 ∧ x.stop HSIZE ≤ s.brk := by
  have hpos := h.pos hx
  have hbyte : ∀ b, x.Has HSIZE b → prog.heap ≤ b ∧ b < s.brk := by
    intro b hb
    rcases (h.covers b).mp ⟨x, hx, hb⟩ with ⟨g, hg, hgb⟩
    have hin := h.granted g hg
    exact ⟨le_trans hin.1 hgb.1, lt_of_lt_of_le hgb.2 hin.2⟩
  have hfirst := hbyte x.1 (Span.has_start hsize_pos hpos)
  have hunit : 0 < HSIZE * x.2 := Nat.mul_pos hsize_pos hpos
  have hlast := hbyte (x.1 + HSIZE * x.2 - 1) ⟨by omega, by unfold Span.stop; omega⟩
  unfold Span.stop
  omega

/-- Two blocks have two headers. -/
theorem ne_of_apart (h : Apart HSIZE x y) (hx : 0 < x.2) (hy : 0 < y.2) : x.1 ≠ y.1 := by
  intro heq
  refine h x.1 ⟨Span.has_start hsize_pos hx, ?_⟩
  rw [heq]
  exact Span.has_start hsize_pos hy

theorem Sound.freep_ne (h : Sound prog s F) : s.freep ≠ 0 := by
  rcases h.list.freep with ⟨c, hc, heq⟩
  have hbase := prog.base_pos
  rw [heq]
  rcases mem_cons.mp hc with rfl | hc
  · exact Nat.ne_of_gt hbase
  · have hlt := (pairwise_cons.mp h.list.spaced).1 c hc
    unfold Span.stop at hlt
    omega

/-- There is fuel for every loop over the ring. -/
theorem Sound.fuel (h : Sound prog s F) : 16 * F.length + 16 ≤ s.brk := by
  have hspaced : Spaced HSIZE F := (pairwise_cons.mp h.list.spaced).2
  have hlen := hspaced.length_le h.brk fun x hx => by
    have hin := h.inside (mem_append_left s.blocks hx)
    exact ⟨hin.1, h.list.pos x hx, hin.2⟩
  have hbase := prog.base_le
  unfold HSIZE at *
  omega

/-- The live blocks stay where the headers do. -/
theorem blocks_congr (hlive : t.live = s.live)
    (hmem : ∀ x ∈ s.blocks, (t.mem x.1).size = (s.mem x.1).size) : t.blocks = s.blocks := by
  unfold St.blocks at *
  rw [hlive]
  refine map_congr_left fun l hl => ?_
  have hsame := hmem _ (mem_map_of_mem hl)
  exact congrArg (Prod.mk _) hsame

/-! ## Taking a block -/

/-- The block `b` is the end of the free block `y`, of which `R` is left. -/
theorem Sound.take {P Q R : List Span} {b : Span} {p : Nat} (h : Sound prog s (P ++ y :: Q))
    (hlist : FreeList prog t (P ++ R ++ Q)) (hsplit : ∀ c, y.Has HSIZE c ↔
      Covers HSIZE R c ∨ b.Has HSIZE c) (hR : R.Pairwise (Apart HSIZE))
    (hRb : ∀ x ∈ R, Apart HSIZE x b) (hunits : y.2 = Lib.units R + b.2)
    (hb : b = (p - HSIZE, (t.mem (p - HSIZE)).size)) (hp : HSIZE ≤ p)
    (hroom : n + HSIZE ≤ HSIZE * b.2) (hlive : t.live = s.live)
    (hmem : ∀ x ∈ s.blocks, (t.mem x.1).size = (s.mem x.1).size) (hbrk : t.brk = s.brk)
    (hgranted : t.granted = s.granted) :
    Sound prog { t with live := (p, n) :: t.live } (P ++ R ++ Q) := by
  have hblocks : St.blocks { t with live := (p, n) :: t.live } = b :: s.blocks := by
    rw [← blocks_congr hlive hmem, hb]
    rfl
  have hperm : (P ++ y :: Q ++ s.blocks).Perm (y :: (P ++ Q ++ s.blocks)) := by
    rw [append_assoc, cons_append, append_assoc]
    exact perm_middle
  have hperm' : (P ++ R ++ Q ++ b :: s.blocks).Perm (R ++ b :: (P ++ Q ++ s.blocks)) := by
    refine perm_iff_count.mpr fun a => ?_
    simp only [count_append, count_cons]
    omega
  have hold := (hperm.pairwise_iff (fun h => Apart.symm h)).mp h.apart
  rcases pairwise_cons.mp hold with ⟨hy, hrest⟩
  have hcovers := h.covers
  have hsame := h.units
  refine ⟨⟨hlist.ring, hlist.spaced, hlist.pos, hlist.freep⟩, ?_, fun c => ?_, ?_,
    fun l hl => ?_, ?_, ?_⟩
  · rw [hblocks]
    refine (hperm'.pairwise_iff (fun h => Apart.symm h)).mpr (pairwise_append.mpr ⟨hR,
      pairwise_cons.mpr ⟨fun z hz => ?_, hrest⟩, fun x hx z hz => ?_⟩)
    · exact (hy z hz).mono fun c hc => (hsplit c).mpr (.inr hc)
    · rcases mem_cons.mp hz with rfl | hz
      · exact hRb x hx
      · exact (hy z hz).mono fun c hc => (hsplit c).mpr (.inl ⟨x, hx, hc⟩)
  · rw [hblocks, hgranted, ← hcovers c]
    simp only [covers_append, covers_cons, hsplit c]
    tauto
  · rw [hblocks, hgranted, ← hsame]
    simp only [units_append, units_cons]
    omega
  · rcases mem_cons.mp hl with rfl | hl
    · refine ⟨hp, ?_⟩
      rw [hb] at hroom
      exact hroom
    · rw [hlive] at hl
      have hsize := hmem _ (mem_map_of_mem hl)
      have hl' := h.room l hl
      rw [← hsize] at hl'
      exact hl'
  · rw [hgranted, hbrk]
    exact h.granted
  · rw [hbrk]
    exact h.brk

/-- The free block to which the link of another one leads. -/
theorem FreeList.next {q : Nat} (h : FreeList prog s F) (hq : ∃ c ∈ (prog.base, 0) :: F, c.1 = q)
    (hy : y ∈ F) (hnext : (s.mem q).ptr = y.1) :
    ∃ C c D P, (prog.base, 0) :: F = C ++ c :: y :: D ∧ c.1 = q ∧ (prog.base, 0) :: P = C ++ [c] ∧
      F = P ++ y :: D := by
  rcases hq with ⟨c, hc, rfl⟩
  rcases append_of_mem hc with ⟨C, D, hN⟩
  have hring := h.ring
  rw [hN] at hring
  rcases links_gap hring with ⟨-, -, hD⟩
  rw [hnext] at hD
  have hbase := (pairwise_cons.mp h.spaced).1 y hy
  cases D with
  | nil =>
    have heq : y.1 = prog.base := hD
    unfold Span.stop at hbase
    omega
  | cons d D =>
    rcases links_cons.mp hD with ⟨rfl, -⟩
    have hsize := h.ring.val_eq (mem_cons_of_mem _ hy)
    have hd : (y.1, (s.mem y.1).size) = y := Prod.ext rfl hsize
    rw [hd] at hN
    cases C with
    | nil =>
      rw [nil_append, List.cons.injEq] at hN
      exact ⟨[], c, D, [], by rw [hN.1, hN.2]; rfl, rfl, by rw [hN.1]; rfl, hN.2⟩
    | cons a C =>
      rw [cons_append, List.cons.injEq] at hN
      refine ⟨a :: C, c, D, C ++ [c], by rw [hN.1, hN.2]; rfl, rfl, by rw [hN.1]; rfl, ?_⟩
      rw [hN.2, append_assoc]
      rfl

/-- The block behind `c` is taken out of the ring. -/
theorem FreeList.unlink {C D P : List Span} {c : Span} (h : FreeList prog s (P ++ y :: D))
    (hN : (prog.base, 0) :: (P ++ y :: D) = C ++ c :: y :: D)
    (hP : (prog.base, 0) :: P = C ++ [c]) :
    FreeList prog { s.setPtr c.1 (s.mem y.1).ptr with freep := c.1 } (P ++ D) := by
  have hring := h.ring
  have hspaced := h.spaced
  have hN' : (prog.base, 0) :: (P ++ D) = C ++ c :: D := by
    rw [← cons_append, hP, append_assoc]
    rfl
  rw [hN] at hring hspaced
  rcases links_gap hring with ⟨hringC, hsizec, hringy⟩
  rcases Spaced.split hspaced with ⟨hC, hD, -, -⟩
  have hbelow := fun x : Span => Span.le_stop (u := HSIZE) (x := x)
  have hringD : Links s.mem (s.mem y.1).ptr D prog.base := by
    rcases links_cons.mp hringy with ⟨hy, hD⟩
    rw [hy]
    exact hD
  refine ⟨?_, ?_, fun x hx => h.pos x ?_, ⟨c, by rw [hN']; simp, rfl⟩⟩
  · rw [hN']
    refine seg_append.mpr ⟨c.1, Links.congr hringC fun x hx => ?_, links_cons.mpr ⟨?_, ?_⟩⟩
    · refine setPtr_of_ne (Nat.ne_of_lt ?_)
      exact lt_of_le_of_lt (hbelow x) (hC x hx)
    · rw [setPtr_self, hsizec]
    · rw [setPtr_self]
      refine Links.congr hringD fun x hx => setPtr_of_ne (Nat.ne_of_gt ?_)
      exact lt_of_le_of_lt (hbelow c) (hD x (mem_cons_of_mem _ hx))
  · rw [hN']
    refine hspaced.sublist (List.Sublist.append_left ?_ C)
    exact List.Sublist.cons_cons c (sublist_cons_self y D)
  · rcases mem_append.mp hx with hx | hx
    · exact mem_append_left _ hx
    · exact mem_append_right _ (mem_cons_of_mem _ hx)

/-- The end of a block is cut off. -/
theorem FreeList.cut {P D : List Span} {k m q : Nat} (h : FreeList prog s (P ++ y :: D))
    (hq : ∃ c ∈ (prog.base, 0) :: (P ++ y :: D), c.1 = q) (hk : 0 < k) (hm : 0 < m)
    (hsize : y.2 = k + m) :
    FreeList prog { (s.setSize y.1 k).setSize (y.1 + HSIZE * k) m with freep := q }
      (P ++ (y.1, k) :: D) := by
  have hring := h.ring
  have hspaced := h.spaced
  rw [← cons_append] at hring hspaced
  rcases links_gap hring with ⟨hringP, -, hringD⟩
  rcases Spaced.split hspaced with ⟨hP, hD, -, -⟩
  have hbelow := fun x : Span => Span.le_stop (u := HSIZE) (x := x)
  have hpos := hsize_pos
  have hstop : y.stop HSIZE = y.1 + HSIZE * k + HSIZE * m := by
    rw [Span.stop, hsize, Nat.mul_add, Nat.add_assoc]
  have hk' : 0 < HSIZE * k := Nat.mul_pos hpos hk
  have hm' : 0 < HSIZE * m := Nat.mul_pos hpos hm
  refine ⟨?_, ?_, fun x hx => ?_, ?_⟩
  · rw [← cons_append]
    refine seg_append.mpr ⟨y.1, Links.congr hringP fun x hx => ?_, links_cons.mpr ⟨?_, ?_⟩⟩
    · have hlt := hP x hx
      have hle := hbelow x
      show ((s.setSize y.1 k).setSize (y.1 + HSIZE * k) m).mem x.1 = _
      rw [setSize_of_ne (by omega), setSize_of_ne (by omega)]
    · show _ = (y.1, (((s.setSize y.1 k).setSize (y.1 + HSIZE * k) m).mem y.1).size)
      rw [setSize_of_ne (by omega), setSize_self]
    · show Links _ (((s.setSize y.1 k).setSize (y.1 + HSIZE * k) m).mem y.1).ptr D prog.base
      rw [setSize_of_ne (by omega), setSize_self]
      refine Links.congr hringD fun x hx => ?_
      have hlt := hD x hx
      show ((s.setSize y.1 k).setSize (y.1 + HSIZE * k) m).mem x.1 = _
      rw [setSize_of_ne (by omega), setSize_of_ne (by omega)]
  · rw [← cons_append]
    refine hspaced.shrink rfl ?_
    rw [hstop]
    exact Nat.le_add_right _ _
  · rcases mem_append.mp hx with hx | hx
    · exact h.pos x (mem_append_left _ hx)
    · rcases mem_cons.mp hx with rfl | hx
      · exact hk
      · exact h.pos x (mem_append_right _ (mem_cons_of_mem _ hx))
  · rcases hq with ⟨c, hc, rfl⟩
    by_cases hcy : c = y
    · exact ⟨(y.1, k), by simp, by rw [hcy]⟩
    · refine ⟨c, ?_, rfl⟩
      simp only [mem_cons, mem_append] at hc ⊢
      tauto

theorem take_spec {q nunits : Nat} (h : Sound prog s F)
    (hq : ∃ c ∈ (prog.base, 0) :: F, c.1 = q) (hy : y ∈ F) (hnext : (s.mem q).ptr = y.1)
    (hle : nunits ≤ y.2) (hpos : 0 < nunits) (hroom : n + HSIZE ≤ HSIZE * nunits) :
    (malloc.take nunits q y.1 s).1 ≠ 0 ∧ ∃ F', Sound prog { (malloc.take nunits q y.1 s).2 with
        live := ((malloc.take nunits q y.1 s).1, n) :: (malloc.take nunits q y.1 s).2.live } F' := by
  rcases h.list.next hq hy hnext with ⟨C, c, D, P, hN, rfl, hP, rfl⟩
  have hsize : (s.mem y.1).size = y.2 := h.list.ring.val_eq (by rw [hN]; simp)
  have hlive : ∀ x ∈ s.blocks, Apart HSIZE y x := fun x hx =>
    (pairwise_append.mp h.apart).2.2 y (by simp) x hx
  unfold malloc.take
  by_cases hwhole : y.2 = nunits
  · rw [hsize, if_pos hwhole]
    refine ⟨by have := hsize_pos; omega, P ++ [] ++ D, ?_⟩
    refine h.take (y := y) (b := y) (t := { s.setPtr c.1 (s.mem y.1).ptr with freep := c.1 }) ?_
      (fun a => ?_) List.Pairwise.nil (fun x hx => by cases hx) ?_ ?_ (Nat.le_add_left _ _) ?_ rfl
      (fun x hx => ?_) rfl rfl
    · rw [append_nil]
      exact h.list.unlink hN hP
    · exact ⟨.inr, fun ha => ha.resolve_left fun hno => by rcases hno with ⟨x, hx, -⟩; cases hx⟩
    · exact (Nat.zero_add _).symm
    · rw [Nat.add_sub_cancel]
      exact Prod.ext rfl (hsize.symm.trans setPtr_size.symm)
    · rwa [hwhole]
    · exact setPtr_size
  · rw [hsize, if_neg hwhole]
    obtain ⟨k, hk⟩ : ∃ k, y.2 = k + nunits := ⟨y.2 - nunits, by omega⟩
    have hk0 : 0 < k := by omega
    simp only [hk, Nat.add_sub_cancel]
    have hstop : y.stop HSIZE = y.1 + HSIZE * k + HSIZE * nunits := by
      rw [Span.stop, hk, Nat.mul_add, Nat.add_assoc]
    have hk' : 0 < HSIZE * k := Nat.mul_pos hsize_pos hk0
    have hn' : 0 < HSIZE * nunits := Nat.mul_pos hsize_pos hpos
    -- the header of a live block is not in `y`
    have hheader : ∀ x ∈ s.blocks, ∀ a, y.Has HSIZE a → x.1 ≠ a := by
      rintro x hx a ha rfl
      exact hlive x hx x.1 ⟨ha, Span.has_start hsize_pos (h.pos (mem_append_right _ hx))⟩
    refine ⟨by have := hsize_pos; omega, P ++ [(y.1, k)] ++ D, ?_⟩
    refine h.take (y := y) (b := (y.1 + HSIZE * k, nunits))
      (t := { (s.setSize y.1 k).setSize (y.1 + HSIZE * k) nunits with freep := c.1 }) ?_
      (fun a => ?_) (pairwise_singleton _ _) (fun x hx => ?_) ?_ ?_ (Nat.le_add_left _ _)
      hroom rfl (fun x hx => ?_) rfl rfl
    · rw [append_assoc]
      exact h.list.cut hq hk0 hpos hk
    · unfold Covers Span.Has
      rw [hstop]
      simp only [mem_singleton, exists_eq_left, Span.stop]
      omega
    · rw [mem_singleton.mp hx]
      exact apart_of_le le_rfl
    · rw [units_cons, hk]
      rfl
    · rw [Nat.add_sub_cancel]
      refine Prod.ext rfl ?_
      show nunits = (((s.setSize y.1 k).setSize (y.1 + HSIZE * k) nunits).mem _).size
      rw [setSize_self]
    · show (((s.setSize y.1 k).setSize (y.1 + HSIZE * k) nunits).mem x.1).size = _
      rw [setSize_of_ne (hheader x hx _ ⟨by omega, by omega⟩),
        setSize_of_ne (hheader x hx _ ⟨by omega, by omega⟩)]

/-! ## Giving a block back -/

/-- The block `bp` has become free, and `live` is what the program still holds. -/
theorem Freed.sound {bp : Nat} (hf : Freed prog bp n F s F' t) (live : List (Nat × Nat))
    (hlist : FreeList prog s F) (hpos : 0 < n)
    (hapart : (F ++ (bp, n) :: St.blocks { s with live := live }).Pairwise (Apart HSIZE))
    (hcovers : ∀ b, Covers HSIZE (F ++ (bp, n) :: St.blocks { s with live := live }) b ↔
      Covers HSIZE s.granted b)
    (hunits : Lib.units (F ++ (bp, n) :: St.blocks { s with live := live }) = Lib.units s.granted)
    (hroom : ∀ l ∈ live, HSIZE ≤ l.1 ∧ l.2 + HSIZE ≤ HSIZE * (s.mem (l.1 - HSIZE)).size)
    (hgranted : ∀ x ∈ s.granted, prog.heap ≤ x.1 ∧ x.stop HSIZE ≤ s.brk)
    (hbrk : prog.heap ≤ s.brk) : Sound prog { t with live := live } F' := by
  rcases pairwise_append.mp hapart with ⟨hF, hbB, hcross⟩
  rcases pairwise_cons.mp hbB with ⟨hb, hB⟩
  have hposB : ∀ x ∈ St.blocks { s with live := live }, 0 < x.2 := fun x => blocks_pos hroom
  -- no header of a live block is written to
  have hframe : ∀ x ∈ St.blocks { s with live := live }, t.mem x.1 = s.mem x.1 := by
    intro x hx
    refine hf.frame x.1 (ne_of_apart (hb x hx) hpos (hposB x hx)).symm fun y hy => ?_
    rcases mem_cons.mp hy with rfl | hy
    · rcases (hcovers x.1).mp ⟨x, by simp [hx], Span.has_start hsize_pos (hposB x hx)⟩ with
        ⟨g, hg, hgx⟩
      have hin := (hgranted g hg).1
      have hbase := prog.base_le
      have hsize := hsize_pos
      have hle := hgx.1
      show x.1 ≠ prog.base
      omega
    · exact (ne_of_apart (hcross y hy x (by simp [hx])) (hlist.pos y hy) (hposB x hx)).symm
  have hblocks : St.blocks { t with live := live } = St.blocks { s with live := live } :=
    blocks_congr rfl fun x hx => congrArg Header.size (hframe x hx)
  have hrest := hf.rest
  have hgranted' : t.granted = s.granted := by rw [hrest]
  have hbrk' : t.brk = s.brk := by rw [hrest]
  have hspaced : Spaced HSIZE F' := (pairwise_cons.mp hf.list.spaced).2
  refine ⟨⟨hf.list.ring, hf.list.spaced, hf.list.pos, hf.list.freep⟩, ?_, fun c => ?_, ?_,
    fun l hl => ?_, ?_, ?_⟩
  · rw [hblocks]
    refine pairwise_append.mpr ⟨hspaced.apart, hB, fun x hx y hy c hc => ?_⟩
    rcases (hf.covers c).mp ⟨x, hx, hc.1⟩ with hbc | ⟨z, hz, hzc⟩
    · exact hb y hy c ⟨hbc, hc.2⟩
    · exact hcross z hz y (mem_cons_of_mem _ hy) c ⟨hzc, hc.2⟩
  · rw [hblocks]
    show _ ↔ Covers HSIZE t.granted c
    rw [hgranted', ← hcovers c]
    simp only [covers_append, covers_cons, hf.covers c]
    tauto
  · rw [hblocks]
    show _ = Lib.units t.granted
    rw [hgranted', ← hunits]
    simp only [units_append, units_cons, hf.units]
    omega
  · have hsame := hframe _ (mem_map_of_mem hl)
    have hl' := hroom l hl
    rw [← hsame] at hl'
    exact hl'
  · show ∀ x ∈ t.granted, prog.heap ≤ x.1 ∧ x.stop HSIZE ≤ t.brk
    rw [hgranted', hbrk']
    exact hgranted
  · show prog.heap ≤ t.brk
    rw [hbrk']
    exact hbrk

/-- The program frees a block that it holds. -/
theorem Sound.free {l : Nat × Nat} (h : Sound prog s F) (hl : l ∈ s.live)
    (hsum : Lib.units s.granted < 2 ^ 32) :
    ∃ t F', Umalloc.free s.fuel l.1 s = some t ∧ Sound prog { t with live := s.live.erase l } F' := by
  have hroom := h.room l hl
  have hperm : s.blocks.Perm ((l.1 - HSIZE, (s.mem (l.1 - HSIZE)).size) ::
      St.blocks { s with live := s.live.erase l }) :=
    (perm_cons_erase hl).map _
  have hall := hperm.append_left F
  have hmem : (l.1 - HSIZE, (s.mem (l.1 - HSIZE)).size) ∈ s.blocks := hperm.mem_iff.mpr (by simp)
  have hpos := h.pos (mem_append_right F hmem)
  have hin := h.inside (mem_append_right F hmem)
  have hunits := h.units
  rw [units_perm hall] at hunits
  have hsum' := hunits
  rw [units_append, units_cons] at hsum'
  have hfuel := h.fuel
  rcases free_spec (l.1 - HSIZE) s.fuel h.list
    (lt_of_lt_of_le (by have := prog.base_le; have := hsize_pos; omega) hin.1) rfl hpos
    (fun x hx => (pairwise_append.mp h.apart).2.2 x hx _ hmem) (by omega)
    (by unfold St.fuel; omega) with ⟨t, F', hrun, hfreed⟩
  rw [Nat.sub_add_cancel hroom.1] at hrun
  refine ⟨t, F', hrun, hfreed.sound _ h.list hpos ?_ (fun c => ?_) hunits (fun l' hl' => ?_)
    h.granted h.brk⟩
  · exact (hall.pairwise_iff (fun h => Apart.symm h)).mp h.apart
  · rw [← covers_perm hall, h.covers]
  · exact h.room l' (mem_of_mem_erase hl')

end

end Xv6.Umalloc
