import Xv6.Umalloc.Heap

/-!
# Xv6.Umalloc.Malloc — malloc, and every run

The scan of `malloc` goes once around the ring. If no block is large enough it comes back to
where it started, where it asks for more memory; a second time around it finds a block.
-/

namespace Xv6.Umalloc

open Lib List

section
variable {prog : Program} {s t : St} {F F' V : List Span} {x y : Span}
  {n nu nunits fuel fuel' k p q r z : Nat}

/-! ## More memory -/

theorem le_amount : nu ≤ morecore.amount nu := by
  unfold morecore.amount
  split <;> omega

theorem amount_pos : 0 < morecore.amount nu := by
  unfold morecore.amount NALLOC
  split <;> omega

/-- The new memory becomes a free block. -/
theorem morecore_spec {gap : Nat} (h : Sound prog s F) (hsbrk : s.sbrk 0 = some gap)
    (hsum : units s.granted + morecore.amount nu < 2 ^ 32) (hfuel : 2 * (F.length + 1) ≤ fuel) :
    ∃ t F', morecore fuel nu s = some (t.freep, t) ∧ Sound prog t F' ∧
      (∃ x ∈ F', nu ≤ x.2) ∧ F'.length ≤ F.length + 1 := by
  let s₁ : St := { s with
    sbrk := fun k => s.sbrk (k + 1)
    brk := s.brk + gap + HSIZE * morecore.amount nu
    granted := (s.brk + gap, morecore.amount nu) :: s.granted }
  let s₂ := s₁.setSize (s.brk + gap) (morecore.amount nu)
  have hold : ∀ x ∈ F ++ s.blocks, x.1 ≠ s.brk + gap := by
    intro x hx
    have hin := (h.inside hx).2
    have hpos : 0 < HSIZE * x.2 := Nat.mul_pos hsize_pos (h.pos hx)
    unfold Span.stop at hin
    omega
  have hbase := prog.base_le
  have hbrk := h.brk
  have hsize := hsize_pos
  have hkeep : ∀ a ≠ s.brk + gap, s₂.mem a = s.mem a := fun a ha => setSize_of_ne ha
  have hlist : FreeList prog s₂ F := by
    refine ⟨Links.congr h.list.ring fun x hx => hkeep x.1 ?_, h.list.spaced, h.list.pos,
      h.list.freep⟩
    rcases mem_cons.mp hx with rfl | hx
    · show prog.base ≠ _
      omega
    · exact hold x (mem_append_left _ hx)
  have hblocks : St.blocks { s₂ with live := s.live } = s.blocks :=
    blocks_congr rfl fun x hx => congrArg Header.size (hkeep x.1 (hold x (by simp [hx])))
  have hnew : ∀ x ∈ F ++ s.blocks, Apart HSIZE x (s.brk + gap, morecore.amount nu) := fun x hx =>
    apart_of_le (le_trans (h.inside hx).2 (Nat.le_add_right _ _))
  have hself : (s₂.mem (s.brk + gap)).size = morecore.amount nu := by
    show ((s₁.setSize _ _).mem _).size = _
    rw [setSize_self]
  have hunits := h.units
  rw [units_append] at hunits
  rcases free_spec _ _ hlist (by omega) hself amount_pos
    (fun x hx => hnew x (mem_append_left _ hx)) (by omega) hfuel with
    ⟨t, F', hrun, hfreed⟩
  have hperm : (F ++ (s.brk + gap, morecore.amount nu) :: s.blocks).Perm
      ((s.brk + gap, morecore.amount nu) :: (F ++ s.blocks)) := perm_middle
  have hlive : t.live = s.live := by rw [hfreed.rest]; rfl
  refine ⟨t, F', ?_, ?_, ?_, hfreed.length⟩
  · unfold morecore
    simp only [hsbrk]
    change Option.map _ (free fuel (s.brk + gap + HSIZE) s₂) = _
    rw [hrun]
    rfl
  · have hsound := hfreed.sound s.live hlist amount_pos ?_ (fun c => ?_) ?_
      (fun l hl => ?_) (fun x hx => ?_) ?_
    · rw [← hlive] at hsound
      exact hsound
    · rw [hblocks]
      refine (hperm.pairwise_iff (fun h => Apart.symm h)).mpr (pairwise_cons.mpr
        ⟨fun x hx => (hnew x hx).symm, h.apart⟩)
    · rw [hblocks, covers_perm hperm, covers_cons, h.covers]
      exact covers_cons.symm
    · rw [hblocks, units_perm hperm, units_cons, h.units]
      exact units_cons.symm
    · have hroom := h.room l hl
      have hsame := hkeep _ (hold (l.1 - HSIZE, (s.mem (l.1 - HSIZE)).size)
        (mem_append_right _ (mem_map_of_mem hl)))
      rw [← hsame] at hroom
      exact hroom
    · rcases mem_cons.mp hx with rfl | hx
      · exact ⟨by show prog.heap ≤ s.brk + gap; omega, Nat.le_refl _⟩
      · have hin := h.granted x hx
        refine ⟨hin.1, le_trans hin.2 ?_⟩
        show s.brk ≤ s.brk + gap + HSIZE * morecore.amount nu
        omega
    · show prog.heap ≤ s.brk + gap + HSIZE * morecore.amount nu
      omega
  · rcases hfreed.large with ⟨x, hx, hle⟩
    exact ⟨x, hx, le_trans le_amount hle⟩

/-! ## The scan -/

theorem loop_succ : malloc.loop fuel nunits (k + 1) q p s =
    if nunits ≤ (s.mem p).size then some (malloc.take nunits q p s)
    else if p = s.freep then
      match morecore fuel nunits s with
      | none => none
      | some (p, s) =>
        if p = 0 then some (0, s) else malloc.loop fuel nunits k p (s.mem p).ptr s
    else malloc.loop fuel nunits k p (s.mem p).ptr s := rfl

/-- From `p` to the block at which the scan has started: a block is found and taken, or all are
too small. -/
theorem scan_spec (fuel nunits : Nat) (hV : Links s.mem p (V ++ [x]) z) (hx : x.1 = s.freep)
    (hne : ∀ v ∈ V, v.1 ≠ s.freep) (hnode : ∀ v ∈ V ++ [x], v ∈ (prog.base, 0) :: F)
    (hq : ∃ c ∈ (prog.base, 0) :: F, c.1 = q) (hnext : (s.mem q).ptr = p) :
    (∃ q' y, y ∈ (prog.base, 0) :: F ∧ nunits ≤ y.2 ∧ (∃ c ∈ (prog.base, 0) :: F, c.1 = q') ∧
      (s.mem q').ptr = y.1 ∧ malloc.loop fuel nunits (k + V.length + 1) q p s =
        some (malloc.take nunits q' y.1 s)) ∨
    ((∀ y ∈ V ++ [x], y.2 < nunits) ∧ ∃ q', malloc.loop fuel nunits (k + V.length + 1) q p s =
      malloc.loop fuel nunits (k + 1) q' s.freep s) := by
  induction V generalizing p q with
  | nil =>
    rcases links_cons.mp hV with ⟨rfl, -⟩
    by_cases hlarge : nunits ≤ (s.mem p).size
    · refine .inl ⟨q, _, hnode _ mem_cons_self, hlarge, hq, hnext, ?_⟩
      rw [loop_succ, if_pos hlarge]
    · refine .inr ⟨fun y hy => ?_, q, ?_⟩
      · rw [mem_singleton.mp hy]
        exact Nat.not_le.mp hlarge
      · rw [← hx]
        rfl
  | cons v V ih =>
    rcases links_cons.mp hV with ⟨rfl, hrest⟩
    have hv := hnode _ mem_cons_self
    by_cases hlarge : nunits ≤ (s.mem p).size
    · refine .inl ⟨q, _, hv, hlarge, hq, hnext, ?_⟩
      rw [loop_succ, if_pos hlarge]
    have hstep : malloc.loop fuel nunits (k + (V.length + 1) + 1) q p s =
        malloc.loop fuel nunits (k + V.length + 1) p (s.mem p).ptr s := by
      rw [loop_succ, if_neg hlarge, if_neg (hne _ mem_cons_self), Nat.add_assoc]
    rw [length_cons, hstep]
    rcases ih hrest (fun v hv => hne v (mem_cons_of_mem _ hv))
      (fun v hv => hnode v (mem_cons_of_mem _ hv)) ⟨_, hv, rfl⟩ rfl with hfound | hsmall
    · exact .inl hfound
    · refine .inr ⟨fun y hy => ?_, hsmall.2⟩
      rcases mem_cons.mp hy with rfl | hy
      · exact Nat.not_le.mp hlarge
      · exact hsmall.1 y hy

/-- Once around the ring. -/
theorem round_spec (h : FreeList prog s F) (hpos : 0 < nunits) :
    (∃ q y, y ∈ F ∧ nunits ≤ y.2 ∧ (∃ c ∈ (prog.base, 0) :: F, c.1 = q) ∧ (s.mem q).ptr = y.1 ∧
      malloc.loop fuel nunits (k + F.length + 1) s.freep (s.mem s.freep).ptr s =
        some (malloc.take nunits q y.1 s)) ∨
    ((∀ y ∈ F, y.2 < nunits) ∧ (s.mem s.freep).size < nunits ∧
      ∃ q, malloc.loop fuel nunits (k + F.length + 1) s.freep (s.mem s.freep).ptr s =
        malloc.loop fuel nunits (k + 1) q s.freep s) := by
  rcases h.freep with ⟨x, hx, hfreep⟩
  rcases append_of_mem hx with ⟨A, B, hN⟩
  have hring := h.ring
  have hspaced := h.spaced
  rw [hN] at hring hspaced
  rcases links_gap hring with ⟨hA, hsize, hB⟩
  rcases Spaced.split hspaced with ⟨hAx, hxB, -, -⟩
  have hbelow := fun x : Span => Span.le_stop (u := HSIZE) (x := x)
  have hround : Links s.mem (s.mem x.1).ptr ((B ++ A) ++ [x]) (s.mem x.1).ptr :=
    seg_append.mpr ⟨x.1, seg_append.mpr ⟨prog.base, hB, hA⟩, Prod.ext rfl hsize.symm, rfl⟩
  have hmem : ∀ v, v ∈ (B ++ A) ++ [x] ↔ v ∈ (prog.base, 0) :: F := by
    intro v
    rw [hN]
    simp only [mem_append, mem_cons, not_mem_nil]
    tauto
  have hlen : (B ++ A).length = F.length := by
    have hl := congrArg List.length hN
    simp only [length_cons, length_append] at hl ⊢
    omega
  have hne : ∀ v ∈ B ++ A, v.1 ≠ s.freep := by
    intro v hv
    rw [hfreep]
    rcases mem_append.mp hv with hv | hv
    · exact Nat.ne_of_gt (lt_of_le_of_lt (hbelow x) (hxB v hv))
    · exact Nat.ne_of_lt (lt_of_le_of_lt (hbelow v) (hAx v hv))
  have hscan := scan_spec (F := F) fuel nunits (k := k) hround hfreep.symm
    hne (fun v hv => (hmem v).mp hv) ⟨x, hx, rfl⟩ rfl
  rw [hlen] at hscan
  rw [hfreep] at hscan ⊢
  rcases hscan with ⟨q, y, hy, hle, hq, hnext, hrun⟩ | ⟨hsmall, q, hrun⟩
  · refine .inl ⟨q, y, (mem_cons.mp hy).resolve_left ?_, hle, hq, hnext, hrun⟩
    rintro rfl
    exact absurd hle (Nat.not_le.mpr hpos)
  · refine .inr ⟨fun y hy => ?_, ?_, q, hrun⟩
    · exact hsmall y ((hmem y).mpr (mem_cons_of_mem _ hy))
    · rw [hsize]
      exact hsmall x (by simp)

/-! ## malloc -/

theorem morecore_granted (h : morecore fuel nu s = some (r, t)) :
    units s.granted ≤ units t.granted ∧
      (∀ gap, s.sbrk 0 = some gap → units t.granted = units s.granted + morecore.amount nu) := by
  unfold morecore at h
  cases hsbrk : s.sbrk 0 with
  | none =>
    simp only [hsbrk, Option.some.injEq, Prod.mk.injEq] at h
    rw [← h.2]
    exact ⟨Nat.le_refl _, fun gap hgap => by cases hgap⟩
  | some gap =>
    simp only [hsbrk] at h
    rcases Option.map_eq_some_iff.mp h with ⟨u, hu, heq⟩
    cases heq
    have hsame : units t.granted = units s.granted + morecore.amount nu := by
      rw [free_rest hu]
      show units (_ :: s.granted) = _
      rw [units_cons]
      exact Nat.add_comm _ _
    exact ⟨by omega, fun _ _ => hsame⟩

theorem take_granted : (malloc.take nunits q p s).2.granted = s.granted := by
  unfold malloc.take
  split <;> rfl

/-- What was granted is never taken back. -/
theorem loop_granted (h : malloc.loop fuel nunits fuel' q p s = some (r, t)) :
    units s.granted ≤ units t.granted := by
  induction fuel' generalizing q p s with
  | zero => cases h
  | succ k ih =>
    rw [loop_succ] at h
    split at h
    · have ht : (malloc.take nunits q p s).2 = t := congrArg Prod.snd (Option.some.inj h)
      rw [← ht, take_granted]
    split at h
    · split at h
      · cases h
      · next p' u hmore =>
        have hle := (morecore_granted hmore).1
        split at h
        · cases h
          exact hle
        · exact le_trans hle (ih h)
    · exact ih h

/-- The loop returns a block, or 0 because `sbrk` has failed; or `sbrk` has granted more than
a size can count. -/
theorem loop_spec (h : Sound prog s F) (hpos : 0 < nunits) (hroom : n + HSIZE ≤ HSIZE * nunits)
    (hfuel : 2 * F.length + 4 ≤ fuel') (hfuel₀ : 2 * (F.length + 1) ≤ fuel) :
    (∃ r t F', malloc.loop fuel nunits fuel' s.freep (s.mem s.freep).ptr s = some (r, t) ∧
      r ≠ 0 ∧ Sound prog { t with live := (r, n) :: t.live } F') ∨
    (∃ t, malloc.loop fuel nunits fuel' s.freep (s.mem s.freep).ptr s = some (0, t) ∧
      Sound prog t F) ∨
    (∃ gap, s.sbrk 0 = some gap ∧ 2 ^ 32 ≤ units s.granted + morecore.amount nunits ∧
      ∀ r t, malloc.loop fuel nunits fuel' s.freep (s.mem s.freep).ptr s = some (r, t) →
        2 ^ 32 ≤ units t.granted) := by
  obtain ⟨k, rfl⟩ : ∃ k, fuel' = k + F.length + 1 := ⟨fuel' - F.length - 1, by omega⟩
  rcases round_spec (k := k) h.list hpos with
    ⟨q, y, hy, hle, hq, hnext, hrun⟩ | ⟨hsmall, hfreep, q, hrun⟩
  · -- the first time around
    rcases take_spec h hq hy hnext hle hpos hroom with ⟨hne, F', hsound⟩
    exact .inl ⟨_, _, F', hrun, hne, hsound⟩
  rw [hrun, loop_succ, if_neg (Nat.not_le.mpr hfreep), if_pos rfl]
  cases hsbrk : s.sbrk 0 with
  | none =>
    refine .inr (.inl ⟨{ s with sbrk := fun k => s.sbrk (k + 1) }, ?_, ?_⟩)
    · unfold morecore
      rw [hsbrk]
      rfl
    · exact ⟨⟨h.list.ring, h.list.spaced, h.list.pos, h.list.freep⟩, h.apart, h.covers, h.units,
        h.room, h.granted, h.brk⟩
  | some gap =>
    by_cases hsum : units s.granted + morecore.amount nunits < 2 ^ 32
    · rcases morecore_spec h hsbrk hsum hfuel₀ with ⟨u, F', hmore, hsound, ⟨x, hx, hle⟩, hlen⟩
      simp only [hmore, if_neg hsound.freep_ne]
      -- the second time around the new block is there
      obtain ⟨k', rfl⟩ : ∃ k', k = k' + F'.length + 1 := ⟨k - F'.length - 1, by omega⟩
      rcases round_spec (k := k') hsound.list hpos with
        ⟨q, y, hy, hle, hq, hnext, hrun'⟩ | ⟨hsmall', -, -⟩
      · rcases take_spec hsound hq hy hnext hle hpos hroom with ⟨hne, F'', hsound'⟩
        exact .inl ⟨_, _, F'', hrun', hne, hsound'⟩
      · exact absurd hle (Nat.not_le.mpr (hsmall' x hx))
    · refine .inr (.inr ⟨gap, rfl, Nat.not_lt.mp hsum, fun r t hres => ?_⟩)
      cases hmore : morecore fuel nunits s with
      | none =>
        rw [hmore] at hres
        cases hres
      | some pu =>
        rcases pu with ⟨p, u⟩
        have hunits := (morecore_granted hmore).2 gap hsbrk
        simp only [hmore] at hres
        have hle : units u.granted ≤ units t.granted := by
          split at hres
          · cases hres
            exact Nat.le_refl _
          · exact loop_granted hres
        omega

/-! ## Every run -/

/-- The free list is one ring in order of addresses with one wrap, in which no two blocks touch;
free and live blocks are disjoint and are all that was granted; a live block has room for what
was asked for. Before the first call there is nothing. -/
def Integrity (prog : Program) (s : St) : Prop := Fresh prog s ∨ ∃ F, Sound prog s F

theorem start_rest : (malloc.start prog s).brk = s.brk ∧
    (malloc.start prog s).granted = s.granted ∧ (malloc.start prog s).live = s.live := by
  unfold malloc.start
  split
  · exact ⟨rfl, rfl, rfl⟩
  · exact ⟨rfl, rfl, rfl⟩

theorem Fresh.start (h : Fresh prog s) : Sound prog (malloc.start prog s) [] := by
  obtain ⟨hbrk, hgranted, hlive⟩ : (malloc.start prog s).brk = _ ∧ _ := start_rest
  rw [h.granted] at hgranted
  rw [h.live] at hlive
  have hblocks : (malloc.start prog s).blocks = [] := by rw [St.blocks, hlive, map_nil]
  have hbase : (malloc.start prog s).mem prog.base = ⟨prog.base, 0⟩ := by
    rw [malloc.start, if_pos h.freep]
    show ((s.setPtr prog.base prog.base).setSize prog.base 0).mem prog.base = _
    rw [setSize_self, setPtr_self]
  refine ⟨⟨links_cons.mpr ?_, pairwise_singleton _ _, nofun,
    ⟨_, mem_cons_self, ?_⟩⟩, ?_, fun b => ?_, ?_, fun l hl => ?_, fun x hx => ?_, ?_⟩
  · rw [hbase]
    exact ⟨rfl, rfl⟩
  · rw [malloc.start, if_pos h.freep]
  · rw [hblocks]
    exact List.Pairwise.nil
  · rw [hblocks, hgranted]
    rfl
  · rw [hblocks, hgranted]
    rfl
  · rw [hlive] at hl
    cases hl
  · rw [hgranted] at hx
    cases hx
  · exact Nat.le_of_eq (h.brk.symm.trans hbrk.symm)

/-- After the first lines of `malloc` there is a ring. -/
theorem Integrity.start (h : Integrity prog s) : ∃ F, Sound prog (malloc.start prog s) F := by
  rcases h with h | ⟨F, h⟩
  · exact ⟨[], h.start⟩
  · refine ⟨F, ?_⟩
    rwa [malloc.start, if_neg h.freep_ne]

/-- The units for `nbytes` bytes and a header. -/
theorem room_nunits : n + HSIZE ≤ HSIZE * ((n + HSIZE - 1) / HSIZE + 1) := by
  unfold HSIZE
  omega

/-- `malloc` in a sound state. -/
theorem malloc_spec (h : Integrity prog s) (hn : n < 2 ^ 32) :
    (∃ t, step prog s (.malloc n) = some t ∧ Integrity prog t) ∨
    (2 ^ 32 ≤ units s.granted + morecore.amount ((n + HSIZE - 1) / HSIZE + 1) ∧
      ∀ t, step prog s (.malloc n) = some t → 2 ^ 32 ≤ units t.granted) := by
  rcases h.start with ⟨F, hsound⟩
  have hfuel := hsound.fuel
  rw [start_rest.1] at hfuel
  have hloop := loop_spec hsound (Nat.succ_pos ((n + HSIZE - 1) / HSIZE)) room_nunits
    (show 2 * F.length + 4 ≤ s.fuel by unfold St.fuel; omega)
    (show 2 * (F.length + 1) ≤ s.fuel by unfold St.fuel; omega)
  have hstep : step prog s (.malloc n) = (malloc.loop s.fuel ((n + HSIZE - 1) / HSIZE + 1) s.fuel
      (malloc.start prog s).freep ((malloc.start prog s).mem (malloc.start prog s).freep).ptr
      (malloc.start prog s)).map fun r =>
        if r.1 = 0 then r.2 else { r.2 with live := (r.1, n) :: r.2.live } := by
    rw [step, if_pos hn]
    rfl
  rw [hstep]
  rcases hloop with ⟨r, t, F', hrun, hne, hsound'⟩ | ⟨t, hrun, hsound'⟩ | ⟨gap, -, hlarge, hall⟩
  · refine .inl ⟨{ t with live := (r, n) :: t.live }, ?_, .inr ⟨F', hsound'⟩⟩
    rw [hrun]
    exact congrArg some (if_neg hne)
  · refine .inl ⟨t, ?_, .inr ⟨F, hsound'⟩⟩
    rw [hrun]
    exact congrArg some (if_pos rfl)
  · rw [start_rest.2.1] at hlarge
    refine .inr ⟨hlarge, fun t ht => ?_⟩
    rcases Option.map_eq_some_iff.mp ht with ⟨⟨r, u⟩, hrun, rfl⟩
    have hle := hall r u hrun
    split
    · exact hle
    · exact hle

/-- `free` in a sound state, of a block that the program holds. -/
theorem free_step (h : Integrity prog s) (hsum : units s.granted < 2 ^ 32) {ap : Nat}
    {l : Nat × Nat} (hfind : s.live.find? (fun l => l.1 == ap) = some l) :
    ∃ t, step prog s (.free ap) = some t ∧ Integrity prog t := by
  have hl := mem_of_find?_eq_some hfind
  obtain rfl : l.1 = ap := by simpa using find?_some hfind
  rcases h with h | ⟨F, h⟩
  · rw [h.live] at hl
    cases hl
  rcases h.free hl hsum with ⟨t, F', hrun, hsound⟩
  refine ⟨{ t with live := t.live.erase l }, ?_, .inr ⟨F', ?_⟩⟩
  · simp only [step, hfind, hrun]
    rfl
  · have hlive : t.live = s.live := by rw [free_rest hrun]
    rw [hlive]
    exact hsound

/-- One call. -/
theorem Integrity.step {a : Act} (h : Integrity prog s) (hs : step prog s a = some t)
    (hsum : units t.granted < 2 ^ 32) (hold : units s.granted < 2 ^ 32) : Integrity prog t := by
  cases a with
  | malloc n =>
    by_cases hn : n < 2 ^ 32
    · rcases malloc_spec h hn with ⟨u, hu, hint⟩ | ⟨-, hlarge⟩
      · rw [hs] at hu
        cases hu
        exact hint
      · exact absurd (hlarge t hs) (Nat.not_le.mpr hsum)
    · rw [Umalloc.step, if_neg hn] at hs
      cases hs
  | free ap =>
    cases hfind : s.live.find? (fun l => l.1 == ap) with
    | none =>
      simp only [Umalloc.step, hfind] at hs
      cases hs
    | some l =>
      rcases free_step h hold hfind with ⟨u, hu, hint⟩
      rw [hs] at hu
      cases hu
      exact hint

/-- A call does not give memory back. -/
theorem step_granted {a : Act} (hs : step prog s a = some t) :
    units s.granted ≤ units t.granted := by
  cases a with
  | malloc n =>
    rw [step] at hs
    split at hs
    · rcases Option.map_eq_some_iff.mp hs with ⟨⟨r, u⟩, hrun, rfl⟩
      have hle := loop_granted hrun
      rw [start_rest.2.1] at hle
      split
      · exact hle
      · exact hle
    · cases hs
  | free ap =>
    rw [step] at hs
    split at hs
    · cases hs
    · rcases Option.map_eq_some_iff.mp hs with ⟨u, hrun, rfl⟩
      rw [free_rest hrun]

end

/-- In every run in which fewer than 2^32 units have been granted so far, the heap is as it
should be; every block that the program holds can be freed, and `malloc` returns unless it
would have to ask for more than a size can count. -/
theorem heap_integrity (prog : Program) (s : St) (h : (sys prog).Reachable s)
    (hsum : units s.granted < 2 ^ 32) :
    Integrity prog s ∧ (∀ l ∈ s.live, ∃ t, step prog s (.free l.1) = some t) ∧
    ∀ n, n < 2 ^ 32 → units s.granted + morecore.amount ((n + HSIZE - 1) / HSIZE + 1) < 2 ^ 32 →
      ∃ t, step prog s (.malloc n) = some t := by
  have hint : Integrity prog s := by
    refine System.Reachable.invariant (S := sys prog)
      (fun s => units s.granted < 2 ^ 32 → Integrity prog s)
      (fun s hs _ => .inl ⟨hs.1, hs.2.1, hs.2.2.1, hs.2.2.2⟩) (fun s a t hi hs ht => ?_) h hsum
    have hold := lt_of_le_of_lt (step_granted hs) ht
    exact (hi hold).step hs ht hold
  refine ⟨hint, fun l hl => ?_, fun n hn hroom => ?_⟩
  · have hsome : (s.live.find? fun l' => l'.1 == l.1).isSome :=
      find?_isSome.mpr ⟨l, hl, beq_self_eq_true l.1⟩
    rcases Option.isSome_iff_exists.mp hsome with ⟨l', hfind⟩
    rcases free_step hint hsum hfind with ⟨t, ht, -⟩
    exact ⟨t, ht⟩
  · rcases malloc_spec hint hn with ⟨t, ht, -⟩ | ⟨hlarge, -⟩
    · exact ⟨t, ht⟩
    · exact absurd hroom (Nat.not_lt.mpr hlarge)

/-! ## More than a size can count -/

/-- A small program. -/
def tiny : Program := ⟨16, 32, by decide, by decide⟩

/-- Its memory before the first call, when `sbrk` grants all it is asked for. -/
def tinyStart : St := ⟨fun _ => ⟨0, 0⟩, 0, fun _ => some 0, 32, [], []⟩

/-- The blocks of 2^28 + 1 units that `malloc` of 2^32 - 1 bytes takes. -/
def hugeBlock (k : Nat) : Nat := 32 + HSIZE * (2 ^ 28 + 1) * k + HSIZE

/-- Sixteen such blocks, and all of them freed again. -/
def hugeRun : List Act :=
  List.replicate 16 (.malloc (2 ^ 32 - 1)) ++ (List.range 16).map fun k => .free (hugeBlock k)

theorem tinyStart_reachable : (sys tiny).Reachable tinyStart :=
  System.Reachable.init ⟨rfl, rfl, rfl, rfl⟩

/-- In the end there is one free block. It should have 2^32 + 16 units and has 16. -/
theorem not_integrity_hugeRun : ∃ s, (sys tiny).exec tinyStart hugeRun = some s ∧
    (sys tiny).Reachable s ∧ ¬ Integrity tiny s := by
  have hrun : ((sys tiny).exec tinyStart hugeRun).any (fun s =>
      decide (s.freep ≠ 0 ∧ s.mem 16 = ⟨32, 0⟩ ∧ s.mem 32 = ⟨16, 16⟩ ∧ s.live = [] ∧
        (32, 2 ^ 28 + 1) ∈ s.granted)) = true := by decide +kernel
  rcases System.of_any_exec hrun with ⟨s, hs, hfreep, hbase, hblock, hlive, hgranted⟩
  refine ⟨s, hs, tinyStart_reachable.exec hs, ?_⟩
  rintro (hfresh | ⟨F, hsound⟩)
  · exact hfreep hfresh.freep
  -- the ring is `base` and the block of 16 units
  have hF : F = [(32, 16)] := by
    have hring : Links s.mem 16 ((16, 0) :: F) 16 := hsound.list.ring
    have hspaced := hsound.list.spaced
    rw [links_cons, hbase] at hring
    cases F with
    | nil =>
      have hend : (32 : Nat) = 16 := hring.2
      cases hend
    | cons x F =>
      have hnext := hring.2
      rw [links_cons, hblock] at hnext
      rcases hnext with ⟨rfl, hrest⟩
      cases F with
      | nil => rfl
      | cons y F =>
        rcases links_cons.mp hrest with ⟨rfl, -⟩
        have hlt := (pairwise_cons.mp (pairwise_cons.mp hspaced).2).1 _ mem_cons_self
        exact absurd hlt (by simp [Span.stop, HSIZE])
  have hcovers := (hsound.covers 288).mpr ⟨_, hgranted, by decide, by decide⟩
  rw [hF, St.blocks, hlive] at hcovers
  rcases hcovers with ⟨x, hx, hhas⟩
  rw [map_nil, append_nil, mem_singleton] at hx
  rw [hx] at hhas
  exact absurd hhas.2 (by decide)

/-- Three blocks; the last one freed joins the memory before it and the other two behind it. -/
def tinyRun : List Act :=
  List.replicate 3 (.malloc 24) ++ [.free 65488, .free 65536, .free 65440]

theorem heap_integrity_tinyRun : ∃ s, (sys tiny).exec tinyStart tinyRun = some s ∧
    Integrity tiny s ∧ s.mem 32 = ⟨16, 4096⟩ ∧ ∃ t, step tiny s (.malloc 24) = some t := by
  have hrun : ((sys tiny).exec tinyStart tinyRun).any (fun s =>
      decide (units s.granted + 4096 < 2 ^ 32 ∧ s.mem 32 = ⟨16, 4096⟩)) = true := by decide +kernel
  rcases System.of_any_exec hrun with ⟨s, hs, hsum, hjoined⟩
  have hint := heap_integrity tiny s (tinyStart_reachable.exec hs) (by omega)
  exact ⟨s, hs, hint.1, hjoined, hint.2.2 24 (by decide) hsum⟩

end Xv6.Umalloc
