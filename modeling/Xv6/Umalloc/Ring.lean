import Xv6.Umalloc.Basic

/-!
# Xv6.Umalloc.Ring — free and the ring of free blocks

The free blocks in the order of their addresses, behind `base`, which is before the heap. The
loop of `free` finds the last block before the one that is freed, wherever it starts, and the
two joins are those of `Lib.Spans`.
-/

namespace Xv6.Umalloc

open Lib Function List

/-- The ring from `a` to `z`. -/
abbrev Links (mem : Nat → Header) : Nat → List Span → Nat → Prop :=
  Seg (fun a => (mem a).ptr) fun a => (mem a).size

/-- The free blocks are `F`: one ring, in order, with one wrap back to `base`, and no two of
them touch. -/
structure FreeList (prog : Program) (s : St) (F : List Span) : Prop where
  ring : Links s.mem prog.base ((prog.base, 0) :: F) prog.base
  spaced : Spaced HSIZE ((prog.base, 0) :: F)
  pos : ∀ x ∈ F, 0 < x.2
  freep : ∃ x ∈ (prog.base, 0) :: F, s.freep = x.1

section
variable {prog : Program} {mem mem' : Nat → Header} {s : St} {F A B : List Span} {p x y : Span}
  {bp n fuel : Nat}

theorem hsize_pos : 0 < HSIZE := by decide

/-- A block of a spaced list, with those before and after it. -/
theorem Spaced.split (h : Spaced HSIZE (A ++ p :: B)) :
    (∀ x ∈ A, x.stop HSIZE < p.1) ∧ (∀ x ∈ B, p.stop HSIZE < x.1) ∧ Spaced HSIZE A ∧
      Spaced HSIZE B := by
  rcases pairwise_append.mp h with ⟨hA, hpB, hcross⟩
  rcases pairwise_cons.mp hpB with ⟨hp, hB⟩
  exact ⟨fun x hx => hcross x hx p mem_cons_self, hp, hA, hB⟩

variable {a z : Nat}

theorem links_cons :
    Links mem a (x :: F) z ↔ x = (a, (mem a).size) ∧ Links mem (mem a).ptr F z := Iff.rfl

/-- The link of the last block before a gap. -/
theorem links_gap (h : Links mem a (A ++ p :: B) z) :
    Links mem a A p.1 ∧ (mem p.1).size = p.2 ∧ Links mem (mem p.1).ptr B z := by
  rcases seg_append.mp h with ⟨b, hA, rfl, hB⟩
  exact ⟨hA, rfl, hB⟩

/-! ## The search -/

/-- From a block before `bp` the loop goes up to the last one before it. -/
theorem find_up (hring : Links mem prog.base (A ++ p :: B) prog.base)
    (hspaced : Spaced HSIZE (A ++ p :: B)) (hA : ∀ x ∈ A, x.1 < bp) (hp : p.1 < bp)
    (hbase : prog.base < bp) (hlow : prog.base ≤ p.1) (hne : ∀ x ∈ B, x.1 ≠ bp)
    (hfuel : B.length < fuel) :
    ∃ A' p' B', free.find mem bp fuel p.1 = some p'.1 ∧ A ++ p :: B = A' ++ p' :: B' ∧
      (∀ x ∈ A', x.1 < bp) ∧ p'.1 < bp ∧ ∀ x ∈ B', bp < x.1 := by
  induction B generalizing A p fuel with
  | nil =>
    obtain ⟨fuel, rfl⟩ : ∃ f, fuel = f + 1 := ⟨fuel - 1, by omega⟩
    have hend : (mem p.1).ptr = prog.base := (links_gap hring).2.2
    refine ⟨A, p, [], ?_, rfl, hA, hp, fun x hx => by cases hx⟩
    rw [free.find, hend, if_neg (by omega), if_pos ⟨hlow, .inl hp⟩]
  | cons q B ih =>
    obtain ⟨fuel, rfl⟩ : ∃ f, fuel = f + 1 := ⟨fuel - 1, by omega⟩
    have hnext : (mem p.1).ptr = q.1 := (congrArg Prod.fst (links_gap hring).2.2.1).symm
    rcases Spaced.split hspaced with ⟨-, hup, -, hspacedB⟩
    have hpq := hup q mem_cons_self
    have hstop := Span.le_stop (u := HSIZE) (x := p)
    rw [free.find, hnext]
    by_cases hgap : bp < q.1
    · refine ⟨A, p, q :: B, by rw [if_pos ⟨hp, hgap⟩], rfl, hA, hp, fun x hx => ?_⟩
      rcases mem_cons.mp hx with rfl | hx
      · exact hgap
      · have hqx := (pairwise_cons.mp hspacedB).1 x hx
        have hq := Span.le_stop (u := HSIZE) (x := q)
        omega
    · have hq := hne q mem_cons_self
      rw [if_neg (by omega), if_neg (by omega)]
      rw [append_cons] at hring hspaced ⊢
      exact ih hring hspaced (fun x hx => by
        rcases mem_append.mp hx with hx | hx
        · exact hA x hx
        · rw [mem_singleton.mp hx]
          exact hp) (by omega) (by omega) (fun x hx => hne x (mem_cons_of_mem _ hx)) (by
          rw [length_cons] at hfuel
          omega)

/-- From a block behind `bp` the loop goes to the end and begins again at `base`. -/
theorem find_wrap (hring : Links mem prog.base (A ++ p :: B) prog.base)
    (hspaced : Spaced HSIZE (A ++ p :: B)) (hp : bp < p.1) (hbase : prog.base < bp)
    (hfuel : B.length < fuel) :
    free.find mem bp fuel p.1 = free.find mem bp (fuel - (B.length + 1)) prog.base := by
  induction B generalizing A p fuel with
  | nil =>
    obtain ⟨fuel, rfl⟩ : ∃ f, fuel = f + 1 := ⟨fuel - 1, by omega⟩
    have hend : (mem p.1).ptr = prog.base := (links_gap hring).2.2
    rw [free.find, hend, if_neg (by omega), if_neg (by omega)]
    rfl
  | cons q B ih =>
    obtain ⟨fuel, rfl⟩ : ∃ f, fuel = f + 1 := ⟨fuel - 1, by omega⟩
    have hnext : (mem p.1).ptr = q.1 := (congrArg Prod.fst (links_gap hring).2.2.1).symm
    have hpq := (Spaced.split hspaced).2.1 q mem_cons_self
    have hstop := Span.le_stop (u := HSIZE) (x := p)
    rw [length_cons] at hfuel
    rw [free.find, hnext, if_neg (by omega), if_neg (by omega), length_cons]
    rw [append_cons] at hring hspaced
    rw [ih hring hspaced (by omega) (by omega)]
    congr 1
    omega

/-- The block after which `bp` belongs. -/
theorem find_spec (h : FreeList prog s F) (hbase : prog.base < bp) (hne : ∀ x ∈ F, x.1 ≠ bp)
    (hfuel : 2 * (F.length + 1) ≤ fuel) :
    ∃ (A : List Span) (p : Span) (B : List Span),
      free.find s.mem bp fuel s.freep = some p.1 ∧ (prog.base, 0) :: F = A ++ p :: B ∧
      (∀ x ∈ A, x.1 < bp) ∧ p.1 < bp ∧ ∀ x ∈ B, bp < x.1 := by
  rcases h.freep with ⟨x, hx, hfreep⟩
  rcases append_of_mem hx with ⟨A, B, hN⟩
  have hring := h.ring
  have hspaced := h.spaced
  have hlen : A.length + B.length = F.length := by
    have hl := congrArg List.length hN
    simp only [length_cons, length_append] at hl
    omega
  have hlow : ∀ y ∈ (prog.base, 0) :: F, prog.base ≤ y.1 := by
    intro y hy
    rcases mem_cons.mp hy with rfl | hy
    · exact Nat.le_refl _
    · exact le_of_lt ((pairwise_cons.mp hspaced).1 y hy)
  have hnode : ∀ y ∈ (prog.base, 0) :: F, y.1 ≠ bp := by
    intro y hy
    rcases mem_cons.mp hy with rfl | hy
    · exact Nat.ne_of_lt hbase
    · exact hne y hy
  rw [hfreep]
  have hlowx := hlow x hx
  by_cases hup : x.1 < bp
  · rw [hN] at hring hspaced hnode ⊢
    have hless : ∀ y ∈ A, y.1 < bp := by
      intro y hy
      have hyx := (Spaced.split hspaced).1 y hy
      have hstop := Span.le_stop (u := HSIZE) (x := y)
      omega
    exact find_up hring hspaced hless hup hbase hlowx (fun y hy => hnode y (by simp [hy]))
      (by omega)
  · have hgt : bp < x.1 := lt_of_le_of_ne (Nat.not_lt.mp hup) (hnode x hx).symm
    have hwrap := find_wrap (by rw [← hN]; exact hring) (by rw [← hN]; exact hspaced) hgt hbase
      (by omega : B.length < fuel)
    rw [hwrap]
    exact find_up (A := []) hring hspaced (fun y hy => by cases hy) hbase hbase le_rfl
      hne (by omega)

/-! ## The joins -/

variable {v : Nat}

@[simp] theorem setPtr_self : (s.setPtr a v).mem a = ⟨v, (s.mem a).size⟩ :=
  update_self _ _ _

@[simp] theorem setSize_self : (s.setSize a v).mem a = ⟨(s.mem a).ptr, v⟩ :=
  update_self _ _ _

variable {b : Nat}

theorem setPtr_of_ne (h : b ≠ a) : (s.setPtr a v).mem b = s.mem b :=
  update_of_ne h _ _

theorem setSize_of_ne (h : b ≠ a) : (s.setSize a v).mem b = s.mem b :=
  update_of_ne h _ _

theorem setPtr_size : ((s.setPtr a v).mem b).size = (s.mem b).size := by
  by_cases h : b = a
  · rw [h, setPtr_self]
  · rw [setPtr_of_ne h]

theorem Links.congr (h : Links mem a F z) (hmem : ∀ x ∈ F, mem' x.1 = mem x.1) :
    Links mem' a F z :=
  Seg.congr h (fun x hx => by rw [hmem x hx]) fun x hx => by rw [hmem x hx]

variable {q : Nat}

/-- The block `a` with the one at `q` behind it: both joins do this. -/
def absorb (s : St) (a q : Nat) : St :=
  if a + HSIZE * (s.mem a).size = q then
    (s.setSize a (u32 ((s.mem a).size + (s.mem q).size))).setPtr a (s.mem q).ptr
  else s.setPtr a q

theorem joinNext_eq : free.joinNext s bp q = absorb s bp (s.mem q).ptr := rfl

theorem joinPrev_eq : free.joinPrev s bp q = absorb s q bp := rfl

theorem absorb_frame (hb : b ≠ a) : (absorb s a q).mem b = s.mem b := by
  unfold absorb
  split
  · rw [setPtr_of_ne hb, setSize_of_ne hb]
  · rw [setPtr_of_ne hb]

theorem absorb_rest (s : St) (a q : Nat) : absorb s a q = { s with mem := (absorb s a q).mem } := by
  unfold absorb
  split <;> rfl

/-- The block `a` in front of those behind it. -/
theorem absorb_links (hB : Links s.mem q B prog.base) (hne : ∀ x ∈ B, x.1 ≠ a)
    (hsum : (s.mem a).size + units B < 2 ^ 32) (hend : B = [] → prog.base < a) :
    Links (absorb s a q).mem a (join HSIZE (a, (s.mem a).size) B) prog.base := by
  cases B with
  | nil =>
    obtain rfl : q = prog.base := hB
    have hlow := hend rfl
    have hself : (absorb s a prog.base).mem a = ⟨prog.base, (s.mem a).size⟩ := by
      rw [absorb, if_neg (by omega), setPtr_self]
    rw [join, links_cons, hself]
    exact ⟨rfl, rfl⟩
  | cons x B =>
    rcases links_cons.mp hB with ⟨rfl, hrest⟩
    have hkeep := Links.congr hrest fun x hx =>
      absorb_frame (s := s) (q := q) (hne x (mem_cons_of_mem _ hx))
    rw [units_cons] at hsum
    by_cases htouch : a + HSIZE * (s.mem a).size = q
    · have hself : (absorb s a q).mem a = ⟨(s.mem q).ptr, (s.mem a).size + (s.mem q).size⟩ := by
        simp only [absorb, if_pos htouch, setPtr_self, setSize_self]
        rw [u32, Nat.mod_eq_of_lt (by omega)]
      have hstop : Span.stop HSIZE (a, (s.mem a).size) = (q, (s.mem q).size).1 := htouch
      rw [join_touch hstop, links_cons, hself]
      exact ⟨rfl, hkeep⟩
    · have hself : (absorb s a q).mem a = ⟨q, (s.mem a).size⟩ := by
        simp only [absorb, if_neg htouch, setPtr_self]
      have hframe := absorb_frame (s := s) (q := q) (hne _ mem_cons_self)
      have hstop : Span.stop HSIZE (a, (s.mem a).size) ≠ (q, (s.mem q).size).1 := htouch
      rw [join_gap hstop, links_cons, links_cons, hself, hframe]
      exact ⟨rfl, rfl, hkeep⟩

/-! ## free -/

/-- The bytes of `base` are not counted. -/
theorem covers_base : Covers HSIZE ((a, 0) :: F) b ↔ Covers HSIZE F b := by
  rw [covers_cons]
  refine or_iff_right fun hb => ?_
  exact absurd hb.2 (Nat.not_lt.mpr hb.1)

/-- The blocks when `b` has come between `A`, `p` and `B`. -/
theorem joined_spaced {b : Span} (hspaced : Spaced HSIZE (A ++ p :: B)) (hp : p.stop HSIZE ≤ b.1)
    (hB : ∀ x ∈ B, b.stop HSIZE ≤ x.1) :
    Spaced HSIZE (A ++ join HSIZE p (join HSIZE b B)) := by
  rcases Spaced.split hspaced with ⟨hA, hpB, hspA, hspB⟩
  have hstop := Span.le_stop (u := HSIZE) (x := p)
  have hstart : ∀ y ∈ join HSIZE b B, p.stop HSIZE ≤ y.1 := by
    rcases join_cons (u := HSIZE) (x := b) (L := B) with ⟨m, T, heq, -, hT⟩
    rw [heq]
    intro y hy
    rcases mem_cons.mp hy with rfl | hy
    · exact hp
    · exact le_of_lt (hpB y (hT y hy))
  refine pairwise_append.mpr ⟨hspA, (Spaced.join hspB hB).join hstart, fun x hx y hy => ?_⟩
  have hxp := hA x hx
  rcases join_cons (u := HSIZE) (x := p) (L := join HSIZE b B) with ⟨m, T, heq, -, hT⟩
  rw [heq] at hy
  rcases mem_cons.mp hy with rfl | hy
  · exact hxp
  · have hle := hstart y (hT y hy)
    omega

/-- What is left of the blocks behind `base`. -/
theorem joined_blocks {b : Span} (hN : (prog.base, 0) :: F = A ++ p :: B)
    (hbase : prog.base < b.1) (hpos : ∀ x ∈ F, 0 < x.2) (hb : 0 < b.2) :
    ∃ F', A ++ join HSIZE p (join HSIZE b B) = (prog.base, 0) :: F' ∧ (∀ x ∈ F', 0 < x.2) ∧
      (∃ x ∈ F', b.2 ≤ x.2) ∧ p.1 ∈ ((prog.base, 0) :: F').map Prod.fst := by
  rcases join_cons (u := HSIZE) (x := b) (L := B) with ⟨m, T, heq, hle, hT⟩
  cases A with
  | nil =>
    rw [nil_append, List.cons.injEq] at hN
    rcases hN with ⟨rfl, rfl⟩
    refine ⟨join HSIZE b F, ?_, pos_join hb hpos, ⟨(b.1, m), by rw [heq]; simp, hle⟩, by simp⟩
    -- `base` touches nothing
    have hgap : Span.stop HSIZE (prog.base, 0) ≠ ((b.1, m) : Span).1 := Nat.ne_of_lt hbase
    rw [nil_append, heq, join_gap hgap]
  | cons a A =>
    rw [cons_append, List.cons.injEq] at hN
    rcases hN with ⟨rfl, rfl⟩
    have hposB : ∀ x ∈ B, 0 < x.2 := fun x hx => hpos x (by simp [hx])
    refine ⟨A ++ join HSIZE p (join HSIZE b B), rfl, fun x hx => ?_, ?_, ?_⟩
    · rcases mem_append.mp hx with hx | hx
      · exact hpos x (by simp [hx])
      · exact pos_join (hpos p (by simp)) (pos_join hb hposB) x hx
    · rw [heq]
      by_cases htouch : p.stop HSIZE = ((b.1, m) : Span).1
      · rw [join_touch htouch]
        exact ⟨(p.1, p.2 + m), by simp, le_trans hle (Nat.le_add_left _ _)⟩
      · rw [join_gap htouch]
        exact ⟨(b.1, m), by simp, hle⟩
    · rcases join_cons (u := HSIZE) (x := p) (L := join HSIZE b B) with ⟨k, T', heq', -, -⟩
      rw [heq']
      simp

theorem free_rest {ap : Nat} {t : St} (h : free fuel ap s = some t) :
    t = { s with mem := t.mem, freep := t.freep } := by
  rcases Option.map_eq_some_iff.mp h with ⟨p, -, rfl⟩
  rw [joinPrev_eq, absorb_rest _ p, joinNext_eq, absorb_rest s]

/-- What `free` does, with a block `bp` that is apart from the free ones. -/
structure Freed (prog : Program) (bp n : Nat) (F : List Span) (s : St) (F' : List Span) (t : St) :
    Prop where
  list : FreeList prog t F'
  covers : ∀ b, Covers HSIZE F' b ↔ Span.Has HSIZE (bp, n) b ∨ Covers HSIZE F b
  units : units F' = n + units F
  large : ∃ x ∈ F', n ≤ x.2
  length : F'.length ≤ F.length + 1
  frame : ∀ a, a ≠ bp → (∀ x ∈ (prog.base, 0) :: F, a ≠ x.1) → t.mem a = s.mem a
  rest : t = { s with mem := t.mem, freep := t.freep }

theorem free_spec (bp fuel : Nat) (h : FreeList prog s F) (hbase : prog.base < bp)
    (hn : (s.mem bp).size = n) (hpos : 0 < n) (hapart : ∀ x ∈ F, Apart HSIZE x (bp, n))
    (hsum : n + units F < 2 ^ 32) (hfuel : 2 * (F.length + 1) ≤ fuel) :
    ∃ t F', free fuel (bp + HSIZE) s = some t ∧ Freed prog bp n F s F' t := by
  have hne : ∀ x ∈ F, x.1 ≠ bp := by
    rintro x hx rfl
    exact hapart x hx x.1 ⟨Span.has_start hsize_pos (h.pos x hx), Span.has_start hsize_pos hpos⟩
  rcases find_spec h hbase hne hfuel with ⟨A, p, B, hfind, hN, hA, hp, hB⟩
  have hring := h.ring
  have hspaced := h.spaced
  rw [hN] at hring hspaced
  rcases links_gap hring with ⟨hringA, hsizep, hringB⟩
  rcases Spaced.split hspaced with ⟨hAp, hpB, -, hspB⟩
  have hbelow := fun x : Span => Span.le_stop (u := HSIZE) (x := x)
  have hmemF : ∀ x ∈ A ++ p :: B, x = (prog.base, 0) ∨ x ∈ F := by
    intro x hx
    rw [← hN] at hx
    exact mem_cons.mp hx
  -- the neighbours do not reach into the block
  have hpstop : p.stop HSIZE ≤ bp := by
    rcases hmemF p (by simp) with rfl | hpF
    · exact le_of_lt hbase
    · exact (hapart p hpF).stop_le hsize_pos hpos (le_of_lt hp)
  have hBF : ∀ x ∈ B, x ∈ F := by
    intro x hx
    refine (hmemF x (by simp [hx])).resolve_left ?_
    rintro rfl
    have hlt := hB _ hx
    exact absurd hlt (Nat.not_lt.mpr (le_of_lt hbase))
  have hbstop : ∀ x ∈ B, Span.stop HSIZE (bp, n) ≤ x.1 := fun x hx =>
    (hapart x (hBF x hx)).symm.stop_le hsize_pos (h.pos x (hBF x hx)) (le_of_lt (hB x hx))
  have hunits : p.2 + units B ≤ units F := by
    have hall : units ((prog.base, 0) :: F) = units F := by rw [units_cons, Nat.zero_add]
    rw [hN, units_append, units_cons] at hall
    omega
  subst hn
  have hnext := absorb_links hringB (fun x hx => Nat.ne_of_gt (hB x hx)) (by omega) fun _ => hbase
  rcases join_cons (u := HSIZE) (x := (bp, (s.mem bp).size)) (L := B) with ⟨m, T, heq, -, hT⟩
  have hm : m + units T = (s.mem bp).size + units B := by
    have hsame := units_join (u := HSIZE) (x := (bp, (s.mem bp).size)) (L := B)
    rwa [heq, units_cons] at hsame
  have hkeep : (absorb s bp (s.mem p.1).ptr).mem p.1 = s.mem p.1 :=
    absorb_frame (Nat.ne_of_lt hp)
  rw [heq] at hnext
  have hprev := absorb_links (a := p.1) hnext (fun x hx => by
    rcases mem_cons.mp hx with rfl | hx
    · exact Nat.ne_of_gt hp
    · have hlt := hpB x (hT x hx)
      have hle := hbelow p
      omega) (by rw [hkeep, hsizep, units_cons]; omega) nofun
  rw [hkeep, hsizep, ← heq] at hprev
  have hframe : ∀ a ≠ bp, a ≠ p.1 →
      (free.joinPrev (free.joinNext s bp p.1) bp p.1).mem a = s.mem a := fun a ha hap =>
    (absorb_frame hap).trans (absorb_frame ha)
  have hfirst := Links.congr hringA fun x hx => hframe x.1 (Nat.ne_of_lt (hA x hx)) (by
    have hlt := hAp x hx
    have hle := hbelow x
    omega)
  rcases joined_blocks (b := (bp, (s.mem bp).size)) hN hbase h.pos hpos with
    ⟨F', hF', hpos', hlarge, hfreep⟩
  have hfree : free fuel (bp + HSIZE) s =
      some { free.joinPrev (free.joinNext s bp p.1) bp p.1 with freep := p.1 } := by
    rw [free, Nat.add_sub_cancel, hfind]
    rfl
  have hcovers : ∀ b, Covers HSIZE ((prog.base, 0) :: F') b ↔
      Span.Has HSIZE (bp, (s.mem bp).size) b ∨ Covers HSIZE ((prog.base, 0) :: F) b := by
    intro b
    rw [← hF', hN, covers_append, covers_append, covers_join, covers_join, covers_cons]
    tauto
  have hunits' : units ((prog.base, 0) :: F') =
      (s.mem bp).size + units ((prog.base, 0) :: F) := by
    rw [← hF', hN, units_append, units_append, units_join, units_join, units_cons]
    omega
  have hlength : ((prog.base, 0) :: F').length ≤ ((prog.base, 0) :: F).length + 1 := by
    have h₁ := length_join (u := HSIZE) (x := (bp, (s.mem bp).size)) (L := B)
    have h₂ := length_join (u := HSIZE) (x := p) (L := join HSIZE (bp, (s.mem bp).size) B)
    rw [← hF', hN, length_append, length_append, length_cons]
    omega
  refine ⟨_, F', hfree, {
    list := ⟨?_, ?_, hpos', ?_⟩, covers := fun b => ?_, units := ?_, large := hlarge,
    length := ?_, frame := fun a ha hx => hframe a ha ?_, rest := free_rest hfree }⟩
  · rw [← hF']
    exact seg_append.mpr ⟨p.1, hfirst, hprev⟩
  · rw [← hF']
    exact joined_spaced hspaced hpstop hbstop
  · rcases mem_map.mp hfreep with ⟨x, hx, hxp⟩
    exact ⟨x, hx, hxp.symm⟩
  · rw [← covers_base (a := prog.base), hcovers, covers_base]
  · rw [units_cons, units_cons] at hunits'
    omega
  · simpa using hlength
  · exact hx p (by rw [hN]; simp)

end

end Xv6.Umalloc
