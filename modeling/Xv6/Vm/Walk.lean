import Mathlib.Tactic.Abel
import Xv6.Vm.Tree
import Mathlib.Algebra.BigOperators.Fin

/-!
# Xv6.Vm.Walk — what walking, mapping and freeing do to a page table

`Table C R root m s`: in `s` the page table `root` reads as the map `m` from
virtual page numbers to entries, and the pages of the pool `C` are the table pages
of `root`, the pages `R` of everybody else, and the free pages. The code of
kernel/vm.c is specified by the next `m`, always with an arbitrary `R` whose
pages keep their contents.
-/

namespace Xv6.Vm

open Lib Function Multiset

/-- Virtual page numbers a three-level table distinguishes. -/
def VPNS : Nat := 512 ^ 3

/-- The page table `root` is well formed and reads as `m`. -/
structure Reads (s : Mem) (root : Nat) (m : Nat → BitVec 64) : Prop where
  leaf : ∀ v, v < VPNS → leafAt s.ram 2 root v = m v
  interior : Interior s.ram 2 root

/-- And its table pages, with `R`, are the pages in use. -/
structure Table (C R : Multiset Nat) (root : Nat) (m : Nat → BitVec 64) (s : Mem) : Prop
    extends Reads s root m where
  heap : Heap C (tables s.ram 2 root + R) s

section
variable {L : Layout} {C R : Multiset Nat} {s t : Mem} {E : Panic → Prop}
  {root va v : Nat} {m : Nat → BitVec 64} {α : Type}

theorem page_lt_VPNS (h : va < MAXVA) : va / PGSIZE < VPNS := by
  have hM : MAXVA = 274877906944 := rfl
  have hV : VPNS = 134217728 := rfl
  rw [hM] at h
  rw [hV, PGSIZE_eq]
  omega

/-! ## Reading -/

theorem Reads.congr (h : Reads s root m) (hram : ∀ q ∈ tables s.ram 2 root, t.ram q = s.ram q) :
    Reads t root m ∧ tables t.ram 2 root = tables s.ram 2 root := by
  rcases tree_congr hram with ⟨htab, hleaf, -, hint⟩
  refine ⟨⟨fun v hv => ?_, hint h.interior⟩, htab⟩
  rw [hleaf]
  exact h.leaf v hv

/-- A table among the kept pages reads as before. -/
theorem Reads.keeps (h : Reads s root m) (hk : Keeps C R s t) (hle : tables s.ram 2 root ≤ R) :
    Reads t root m ∧ tables t.ram 2 root = tables s.ram 2 root :=
  h.congr fun q hq => hk q (.inl (mem_of_le hle hq))

/-- Writing owned pages other than the tables does not disturb the table. -/
theorem Table.keep (hC : Pool L C) (h : Table C R root m s) (hram : ∀ q ∉ R, t.ram q = s.ram q)
    (hfree : t.freelist = s.freelist) (hdouble : t.double = s.double) :
    Table C R root m t := by
  have hnd := h.heap.nodup hC
  have hdisj := (nodup_add.mp hnd).2.2
  rcases h.toReads.congr fun q hq => hram q (disjoint_left.mp hdisj hq) with ⟨hr, htab⟩
  refine ⟨hr, ?_⟩
  rw [htab]
  exact h.heap.keep hC (fun q hq => hram q fun hm => hq (mem_add.mpr (.inr hm)))
    hfree hdouble

/-- Pages move between `R` and the free list while the tables stay. -/
theorem Table.reown (h : Table C R root m s) {R' : Multiset Nat}
    (hheap : Heap C (tables s.ram 2 root + R') t)
    (hram : ∀ q ∈ tables s.ram 2 root, t.ram q = s.ram q) : Table C R' root m t := by
  rcases h.toReads.congr hram with ⟨hr, htab⟩
  exact ⟨hr, htab ▸ hheap⟩

theorem walkFrom_read (va : Nat) (s : Mem) : ∀ level p,
    walkFrom va false level p s = .ok (slot s.ram level p (va / PGSIZE), s) := by
  intro level
  induction level with
  | zero =>
    intro p
    rw [slot, ← PX_eq_ix]
    rfl
  | succ level ih =>
    intro p
    rw [slot, ← PX_eq_ix]
    have hrun : walkFrom va false (level + 1) p s =
        (if has (s.ram p (PX (level + 1) va)) PTE_V then
          walkFrom va false level (PTE2PA (s.ram p (PX (level + 1) va)))
        else return none : M (Option Slot)) s := rfl
    rw [hrun]
    split
    · exact ih _
    · rfl

/-- Without `alloc`, `walk` finds the slot of the page and changes nothing. -/
theorem walk_read (hva : va < MAXVA) :
    walk root va false s = .ok (slot s.ram 2 root (va / PGSIZE), s) := by
  rw [walk, if_neg (Nat.not_le.mpr hva)]
  exact walkFrom_read va s 2 root

theorem wp_walk_read (hva : va < MAXVA) {Q : Option Slot → Mem → Prop} :
    wp E (walk root va false) Q s ↔ Q (slot s.ram 2 root (va / PGSIZE)) s :=
  wp_of_eq (walk_read hva)

/-- Looking an entry up with `walk` gives the entry of the map, 0 if a table is missing. -/
theorem wp_lookup (h : Reads s root m) (hva : va < MAXVA) {none_ : M α}
    {some_ : Slot → M α} {Q : α → Mem → Prop} (hnone : m (va / PGSIZE) = 0 → wp E none_ Q s)
    (hsome : ∀ a, slot s.ram 2 root (va / PGSIZE) = some a →
      s.ram a.1 a.2 = m (va / PGSIZE) → wp E (some_ a) Q s) :
    wp E (do match ← walk root va false with
      | none => none_
      | some a => some_ a) Q s := by
  rw [wp_bind, wp_walk_read hva]
  have hleaf := h.leaf _ (page_lt_VPNS hva)
  cases hslot : slot s.ram 2 root (va / PGSIZE) with
  | none => exact hnone (by rw [← hleaf, leafAt_none hslot])
  | some a => exact hsome a hslot (by rw [← hleaf, leafAt_slot hslot])

/-! ## Allocating tables -/

/-- The state of a walk that has reached the table `p`: its subtree, next to
the pages `R` of others. -/
structure Sub (C R : Multiset Nat) (level p : Nat) (s : Mem) : Prop where
  heap : Heap C (tables s.ram level p + R) s
  interior : Interior s.ram level p

/-- What a walk with `alloc` from `p` leaves behind: the same entries, perhaps more tables. -/
structure Walked (C R : Multiset Nat) (va level p : Nat) (s : Mem) (r : Option Slot)
    (t : Mem) : Prop where
  sub : Sub C R level p t
  keeps : Keeps C R s t
  leaf : ∀ v, leafAt t.ram level p v = leafAt s.ram level p v
  slot : ∀ a, r = some a → slot t.ram level p (va / PGSIZE) = some a
  full : r = none → tables t.ram level p + R = C

/-- Back from a subtree to the table above it: the entry of `p` was found in, or put into,
the state `s'` in which the walk went on to the table `c`. -/
theorem Walked.graft {level p c : Nat} {s' : Mem} {r : Option Slot}
    (hint : Interior s.ram (level + 1) p)
    (hunder : Under s.ram s'.ram level p (ix (level + 1) (va / PGSIZE)))
    (hentry : has (s'.ram p (ix (level + 1) (va / PGSIZE))) PTE_V = true ∧
      has (s'.ram p (ix (level + 1) (va / PGSIZE))) RWX = false ∧
      PTE2PA (s'.ram p (ix (level + 1) (va / PGSIZE))) = c)
    (hleaf : ∀ v, ix (level + 1) v = ix (level + 1) (va / PGSIZE) →
      leafAt s'.ram level c v = leafAt s.ram (level + 1) p v) (hkeep : Keeps C R s s')
    (h : Walked C (p ::ₘ (others s.ram level p (ix (level + 1) (va / PGSIZE)) + R))
      va level c s' r t) :
    Walked C R va (level + 1) p s r t := by
  generalize hi : ix (level + 1) (va / PGSIZE) = i at *
  have hp : t.ram p = s'.ram p := h.keeps p (.inl (mem_cons_self p _))
  rcases hentry with ⟨hv, hrwx, rfl⟩
  have hunder' : Under s.ram t.ram level p i := by
    refine ⟨fun j hj => by rw [hp, hunder.entry j hj], fun q hq => ?_⟩
    rw [h.keeps q (.inl (mem_cons_of_mem (mem_add.mpr (.inl hq)))),
      hunder.page q hq]
  have hsub : tables t.ram (level + 1) p + R = tables t.ram level (PTE2PA (s'.ram p i)) +
      (p ::ₘ (others s.ram level p i + R)) := by
    rw [hunder'.tables_eq, kid_valid (by rw [hp, hv]), hp]
    simp only [← singleton_add]
    abel
  have hrest : R ≤ p ::ₘ (others s.ram level p i + R) :=
    (le_add_left R _).trans (le_cons_self _ _)
  refine ⟨⟨hsub ▸ h.sub.heap, hunder'.interior hint fun _ => ?_⟩,
    hkeep.trans (h.keeps.mono hrest), fun v => ?_, fun a ha => ?_,
    fun hr => hsub.trans (h.full hr)⟩
  · rw [hp]
    exact ⟨hrwx, h.sub.interior⟩
  · by_cases hvi : ix (level + 1) v = i
    · rw [← hleaf v hvi, ← h.leaf v]
      simp only [leafAt, hvi, hp, hv, if_true]
    · exact hunder'.leafAt_eq hvi
  · simp only [Xv6.Vm.slot, hi, hp, hv, if_true]
    exact h.slot a ha

section
variable (hC : Pool L C)
include hC

/-- The walk puts a new empty table `c` under an invalid entry. -/
theorem Sub.extend {level p c : Nat} {i : Fin 512} {s₁ : Mem} (h : Sub C R (level + 1) p s)
    (hinv : has (s.ram p i) PTE_V = false) (hc : Heap C (c ::ₘ (tables s.ram (level + 1) p + R)) s₁)
    (hram : ∀ q ≠ c, s₁.ram q = s.ram q) (hs' : t = (s₁.write c (filled 0)).write p
      (update ((s₁.write c (filled 0)).ram p) i (PA2PTE c ||| PTE_V))) :
    Sub C (p ::ₘ (others s.ram level p i + R)) level c t ∧
      (∀ v, leafAt t.ram level c v = 0) ∧ Keeps C R s t ∧
      Under s.ram t.ram level p i ∧ t.ram p i = PA2PTE c ||| PTE_V := by
  have hkid : kid s.ram level p i = 0 := by simp [kid, hinv]
  rw [tables_succ s.ram level p i, hkid, add_zero, cons_add] at hc
  have hnd := hc.nodup hC
  rcases nodup_cons.mp hnd with ⟨hcn, hnd'⟩
  have hpn := (nodup_cons.mp hnd').1
  have hpc : p ≠ c := by
    rintro rfl
    exact hcn (mem_cons_self p _)
  have hpage : t.ram p = update (s.ram p) i (PA2PTE c ||| PTE_V) := by
    simp [hs', Mem.write, hpc, hram p hpc]
  have hcpage : ∀ j, t.ram c j = 0 := by
    simp [hs', Mem.write, Ne.symm hpc]
  have hother : ∀ q ≠ c, q ≠ p → t.ram q = s.ram q := by
    intro q hqc hqp
    simp [hs', Mem.write, hqc, hqp, hram q hqc]
  have hkept : ∀ q ∈ others s.ram level p i + R, t.ram q = s.ram q := by
    intro q hq
    refine hother q ?_ ?_
    · rintro rfl
      exact hcn (mem_cons_of_mem hq)
    · rintro rfl
      exact hpn hq
  rcases tree_zero hcpage level with ⟨htab, hleaf, hint⟩
  refine ⟨⟨?_, hint⟩, hleaf, ?_, ⟨fun j hj => ?_, fun q hq => ?_⟩, ?_⟩
  · rw [htab, singleton_add, hs']
    exact (hc.write hC (by simp) _).write hC (by simp) _
  · intro q hq
    rcases hq with hq | hq
    · exact hkept q (mem_add.mpr (.inr hq))
    · refine hother q ?_ ?_
      · rintro rfl
        exact hq (hc.mem (by simp))
      · rintro rfl
        exact hq (hc.mem (by simp))
  · rw [hpage, update_of_ne hj]
  · exact hkept q (mem_add.mpr (.inl hq))
  · rw [hpage, update_self]

/-- `walk` with `alloc` only adds empty tables. -/
theorem walkFrom_alloc (va : Nat) : ∀ level p R s, Sub C R level p s →
    wp E (walkFrom va true level p) (fun r t => Walked C R va level p s r t) s := by
  intro level
  induction level with
  | zero =>
    intro p R s h
    rw [walkFrom, wp_pure]
    refine ⟨h, Keeps.refl C R s, fun _ => rfl, fun a ha => ?_, fun hr => by cases hr⟩
    rw [Xv6.Vm.slot, ← PX_eq_ix]
    exact ha
  | succ level ih =>
    intro p R s h
    simp only [walkFrom, wp_bind, wp_load, PX_eq_ix, wp_ite, if_true]
    refine ⟨fun hv => ?_, fun hv => ?_⟩
    · -- the table is there: the walk goes on in it
      have hheap := h.heap
      rw [tables_succ s.ram level p (ix (level + 1) (va / PGSIZE)), kid_valid hv] at hheap
      refine wp_mono (ih _ (p ::ₘ (others s.ram level p (ix (level + 1) (va / PGSIZE)) + R)) s
        ⟨?_, (h.interior _ hv).2⟩) fun r t ht => ?_
      · convert hheap using 1
        simp only [← singleton_add]
        abel
      · refine Walked.graft h.interior ⟨fun _ _ => rfl, fun _ _ => rfl⟩
          ⟨hv, (h.interior _ hv).1, rfl⟩ (fun v hvi => ?_) (Keeps.refl C R s) ht
        simp only [leafAt, hvi, hv, if_true]
    · refine wp_mono (kalloc_spec hC h.heap) fun c s₁ hs₁ => ?_
      rcases hs₁ with ⟨rfl, rfl, hfull⟩ | ⟨hc0, hheap, hram⟩
      · refine ⟨fun _ => ?_, fun h0 => absurd rfl h0⟩
        exact wp_ret ⟨h, Keeps.refl C R _, fun _ => rfl, by simp, fun _ => hfull⟩
      -- a new empty table goes under the entry, and the walk goes on in it
      refine ⟨fun h0 => absurd h0 hc0, fun _ => ?_⟩
      simp only [wp_memset, wp_store]
      generalize hs' : Mem.write _ p _ = s'
      have hinv : has (s.ram p (ix (level + 1) (va / PGSIZE))) PTE_V = false := by
        simpa using hv
      rcases h.extend hC hinv hheap hram hs'.symm with ⟨hsub, hzero, hkeep, hunder, hent⟩
      have hcC : c ∈ C := hheap.mem (mem_cons_self c _)
      refine wp_mono (ih c _ s' hsub) fun r t ht => ?_
      refine Walked.graft h.interior hunder ?_ (fun v hvi => ?_) hkeep ht
      · rw [hent]
        exact table_entry (hC.lt hcC)
      · rw [hzero, leafAt, hvi, if_neg hv]

/-- `walk` with `alloc`: the same map, and the slot of `va` unless memory ran out. -/
theorem walk_alloc_spec (h : Table C R root m s) (hva : va < MAXVA) :
    wp E (walk root va true) (fun r t =>
      Table C R root m t ∧ Keeps C R s t ∧
      (∀ a, r = some a → slot t.ram 2 root (va / PGSIZE) = some a) ∧
      (r = none → tables t.ram 2 root + R = C)) s := by
  rw [walk, if_neg (Nat.not_le.mpr hva)]
  refine wp_mono (walkFrom_alloc hC va 2 root R s ⟨h.heap, h.interior⟩) fun r t ht => ?_
  refine ⟨⟨⟨fun v hv => ?_, ht.sub.interior⟩, ht.sub.heap⟩, ht.keeps, ht.slot, ht.full⟩
  rw [ht.leaf]
  exact h.leaf v hv

/-! ## Storing an entry -/

theorem Table.store (h : Table C R root m s) {a : Slot} (hv : v < VPNS)
    (ha : slot s.ram 2 root v = some a) (w : BitVec 64) :
    Table C R root (update m v w)
        (s.write a.1 (update (s.ram a.1) a.2 w)) ∧
      Keeps C R s (s.write a.1 (update (s.ram a.1) a.2 w)) := by
  have hnd := h.heap.nodup hC
  rcases nodup_add.mp hnd with ⟨hndt, -, hdisj⟩
  have hmem := slot_mem ha
  rcases tree_poke (w := w) hndt ha with ⟨htab, hleaf, hint⟩
  refine ⟨⟨⟨fun x hx => ?_, hint h.interior⟩, ?_⟩, ?_⟩
  · show leafAt (poke s.ram a w) 2 root x = _
    have hmod : x % 512 ^ (2 + 1) = v % 512 ^ (2 + 1) ↔ x = v := by
      rw [show (512 : Nat) ^ (2 + 1) = VPNS from rfl, Nat.mod_eq_of_lt hx, Nat.mod_eq_of_lt hv]
    rw [hleaf, update_apply]
    simp only [hmod, h.leaf x hx]
  · have heq : tables (s.write a.1 (update (s.ram a.1) a.2 w)).ram 2 root =
        tables s.ram 2 root := htab
    rw [heq]
    exact h.heap.write hC (mem_add.mpr (.inl hmem)) _
  · refine Keeps.of_ne (p := a.1) (fun q hq => update_of_ne hq _ _)
      (h.heap.mem (mem_add.mpr (.inl hmem))) ?_
    exact disjoint_left.mp hdisj hmem

/-- Mapping one page that was not mapped: either the entry is added, or memory ran out. -/
theorem mappages_spec (h : Table C R root m s) (hva : va < MAXVA) (halign : va % PGSIZE = 0)
    (hinv : has (m (va / PGSIZE)) PTE_V = false) (pa : Nat) (perm : BitVec 64) :
    wp E (mappages root va PGSIZE pa perm) (fun r t =>
      Keeps C R s t ∧
      ((r = 0 ∧ Table C R root
          (update m (va / PGSIZE) (PA2PTE pa ||| perm ||| PTE_V)) t) ∨
        (r = -1 ∧ Table C R root m t ∧ tables t.ram 2 root + R = C))) s := by
  have hone : PGSIZE / PGSIZE - 1 = 0 := rfl
  rw [mappages, if_neg (by omega), if_neg (by decide), if_neg (by decide), hone, mappages.loop,
    wp_bind]
  refine wp_mono (walk_alloc_spec hC h hva) fun r t ht => ?_
  rcases ht with ⟨htab, hkeep, hslot, hfull⟩
  cases r with
  | none =>
    simp only [wp_pure]
    exact ⟨hkeep, .inr ⟨trivial, htab, hfull rfl⟩⟩
  | some a =>
    have ha := hslot a rfl
    have hentry : t.ram a.1 a.2 = m (va / PGSIZE) := by
      rw [← leafAt_slot ha, htab.leaf _ (page_lt_VPNS hva)]
    simp only [wp_bind, wp_load, hentry, hinv, Bool.false_eq_true, if_false, wp_store, wp_pure]
    rcases htab.store hC (page_lt_VPNS hva) ha (PA2PTE pa ||| perm ||| PTE_V) with ⟨hnew, hk⟩
    exact ⟨hkeep.trans hk, .inl ⟨trivial, hnew⟩⟩

end

/-! ## Freeing a tree -/

/-- An entry depends on the index bits of the levels below only. -/
theorem leafAt_mod {ram : Nat → Page} {v w : Nat} : ∀ {level p : Nat},
    w % 512 ^ (level + 1) = v % 512 ^ (level + 1) → leafAt ram level p w = leafAt ram level p v := by
  intro level
  induction level with
  | zero =>
    intro p h
    have hix : ix 0 w = ix 0 v := by
      unfold ix
      simpa [Fin.ext_iff] using h
    rw [leafAt, leafAt, hix]
  | succ level ih =>
    intro p h
    rcases (mod_eq_iff level v w).mp h with ⟨hix, hlow⟩
    rw [leafAt, leafAt, hix, ih hlow]

/-- Some page has a given index at a level and given bits below. -/
theorem exists_ix (level v : Nat) (i : Fin 512) :
    ∃ w, ix (level + 1) w = i ∧ w % 512 ^ (level + 1) = v % 512 ^ (level + 1) := by
  have hpos : 0 < 512 ^ (level + 1) := Nat.pow_pos (by decide)
  refine ⟨v % 512 ^ (level + 1) + 512 ^ (level + 1) * i, ?_, ?_⟩
  · apply Fin.ext
    unfold ix
    show (v % 512 ^ (level + 1) + 512 ^ (level + 1) * i) / 512 ^ (level + 1) % 512 = i
    rw [Nat.add_mul_div_left _ _ hpos, Nat.div_eq_of_lt (Nat.mod_lt _ hpos), Nat.zero_add,
      Nat.mod_eq_of_lt i.isLt]
  · rw [Nat.add_mul_mod_self_left, Nat.mod_mod]

/-- What the loop of `freewalk` needs to know about entry `i` of `p`: it is invalid, or it
points to a table that `freewalk` frees, pages `kids i` in all. -/
def Frees (L : Layout) (E : Panic → Prop) (C : Multiset Nat) (depth p : Nat) (s : Mem)
    (kids : Fin 512 → Multiset Nat) (i : Fin 512) : Prop :=
  (has (s.ram p i) PTE_V = false ∧ kids i = 0) ∨
  (has (s.ram p i) PTE_V = true ∧ has (s.ram p i) RWX = false ∧
    ∀ R t, (∀ q ∈ kids i, t.ram q = s.ram q) → Heap C (kids i + R) t →
      wp E (freewalk L depth (PTE2PA (s.ram p i)))
        (fun _ u => Heap C R u ∧ Keeps C R t u) t)

/-- The loop of `freewalk` frees the tables under the entries, then the table itself. -/
theorem freewalk_table (hC : Pool L C) {d p : Nat} {k : Fin 512 → Multiset Nat}
    {is : List (Fin 512)} (his : List.finRange 512 = is)
    (hkids : ∀ i, Frees L E C d p s k i) (h : Heap C (p ::ₘ ((is.map k).sum + R)) s) :
    wp E (freewalk L (d + 1) p) (fun _ t => Heap C R t ∧ Keeps C R s t) s := by
  -- the entries still to come, and the tables under them, are as they were
  let Inv : List (Fin 512) → Mem → Prop := fun is t =>
    is.Nodup ∧ Heap C (p ::ₘ ((is.map k).sum + R)) t ∧ Keeps C R s t ∧
    ∀ i ∈ is, t.ram p i = s.ram p i ∧ ∀ q ∈ k i, t.ram q = s.ram q
  have hp : p ∈ C := h.mem (mem_cons_self p _)
  have hprest : p ∉ R := fun hm =>
    (nodup_cons.mp (h.nodup hC)).1 (mem_add.mpr (.inr hm))
  have hinit : Inv is s :=
    ⟨his ▸ List.nodup_finRange 512, h, Keeps.refl C R s, fun _ _ => ⟨rfl, fun _ _ => rfl⟩⟩
  rw [freewalk, his]
  refine wp_call (wp_forM Inv (fun i is t hInv => ?_) _ s hinit) fun _ t ht => ?_
  · rcases hInv with ⟨hnd, hheap, hkeep, hsame⟩
    rcases List.nodup_cons.mp hnd with ⟨hi, hnd'⟩
    have hentry : t.ram p i = s.ram p i := (hsame i List.mem_cons_self).1
    rw [List.map_cons, List.sum_cons] at hheap
    simp only [wp_bind, wp_load, hentry]
    rcases hkids i with ⟨hinv, hzero⟩ | ⟨hv, hrwx, hfree⟩
    · rw [hzero, zero_add] at hheap
      simp only [hinv, Bool.false_eq_true, false_and, if_false, wp_pure]
      exact ⟨hnd', hheap, hkeep, fun j hj => hsame j (List.mem_cons_of_mem i hj)⟩
    rw [show PTE_R ||| PTE_W ||| PTE_X = RWX from rfl]
    simp only [hv, hrwx, and_self, if_true, wp_bind, wp_store]
    have hheap' : Heap C (k i + (p ::ₘ ((is.map k).sum + R))) t := by
      convert hheap using 1
      simp only [← singleton_add]
      abel
    have hpn := (nodup_cons.mp (nodup_add.mp (hheap'.nodup hC)).2.1).1
    refine wp_mono (hfree _ t (hsame i List.mem_cons_self).2 hheap') fun _ u hu => ?_
    rcases hu with ⟨huheap, hukeep⟩
    refine ⟨hnd', huheap.write hC (mem_cons_self p _) _, ?_, fun j hj => ?_⟩
    · refine (hkeep.trans (hukeep.mono ?_)).trans
        (Keeps.of_ne (fun q hq => update_of_ne hq _ _) hp hprest)
      exact (le_add_left R _).trans (le_cons_self _ _)
    have hji : j ≠ i := fun he => hi (he ▸ hj)
    rcases hsame j (List.mem_cons_of_mem i hj) with ⟨hpj, hqj⟩
    have hjsum : k j ≤ (is.map k).sum :=
      List.single_le_sum (fun _ _ => zero_le _) _ (List.mem_map_of_mem hj)
    refine ⟨?_, fun q hq => ?_⟩
    · have hpu := hukeep p (.inl (mem_cons_self p _))
      simp only [Mem.write, update_self, update_of_ne hji, hpu, hpj]
    · have hq' : q ∈ (is.map k).sum + R :=
        mem_add.mpr (.inl (mem_of_le hjsum hq))
      have hqp : q ≠ p := fun he => hpn (he ▸ hq')
      show update u.ram p _ q = s.ram q
      rw [update_of_ne hqp, hukeep q (.inl (mem_cons_of_mem hq')), hqj q hq]
  · rcases ht with ⟨-, hheap, hkeep, -⟩
    rw [List.map_nil, List.sum_nil, zero_add] at hheap
    refine wp_mono (kfree_spec hC hheap) fun _ u hu => ⟨hu.1, hkeep.trans ?_⟩
    exact Keeps.of_ne hu.2 hp hprest

/-- `freewalk` frees a tree without leaves: all its table pages and nothing else. -/
theorem freewalk_spec (hC : Pool L C) : ∀ level p R s, Sub C R level p s →
    (∀ v, has (leafAt s.ram level p v) PTE_V = false) →
    wp E (freewalk L (level + 1) p) (fun _ t => Heap C R t ∧ Keeps C R s t) s := by
  intro level
  induction level with
  | zero =>
    intro p R s h hnone
    generalize his : List.finRange 512 = is
    refine freewalk_table (d := 0) (k := fun _ => 0) hC his (fun i => .inl ⟨?_, rfl⟩) ?_
    · have hi : ix 0 i = i := by
        unfold ix
        apply Fin.ext
        simp [Nat.mod_eq_of_lt i.isLt]
      have hleaf := hnone i
      rwa [leafAt, hi] at hleaf
    · have hheap := h.heap
      simpa [tables] using hheap
  | succ level ih =>
    intro p R s h hnone
    have hheap := h.heap
    rw [tables_eq_sum, Fin.sum_univ_def, cons_add] at hheap
    generalize his : List.finRange 512 = is at hheap
    refine freewalk_table (d := level + 1) (k := kid s.ram level p) hC his (fun i => ?_) hheap
    · by_cases hv : has (s.ram p i) PTE_V
      · refine .inr ⟨hv, (h.interior i hv).1, fun R' t hram hheap => ?_⟩
        rw [kid_valid hv] at hram hheap
        rcases tree_congr hram with ⟨htab, hleaf, -, hint⟩
        refine ih _ R' t ⟨htab.symm ▸ hheap, hint (h.interior i hv).2⟩ fun v => ?_
        rcases exists_ix level v i with ⟨w, hw, hmod⟩
        have hroot := hnone w
        rw [leafAt, hw, if_pos hv] at hroot
        rw [hleaf, ← leafAt_mod hmod]
        exact hroot
      · exact .inl ⟨by simpa using hv, by simp [kid, hv]⟩

end

end Xv6.Vm
