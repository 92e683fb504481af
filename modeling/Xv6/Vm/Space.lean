import Mathlib.Algebra.BigOperators.Intervals
import Xv6.Vm.Walk

/-!
# Xv6.Vm.Space — growing, shrinking, copying and freeing address spaces

The user pages of an address space are the pages its entries below `TRAPFRAME`
point to; `leaves m a b` counts them over a range of virtual pages. The functions
of kernel/vm.c that take and give back user memory are specified by how pages move
between `leaves` and the free list, on every exit, with the map `m` they leave.
-/

namespace Xv6.Vm

open Lib Function Multiset

/-! ## Page arithmetic -/

/-- Virtual pages below the trapframe. -/
def UVPN : Nat := TRAPFRAME / PGSIZE

/-- The pages it takes to hold `sz` bytes. -/
def pages (sz : Nat) : Nat := (sz + (PGSIZE - 1)) / PGSIZE

theorem UVPN_eq : UVPN = 2 ^ 26 - 2 := rfl

theorem TRAPFRAME_eq : TRAPFRAME = UVPN * PGSIZE := rfl

theorem TRAMPOLINE_eq : TRAMPOLINE = (UVPN + 1) * PGSIZE := rfl

theorem MAXVA_eq : MAXVA = (UVPN + 2) * PGSIZE := rfl

theorem VPNS_eq : VPNS = 2 ^ 27 := rfl

variable {sz v : Nat}

theorem lt_pages_iff : v < pages sz ↔ v * PGSIZE < sz := by
  simp only [pages, PGSIZE_eq]
  omega

theorem pages_mul (v : Nat) : pages (v * PGSIZE) = v := by
  simp only [pages, PGSIZE_eq]
  omega

theorem pages_zero : pages 0 = 0 := rfl

variable {a b : Nat}

theorem pages_mono (h : a ≤ b) : pages a ≤ pages b := by
  simp only [pages, PGSIZE_eq]
  omega

theorem PGROUNDUP_eq (h : sz ≤ MAXVA) : PGROUNDUP sz = pages sz * PGSIZE := by
  rw [MAXVA_eq, UVPN_eq] at h
  simp only [PGROUNDUP, u64, pages, PGSIZE_eq] at h ⊢
  omega

theorem page_lt_MAXVA (h : v < UVPN + 2) : v * PGSIZE < MAXVA := by
  rw [MAXVA_eq, PGSIZE_eq]
  omega

theorem pages_le_UVPN (h : sz ≤ TRAPFRAME) : pages sz ≤ UVPN := by
  rw [← pages_mul UVPN, ← TRAPFRAME_eq]
  exact pages_mono h

/-- The loops go from page to page without wrapping around. -/
theorem page_step (h : v < UVPN) : u64 (v * PGSIZE + PGSIZE) = (v + 1) * PGSIZE := by
  rw [UVPN_eq] at h
  simp only [u64, PGSIZE_eq]
  omega

theorem page_div (v : Nat) : v * PGSIZE / PGSIZE = v := Nat.mul_div_cancel v (by decide)

theorem page_mod (v : Nat) : v * PGSIZE % PGSIZE = 0 := Nat.mul_mod_left v PGSIZE

/-! ## The user pages of a map -/

/-- The page an entry points to, if it is valid. -/
def leafPage (pte : BitVec 64) : Multiset Nat := if has pte PTE_V then {PTE2PA pte} else 0

/-- The pages behind the virtual pages from `a` up to `b`. -/
@[irreducible] def leaves (m : Nat → BitVec 64) (a b : Nat) : Multiset Nat :=
  ∑ v ∈ Finset.Ico a b, leafPage (m v)

/-- The map after the valid entries from `a` up to `b` were removed. -/
def unmap (m : Nat → BitVec 64) (a b v : Nat) : BitVec 64 :=
  if a ≤ v ∧ v < b ∧ has (m v) PTE_V then 0 else m v

variable {pte : BitVec 64}

section
variable {m m' : Nat → BitVec 64} {a b c v : Nat}

theorem leafPage_valid (h : has pte PTE_V = true) :
    leafPage pte = {PTE2PA pte} := by
  simp [leafPage, h]

theorem leafPage_invalid (h : has pte PTE_V = false) : leafPage pte = 0 := by
  simp [leafPage, h]

theorem leaves_congr_page (h : ∀ v, a ≤ v → v < b → leafPage (m' v) = leafPage (m v)) :
    leaves m' a b = leaves m a b := by
  unfold leaves
  refine Finset.sum_congr rfl fun v hv => ?_
  rw [h v (Finset.mem_Ico.mp hv).1 (Finset.mem_Ico.mp hv).2]

theorem leaves_congr (h : ∀ v, a ≤ v → v < b → m' v = m v) : leaves m' a b = leaves m a b :=
  leaves_congr_page fun v hv hv' => by rw [h v hv hv']

theorem leaves_append (hab : a ≤ b) (hbc : b ≤ c) :
    leaves m a b + leaves m b c = leaves m a c := by
  unfold leaves
  exact Finset.sum_Ico_consecutive _ hab hbc

theorem leaves_empty (h : b ≤ a) : leaves m a b = 0 := by
  unfold leaves
  rw [Finset.Ico_eq_empty_of_le h, Finset.sum_empty]

theorem leaves_first (h : a < b) : leaves m a b = leafPage (m a) + leaves m (a + 1) b := by
  unfold leaves
  exact Finset.sum_eq_sum_Ico_succ_bot h _

theorem leaves_last (h : a ≤ b) : leaves m a (b + 1) = leaves m a b + leafPage (m b) := by
  unfold leaves
  exact Finset.sum_Ico_succ_top h _

theorem leaves_push (h : a ≤ v) (pte : BitVec 64) :
    leaves (update m v pte) a (v + 1) = leafPage pte + leaves m a v := by
  rw [leaves_last h, leaves_congr (m := m) fun x _ hx => update_of_ne (by omega) _ _, update_self,
    add_comm]

theorem leaves_zero (h : ∀ v, a ≤ v → v < b → has (m v) PTE_V = false) : leaves m a b = 0 := by
  unfold leaves
  refine Finset.sum_eq_zero fun v hv => leafPage_invalid ?_
  exact h v (Finset.mem_Ico.mp hv).1 (Finset.mem_Ico.mp hv).2

/-- A range that is mapped throughout takes as many pages as it is long. -/
theorem card_leaves (h : ∀ v, a ≤ v → v < b → has (m v) PTE_V = true) :
    (leaves m a b).card = b - a := by
  unfold leaves
  rw [card_sum, Finset.sum_congr rfl (g := fun _ => 1), Finset.sum_const, Nat.card_Ico,
    smul_eq_mul, Nat.mul_one]
  intro v hv
  rw [leafPage_valid (h v (Finset.mem_Ico.mp hv).1 (Finset.mem_Ico.mp hv).2),
    card_singleton]

theorem mem_leaves (hav : a ≤ v) (hvb : v < b) (h : has (m v) PTE_V = true) :
    PTE2PA (m v) ∈ leaves m a b := by
  unfold leaves
  rw [mem_sum]
  exact ⟨v, Finset.mem_Ico.mpr ⟨hav, hvb⟩, by simp [leafPage, h]⟩

theorem unmap_first (h : has (m a) PTE_V = false) : unmap m a b = unmap m (a + 1) b := by
  funext v
  by_cases hv : v = a
  · subst hv
    simp [unmap, h]
  · have hle : a ≤ v ↔ a + 1 ≤ v := by omega
    simp only [unmap, hle]

theorem unmap_update (hab : a < b) (h : has (m a) PTE_V = true) :
    unmap (update m a 0) (a + 1) b = unmap m a b := by
  funext v
  by_cases hv : v = a
  · subst hv
    simp [unmap, h, hab]
  · have hle : a ≤ v ↔ a + 1 ≤ v := by omega
    simp only [unmap, hle, update_of_ne hv]

theorem unmap_empty (h : b ≤ a) : unmap m a b = m := by
  funext v
  have hno : ¬ (a ≤ v ∧ v < b ∧ has (m v) PTE_V) := fun hv => by omega
  simp only [unmap, hno, if_false]

theorem unmap_invalid (hav : a ≤ v) (hvb : v < b) : has (unmap m a b v) PTE_V = false := by
  unfold unmap
  by_cases h : has (m v) PTE_V
  · simp [hav, hvb, h]
  · simp [h]

theorem unmap_outside (h : v < a ∨ b ≤ v) : unmap m a b v = m v := by
  have hno : ¬ (a ≤ v ∧ v < b ∧ has (m v) PTE_V) := fun hv => by omega
  simp only [unmap, hno, if_false]

/-- Unmapping never makes an entry valid. -/
theorem unmap_valid (h : has (m v) PTE_V = false) : has (unmap m a b v) PTE_V = false := by
  simp [unmap, h]

end

/-! ## A page in hand -/

section
variable {L : Layout} {C R : Multiset Nat} {s : Mem} {E : Panic → Prop}
  {root v n : Nat} {m : Nat → BitVec 64} {p : Nat}

/-- A page just taken is in hand: neither in the table nor anybody else's. -/
theorem Table.hand_notMem (hC : Pool L C) (h : Table C ({p} + R) root m s) :
    p ∈ C ∧ p ∉ tables s.ram 2 root ∧ p ∉ R := by
  have hnd := h.heap.nodup hC
  rcases nodup_add.mp hnd with ⟨-, hnd', hdisj⟩
  refine ⟨h.heap.mem (by simp), fun hm => ?_, fun hm => ?_⟩
  · exact disjoint_left.mp hdisj hm (by simp)
  · rw [singleton_add] at hnd'
    exact (nodup_cons.mp hnd').1 hm

theorem Table.kalloc (hC : Pool L C) (h : Table C R root m s) :
    wp E kalloc (fun r t => (r = 0 ∧ t = s ∧ tables s.ram 2 root + R = C) ∨
      (r ≠ 0 ∧ Table C ({r} + R) root m t ∧ Keeps C R s t)) s := by
  refine wp_mono (kalloc_spec hC h.heap) fun r t ht => ?_
  rcases ht with hfail | ⟨h0, hheap, hram⟩
  · exact .inl hfail
  have hr := (nodup_cons.mp (hheap.nodup hC)).1
  refine .inr ⟨h0, h.reown ?_ fun q hq => hram q ?_, ?_⟩
  · convert hheap using 1
    simp only [← singleton_add]
    abel
  · rintro rfl
    exact hr (mem_add.mpr (.inl hq))
  · exact Keeps.of_ne hram (hheap.mem (mem_cons_self r _)) fun hm =>
      hr (mem_add.mpr (.inr hm))

theorem Table.kfree (hC : Pool L C) (h : Table C ({p} + R) root m s) :
    wp E (kfree L p) (fun _ t => Table C R root m t ∧ Keeps C R s t ∧
      slot t.ram 2 root = slot s.ram 2 root ∧ tables t.ram 2 root = tables s.ram 2 root) s := by
  rcases h.hand_notMem hC with ⟨hpC, hpt, hpr⟩
  have hheap : Heap C (p ::ₘ (tables s.ram 2 root + R)) s := by
    convert h.heap using 1
    simp only [← singleton_add]
    abel
  refine wp_mono (kfree_spec hC hheap) fun _ t ht => ?_
  have hram : ∀ q ∈ tables s.ram 2 root, t.ram q = s.ram q := by
    intro q hq
    apply ht.2
    rintro rfl
    exact hpt hq
  exact ⟨h.reown ht.1 hram, Keeps.of_ne ht.2 hpC hpr, (tree_congr hram).2.2.1, (tree_congr hram).1⟩

/-- Filling the page in hand. -/
theorem Table.write_hand (hC : Pool L C) (h : Table C ({p} + R) root m s) (page : Page) :
    Table C ({p} + R) root m (s.write p page) ∧ Keeps C R s (s.write p page) := by
  rcases h.hand_notMem hC with ⟨hpC, -, hpr⟩
  have hram : ∀ q ≠ p, (s.write p page).ram q = s.ram q :=
    fun q hq => update_of_ne hq _ _
  refine ⟨h.keep hC (fun q hq => hram q ?_) rfl rfl, Keeps.of_ne hram hpC hpr⟩
  rintro rfl
  exact hq (by simp)

/-! ## Unmapping -/

/-- What `uvmunmap` is to give back: the pages of the range, if it is to free them. -/
def freed (do_free : Bool) (m : Nat → BitVec 64) (a b : Nat) : Multiset Nat :=
  if do_free then leaves m a b else 0

theorem freed_first {do_free : Bool} (h : a < b) :
    freed do_free m a b =
      (if do_free then leafPage (m a) else 0) + freed do_free m (a + 1) b := by
  cases do_free
  · simp [freed]
  · simp [freed, leaves_first h]

theorem freed_congr {do_free : Bool} {m' : Nat → BitVec 64} (h : ∀ v, a ≤ v → v < b → m' v = m v) :
    freed do_free m' a b = freed do_free m a b := by
  unfold freed
  rw [leaves_congr h]

theorem uvmunmap_loop (hC : Pool L C) (do_free : Bool) : ∀ n v m s, v + n ≤ UVPN + 2 →
    Table C (freed do_free m v (v + n) + R) root m s →
    wp E (uvmunmap.loop L root do_free n (v * PGSIZE)) (fun _ t =>
      Table C R root (unmap m v (v + n)) t ∧ Keeps C R s t) s := by
  intro n
  induction n with
  | zero =>
    intro v m s _ h
    have hnone : freed do_free m v (v + 0) = 0 := by
      simp [freed, leaves_empty]
    rw [hnone, zero_add] at h
    rw [uvmunmap.loop, wp_pure, unmap_empty (Nat.le_of_eq (Nat.add_zero v))]
    exact ⟨h, Keeps.refl C R s⟩
  | succ n ih =>
    intro v m s hv h
    have hva : v * PGSIZE < MAXVA := page_lt_MAXVA (by omega)
    have hvp : v < VPNS := by
      rw [UVPN_eq] at hv
      rw [VPNS_eq]
      omega
    have hend : v + (n + 1) = v + 1 + n := by omega
    rw [hend] at h ⊢
    rw [freed_first (by omega : v < v + 1 + n)] at h
    -- an entry that is not valid is passed over
    have hskip : has (m v) PTE_V = false →
        wp E (uvmunmap.loop L root do_free n ((v + 1) * PGSIZE)) (fun _ t =>
          Table C R root (unmap m v (v + 1 + n)) t ∧ Keeps C R s t) s := by
      intro hinv
      rw [leafPage_invalid hinv, ite_self, zero_add] at h
      rw [unmap_first hinv]
      exact ih (v + 1) m s (by omega) h
    rw [uvmunmap.loop, ← Nat.succ_mul v PGSIZE]
    refine wp_lookup h.toReads hva (fun hz => ?_) fun a ha hentry => ?_
    · rw [page_div] at hz
      exact hskip (by rw [hz]; exact has_zero PTE_V)
    rw [page_div] at ha hentry
    simp only [wp_bind, wp_load, hentry]
    rw [wp_ite]
    refine ⟨hskip, fun hvalid => ?_⟩
    have hvalid : has (m v) PTE_V = true := by simpa using hvalid
    rw [leafPage_valid hvalid, add_assoc] at h
    -- the page is freed first; what is left is to clear its entry and go on
    have hclear : ∀ t, Table C (freed do_free m (v + 1) (v + 1 + n) + R) root m t →
        Keeps C (freed do_free m (v + 1) (v + 1 + n) + R) s t →
        slot t.ram 2 root = slot s.ram 2 root →
        wp E (do store a 0; uvmunmap.loop L root do_free n ((v + 1) * PGSIZE)) (fun _ u =>
          Table C R root (unmap m v (v + 1 + n)) u ∧ Keeps C R s u) t := by
      intro t htab hkeep hslot
      rw [wp_bind, wp_store]
      rcases htab.store hC hvp (by rw [hslot]; exact ha) 0 with ⟨hnew, hkeep'⟩
      have hkept : freed do_free (update m v 0) (v + 1) (v + 1 + n) =
          freed do_free m (v + 1) (v + 1 + n) :=
        freed_congr fun x hx _ => update_of_ne (by omega) _ _
      rw [← hkept] at hnew
      refine wp_mono (ih (v + 1) _ _ (by omega) hnew) fun _ u hu => ?_
      rw [unmap_update (by omega) hvalid] at hu
      exact ⟨hu.1, ((hkeep.trans hkeep').mono (le_add_left _ _)).trans hu.2⟩
    refine wp_if (fun hd => ?_) fun hd => ?_
    · rw [if_pos hd] at h
      exact wp_call (h.kfree hC) fun _ t ht => hclear t ht.1 ht.2.1 ht.2.2.1
    · rw [if_neg hd, zero_add] at h
      exact hclear s h (Keeps.refl C _ s) rfl

/-- `uvmunmap` removes the mapped pages of its range, and frees them if it is told to. -/
theorem uvmunmap_spec (hC : Pool L C) (do_free : Bool) (hv : v + n ≤ UVPN + 2)
    (h : Table C (freed do_free m v (v + n) + R) root m s) :
    wp E (uvmunmap L root (v * PGSIZE) n do_free) (fun _ t =>
      Table C R root (unmap m v (v + n)) t ∧ Keeps C R s t) s := by
  have hturns : (u64 (v * PGSIZE + n * PGSIZE) - v * PGSIZE) / PGSIZE = n := by
    rw [UVPN_eq] at hv
    simp only [u64, PGSIZE_eq]
    omega
  rw [uvmunmap, if_neg (fun hne => hne (page_mod v)), hturns]
  exact uvmunmap_loop hC do_free n v m s hv h

/-- `uvmunmap` from address 0 on. -/
theorem uvmunmap_low (hC : Pool L C) (hn : n ≤ UVPN + 2) (h : Table C (leaves m 0 n + R) root m s) :
    wp E (uvmunmap L root 0 n true) (fun _ t =>
      Table C R root (unmap m 0 n) t ∧ Keeps C R s t) s := by
  have hun := uvmunmap_spec (E := E) (v := 0) (n := n) (m := m) (R := R) hC true (by omega)
    (by rw [Nat.zero_add]; exact h)
  rw [Nat.zero_mul, Nat.zero_add] at hun
  exact hun

theorem uvmdealloc_spec (hC : Pool L C) {oldsz newsz : Nat} (hold : oldsz ≤ TRAPFRAME)
    (h : Table C (leaves m (pages newsz) (pages oldsz) + R) root m s) :
    wp E (uvmdealloc L root oldsz newsz) (fun r t =>
      r = (if oldsz ≤ newsz then oldsz else newsz) ∧
      Table C R root (unmap m (pages newsz) (pages oldsz)) t ∧ Keeps C R s t) s := by
  unfold uvmdealloc
  by_cases hle : oldsz ≤ newsz
  · -- nothing to do
    have hpages := pages_mono hle
    rw [leaves_empty hpages, zero_add] at h
    rw [if_pos hle, if_pos hle, wp_pure, unmap_empty hpages]
    exact ⟨rfl, h, Keeps.refl C R s⟩
  · rw [if_neg hle, if_neg hle]
    have hT : TRAPFRAME ≤ MAXVA := by decide
    have hpages := pages_le_UVPN hold
    rw [PGROUNDUP_eq (by omega : oldsz ≤ MAXVA), PGROUNDUP_eq (by omega : newsz ≤ MAXVA)]
    by_cases hlt : pages newsz < pages oldsz
    · have hcount : ((BitVec.ofNat 32 ((pages oldsz * PGSIZE - pages newsz * PGSIZE) /
          PGSIZE)).signExtend 64).toNat = pages oldsz - pages newsz := by
        rw [← Nat.sub_mul, page_div, BitVec.signExtend_eq_setWidth_of_msb_false]
        · rw [UVPN_eq] at hpages
          simp only [BitVec.toNat_setWidth, BitVec.toNat_ofNat]
          omega
        · rw [UVPN_eq] at hpages
          rw [BitVec.msb_eq_decide]
          simp only [BitVec.toNat_ofNat, decide_eq_false_iff_not]
          omega
      rw [if_pos (Nat.mul_lt_mul_of_pos_right hlt (by decide)), wp_bind, hcount]
      have hend : pages newsz + (pages oldsz - pages newsz) = pages oldsz := by omega
      refine wp_mono (uvmunmap_spec (m := m) (R := R) hC true (by omega) ?_) fun _ t ht => ?_
      · rw [hend]
        exact h
      · rw [hend] at ht
        exact wp_ret ⟨rfl, ht⟩
    · rw [leaves_empty (by omega), zero_add] at h
      rw [if_neg (by rw [Nat.mul_lt_mul_right (by decide)]; exact hlt), wp_pure,
        unmap_empty (by omega)]
      exact ⟨rfl, h, Keeps.refl C R s⟩

/-! ## Growing -/

variable {perm : BitVec 64}

/-- A leaf entry gives back its page and its flags. -/
theorem leaf_entry {pa : Nat} (hpa : pa < 2 ^ 44) (hperm : perm.toNat < 2 ^ 10) :
    has (PA2PTE pa ||| perm ||| PTE_V) PTE_V = true ∧
      PTE2PA (PA2PTE pa ||| perm ||| PTE_V) = pa ∧
      PTE_FLAGS (PA2PTE pa ||| perm ||| PTE_V) = perm ||| PTE_V := by
  have hflags : (perm ||| PTE_V).toNat < 2 ^ 10 := by
    rw [BitVec.toNat_or]
    exact Nat.or_lt_two_pow hperm (by decide)
  rw [BitVec.or_assoc]
  refine ⟨?_, PTE2PA_mk hpa hflags, PTE_FLAGS_mk hpa hflags⟩
  rw [has_mk hpa hflags (by decide)]
  have hbit : (perm ||| PTE_V) &&& PTE_V = PTE_V := by
    rw [BitVec.and_comm, BitVec.or_comm, BitVec.and_or_distrib_left, BitVec.and_self]
    exact BitVec.eq_of_getLsbD_eq fun i _ => by simp +contextual
  simp only [has, hbit]
  decide

/-- `m'` is `m` with the pages from `a` up to `b` mapped, all with the flags `perm`. -/
structure Grown (m m' : Nat → BitVec 64) (a b : Nat) (perm : BitVec 64) : Prop where
  mapped : ∀ v, a ≤ v → v < b → has (m' v) PTE_V = true ∧ PTE_FLAGS (m' v) = perm ||| PTE_V
  other : ∀ v, v < a ∨ b ≤ v → m' v = m v

/-- The pages from `a` up to `b` are all zeros. -/
def Blank (m : Nat → BitVec 64) (a b : Nat) (s : Mem) : Prop :=
  ∀ v, a ≤ v → v < b → s.ram (PTE2PA (m v)) = filled 0

/-- Mapping the page in hand makes it a leaf, or leaves it in hand. -/
theorem mappages_hand (hC : Pool L C) (hv : v < UVPN) (h : Table C ({p} + R) root m s)
    (hinv : has (m v) PTE_V = false) (hperm : perm.toNat < 2 ^ 10) :
    wp E (mappages root (v * PGSIZE) PGSIZE p perm) (fun r t =>
      Keeps C R s t ∧
      ((r = 0 ∧ ∃ pte, has pte PTE_V = true ∧ PTE_FLAGS pte = perm ||| PTE_V ∧ PTE2PA pte = p ∧
          Table C (leafPage pte + R) root (update m v pte) t ∧ t.ram p = s.ram p) ∨
        (r = -1 ∧ Table C ({p} + R) root m t ∧ tables t.ram 2 root + ({p} + R) = C))) s := by
  have hp := (h.hand_notMem hC).1
  rcases leaf_entry (hC.lt hp) hperm with ⟨hvalid, hpage, hflags⟩
  have hmap := mappages_spec (E := E) hC h (page_lt_MAXVA (by omega : v < UVPN + 2)) (page_mod v)
    (by rw [page_div]; exact hinv) p perm
  rw [page_div] at hmap
  refine wp_mono hmap fun r t ht => ⟨ht.1.mono (le_add_left _ _), ?_⟩
  rcases ht.2 with ⟨hr, htab⟩ | ⟨hr, htab, hfull⟩
  · refine .inl ⟨hr, _, hvalid, hflags, hpage, ?_, ht.1 p (.inl (by simp))⟩
    rw [leafPage_valid hvalid, hpage]
    exact htab
  · exact .inr ⟨hr, htab, hfull⟩

/-- `t` is `s` with a new page at `v`, filled with `page`. -/
structure Filled (C R : Multiset Nat) (root v : Nat) (m : Nat → BitVec 64) (perm : BitVec 64)
    (page : Page) (pte : BitVec 64) (s t : Mem) : Prop where
  valid : has pte PTE_V = true
  flags : PTE_FLAGS pte = perm ||| PTE_V
  bytes : t.ram (PTE2PA pte) = page
  table : Table C (leafPage pte + R) root (update m v pte) t
  keeps : Keeps C R s t

/-- With all pages in use but one at most, one at most is free. -/
theorem Heap.free_le (hC : Pool L C) {own : Multiset Nat} (h : Heap C own s)
    (hfull : C.card ≤ own.card + 1) : s.free.length ≤ 1 := by
  have hcard := congrArg Multiset.card (h.free_eq hC).1
  rw [card_add, coe_card] at hcard
  omega

/-- Taking a page, filling it and mapping it, as `uvmalloc`, `uvmcopy` and `vmfault` do. If the
page or a table for it is missing, everything goes back. -/
theorem wp_fill (hC : Pool L C) (page : Page) {α : Type} {fill : Nat → M Unit} {bad : M α}
    {good : Nat → M α} {Q : α → Mem → Prop} (h : Table C R root m s) (hv : v < UVPN)
    (hinv : has (m v) PTE_V = false) (hperm : perm.toNat < 2 ^ 10)
    (hfill : ∀ p t P, Keeps C R s t → P () (t.write p page) → wp E (fill p) P t)
    (hbad : ∀ t, Table C R root m t → Keeps C R s t → t.free.length ≤ 1 → wp E bad Q t)
    (hgood : ∀ pte t, PTE2PA pte ≠ 0 → Filled C R root v m perm page pte s t →
      wp E (good (PTE2PA pte)) Q t) :
    wp E (do
      let p ← kalloc
      if p = 0 then bad else do
        fill p
        let r ← mappages root (v * PGSIZE) PGSIZE p perm
        if r ≠ 0 then do
          kfree L p
          bad
        else good p) Q s := by
  refine wp_call (h.kalloc hC) fun p t ht => ?_
  rw [wp_ite]
  rcases ht with ⟨hp, rfl, hfull⟩ | ⟨hp, htab, hkeep⟩
  · refine ⟨fun _ => hbad t h (Keeps.refl C R t) ?_, fun hne => absurd hp hne⟩
    exact h.heap.free_le hC (by rw [hfull]; omega)
  refine ⟨fun h0 => absurd h0 hp, fun _ => ?_⟩
  rw [wp_bind]
  refine hfill p t _ hkeep ?_
  rcases htab.write_hand hC page with ⟨htab', hkeep'⟩
  refine wp_call (mappages_hand hC hv htab' hinv hperm) fun r u hu => ?_
  rcases hu with ⟨hku, hcase⟩
  have hks : Keeps C R s u := (hkeep.trans hkeep').trans hku
  rw [wp_ite]
  rcases hcase with ⟨hr, pte, hvalid, hflags, rfl, hnew, hkept⟩ | ⟨hr, hback, hfull⟩
  · refine ⟨fun hne => absurd hr hne, fun _ => hgood pte u hp ⟨hvalid, hflags, ?_, hnew, hks⟩⟩
    rw [hkept, Mem.write_self]
  · -- a table was missing: the page goes back
    refine ⟨fun _ => ?_, fun hne => absurd hr (by simp at hne; omega)⟩
    refine wp_call (hback.kfree hC) fun _ w hw => hbad w hw.1 (hks.trans hw.2.1) ?_
    refine hw.1.heap.free_le hC ?_
    rw [hw.2.2.2, ← hfull]
    simp only [card_add, card_singleton]
    omega

/-- What the pages mapped from `a` up to `b` hold. -/
def Contents (m : Nat → BitVec 64) (f : Nat → Page) (a b : Nat) (s : Mem) : Prop :=
  ∀ v, a ≤ v → v < b → has (m v) PTE_V = true → s.ram (PTE2PA (m v)) = f v

theorem Contents.push {f : Nat → Page} {t : Mem} (h : Contents m f a v s)
    (hf : Filled C (leaves m a v + R) root v m perm (f v) pte s t) :
    Contents (update m v pte) f a (v + 1) t := by
  intro x hax hx hvalid
  by_cases he : x = v
  · rw [he, update_self]
    exact hf.bytes
  · rw [update_of_ne he] at hvalid ⊢
    rw [hf.keeps _ (.inl (mem_add.mpr (.inl (mem_leaves hax (by omega) hvalid))))]
    exact h x hax (by omega) hvalid

variable {m₀ : Nat → BitVec 64}

theorem Grown.push (h : Grown m₀ m a v perm) (hav : a ≤ v) (hvalid : has pte PTE_V = true)
    (hflags : PTE_FLAGS pte = perm ||| PTE_V) :
    Grown m₀ (update m v pte) a (v + 1) perm := by
  refine ⟨fun x hax hx => ?_, fun x hx => ?_⟩
  · by_cases he : x = v
    · rw [he, update_self]
      exact ⟨hvalid, hflags⟩
    · rw [update_of_ne he]
      exact h.mapped x hax (by omega)
  · rw [update_of_ne (by omega)]
    exact h.other x (by omega)

/-- Giving the new pages back leaves what was there. -/
theorem Grown.unmap_eq (h : Grown m₀ m a v perm) (hzero : ∀ x, a ≤ x → x < v → m₀ x = 0) :
    unmap m a v = m₀ := by
  funext x
  by_cases hx : a ≤ x ∧ x < v
  · rw [hzero x hx.1 hx.2]
    simp [unmap, hx, (h.mapped x hx.1 hx.2).1]
  · rw [unmap_outside (by omega), h.other x (by omega)]

/-- How the loop of `uvmalloc` ends: with the pages from `a` up to `newsz`, or with none. -/
def Allocated (C R : Multiset Nat) (root : Nat) (m₀ : Nat → BitVec 64) (a newsz : Nat)
    (perm : BitVec 64) (s₀ : Mem) (r : Nat) (t : Mem) : Prop :=
  Keeps C R s₀ t ∧
    ((r = newsz ∧ ∃ m', Grown m₀ m' a (pages newsz) perm ∧
        Table C (leaves m' a (pages newsz) + R) root m' t ∧
        Contents m' (fun _ => filled 0) a (pages newsz) t) ∨
      (r = 0 ∧ Table C R root m₀ t))

/-- The loop of `uvmalloc`, after the pages from `v₀` up to `v` were mapped. It cannot turn for
ever, since every turn puts another page of the pool into the address space. -/
theorem uvmalloc_loop (hC : Pool L C) {v₀ newsz : Nat} {xperm : BitVec 64} {s₀ : Mem}
    (hperm : (PTE_R ||| PTE_U ||| xperm).toNat < 2 ^ 10)
    (hbound : ∀ x, x * PGSIZE < newsz → x ≤ v₀ + RAMPAGES → x < UVPN)
    (hzero : ∀ x, v₀ ≤ x → x < UVPN → m₀ x = 0) :
    ∀ fuel v m s, v₀ ≤ v → v ≤ pages newsz → v ≤ UVPN → RAMPAGES < fuel + (v - v₀) →
    Grown m₀ m v₀ v (PTE_R ||| PTE_U ||| xperm) → Contents m (fun _ => filled 0) v₀ v s →
    Keeps C R s₀ s → Table C (leaves m v₀ v + R) root m s →
    wp E (uvmalloc.loop L root (v₀ * PGSIZE) newsz xperm fuel (v * PGSIZE))
      (Allocated C R root m₀ v₀ newsz (PTE_R ||| PTE_U ||| xperm) s₀) s := by
  intro fuel
  induction fuel with
  | zero =>
    intro v m s hv _ _ hfuel hg _ _ h
    -- more pages mapped than the pool has
    have hcard := card_le_card h.heap.own_le
    rw [card_add, card_add,
      card_leaves fun x hx hxv => (hg.mapped x hx hxv).1] at hcard
    have hpool := hC.card_le
    omega
  | succ fuel ih =>
    intro v m s hv hvn hvU hfuel hg hblank hkeep h
    have hcount : v - v₀ ≤ RAMPAGES := by
      have hcard := card_le_card h.heap.own_le
      rw [card_add, card_add,
        card_leaves fun x hx hxv => (hg.mapped x hx hxv).1] at hcard
      have hpool := hC.card_le
      omega
    rw [uvmalloc.loop]
    refine wp_if (fun hlt => ?_) fun hge => ?_
    · have hvlt : v < UVPN := hbound v hlt (by omega)
      have hinv : has (m v) PTE_V = false := by
        rw [hg.other v (.inr (Nat.le_refl v)), hzero v hv hvlt]
        exact has_zero PTE_V
      refine wp_fill hC (filled 0) h hvlt hinv hperm
        (fun p t P _ hP => (wp_memset ..).mpr hP) (fun t ht hkt _ => ?_) fun pte t _ hf => ?_
      · -- the pages mapped so far go back
        have hsz : v * PGSIZE ≤ TRAPFRAME := by
          rw [TRAPFRAME_eq]
          exact Nat.mul_le_mul_right PGSIZE hvU
        refine wp_call (uvmdealloc_spec (m := m) (R := R) hC hsz ?_) fun r u hu => ?_
        · rw [pages_mul, pages_mul]
          exact ht
        · rw [pages_mul, pages_mul, hg.unmap_eq fun x hx hxv => hzero x hx (by omega)] at hu
          exact wp_ret ⟨(hkeep.trans (hkt.mono (le_add_left _ _))).trans hu.2.2, .inr ⟨rfl,
            hu.2.1⟩⟩
      · rw [page_step hvlt]
        refine ih (v + 1) _ t (by omega) (lt_pages_iff.mpr hlt) hvlt (by omega)
          (hg.push hv hf.valid hf.flags) (hblank.push hf)
          (hkeep.trans (hf.keeps.mono (le_add_left _ _))) ?_
        rw [leaves_push hv, add_assoc]
        exact hf.table
    · have heq : v = pages newsz := by
        have hnot : ¬ v < pages newsz := fun hlt => hge (lt_pages_iff.mp hlt)
        omega
      subst heq
      exact wp_ret ⟨hkeep, .inl ⟨rfl, m, hg, h, hblank⟩⟩

/-- `uvmalloc` maps every page up to `newsz`, or nothing. -/
theorem uvmalloc_spec (hC : Pool L C) {oldsz newsz : Nat} {xperm : BitVec 64}
    (hperm : (PTE_R ||| PTE_U ||| xperm).toNat < 2 ^ 10) (hold : oldsz ≤ TRAPFRAME)
    (hbound : ∀ x, x * PGSIZE < newsz → x ≤ pages oldsz + RAMPAGES → x < UVPN)
    (hzero : ∀ x, pages oldsz ≤ x → x < UVPN → m x = 0) (h : Table C R root m s) :
    wp E (uvmalloc L root oldsz newsz xperm) (fun r t =>
      Keeps C R s t ∧
      ((r = max oldsz newsz ∧
          ∃ m', Grown m m' (pages oldsz) (pages (max oldsz newsz)) (PTE_R ||| PTE_U ||| xperm) ∧
          Table C (leaves m' (pages oldsz) (pages (max oldsz newsz)) + R) root m' t ∧
          Blank m' (pages oldsz) (pages (max oldsz newsz)) t) ∨
        (r = 0 ∧ Table C R root m t))) s := by
  have hT : TRAPFRAME ≤ MAXVA := by decide
  have hnone : Grown m m (pages oldsz) (pages oldsz) (PTE_R ||| PTE_U ||| xperm) :=
    ⟨fun x hx hxv => by omega, fun _ _ => rfl⟩
  have h' : Table C (leaves m (pages oldsz) (pages oldsz) + R) root m s := by
    rw [leaves_empty le_rfl, zero_add]
    exact h
  rw [uvmalloc]
  refine wp_if (fun hlt => ?_) fun hge => ?_
  · have hmax : max oldsz newsz = oldsz := by omega
    rw [wp_pure, hmax]
    exact ⟨Keeps.refl C R s, .inl ⟨rfl, m, hnone, h', fun x hx hxv => by omega⟩⟩
  have hmax : max oldsz newsz = newsz := by omega
  rw [PGROUNDUP_eq (by omega : oldsz ≤ MAXVA), hmax]
  refine wp_mono (uvmalloc_loop hC hperm hbound hzero (RAMPAGES + 1) (pages oldsz) m s
    le_rfl (pages_mono (le_of_not_gt hge)) (pages_le_UVPN hold) (by omega) hnone
    (fun x hx hxv => by omega) (Keeps.refl C R s) h') fun r t ht => ?_
  refine ⟨ht.1, ht.2.imp_left fun hgrown => ?_⟩
  rcases hgrown with ⟨hr, m', hg, htab, hblank⟩
  exact ⟨hr, m', hg, htab, fun x hx hxn => hblank x hx hxn (hg.mapped x hx hxn).1⟩

/-! ## Freeing an address space -/

/-- `freewalk` on a page table without valid entries. -/
theorem freewalk_root (hC : Pool L C) (h : Table C R root m s)
    (hnone : ∀ v < VPNS, has (m v) PTE_V = false) :
    wp E (freewalk L 3 root) (fun _ t => Heap C R t ∧ Keeps C R s t) s := by
  refine freewalk_spec hC 2 root R s ⟨h.heap, h.interior⟩ fun v => ?_
  have hlt : v % VPNS < VPNS := Nat.mod_lt v (by decide)
  have hmod : v % VPNS % 512 ^ (2 + 1) = v % 512 ^ (2 + 1) := Nat.mod_mod v VPNS
  rw [← leafAt_mod hmod, h.leaf _ hlt]
  exact hnone _ hlt

theorem uvmfree_spec (hC : Pool L C) (hsz : sz ≤ TRAPFRAME)
    (h : Table C (leaves m 0 (pages sz) + R) root m s)
    (hnone : ∀ v < VPNS, pages sz ≤ v → has (m v) PTE_V = false) :
    wp E (uvmfree L root sz) (fun _ t => Heap C R t ∧ Keeps C R s t) s := by
  have hT : TRAPFRAME ≤ MAXVA := by decide
  have hpages := pages_le_UVPN hsz
  rw [uvmfree]
  refine wp_if (fun hpos => ?_) fun hzero => ?_
  · rw [PGROUNDUP_eq (by omega : sz ≤ MAXVA), page_div]
    refine wp_call (uvmunmap_low hC (by omega) h) fun _ t ht => ?_
    refine wp_mono (freewalk_root hC ht.1 fun v hv => ?_) fun _ u hu => ⟨hu.1, ht.2.trans hu.2⟩
    by_cases hlt : v < pages sz
    · exact unmap_invalid (Nat.zero_le v) hlt
    · exact unmap_valid (hnone v hv (by omega))
  · have hsz0 : sz = 0 := by omega
    subst hsz0
    rw [pages_zero, leaves_empty (Nat.le_refl 0), zero_add] at h
    exact freewalk_root hC h fun v hv => hnone v hv (Nat.zero_le v)

/-! ## Copying an address space -/

/-- `m'` maps, below `n`, the pages that `old` maps, with the same flags. -/
structure Copied (old m m' : Nat → BitVec 64) (n : Nat) : Prop where
  valid : ∀ v, v < n → has (m' v) PTE_V = has (old v) PTE_V
  flags : ∀ v, v < n → has (old v) PTE_V = true → PTE_FLAGS (m' v) = PTE_FLAGS (old v)
  zero : ∀ v, v < n → has (m' v) PTE_V = false → m' v = 0
  other : ∀ v, n ≤ v → m' v = m v

theorem flags_valid (h : has pte PTE_V = true) :
    PTE_FLAGS pte ||| PTE_V = PTE_FLAGS pte := by
  have hbit : pte.getLsbD 0 = true := by
    by_contra hno
    have hzero : pte &&& PTE_V = 0 := by
      apply BitVec.eq_of_getLsbD_eq
      intro i _
      by_cases hi : i = 0
      · subst hi
        rw [BitVec.getLsbD_and, Bool.eq_false_of_not_eq_true hno, Bool.false_and]
        rfl
      · simp [PTE_V, hi]
    simp [has, hzero] at h
  apply BitVec.eq_of_getLsbD_eq
  intro i _
  by_cases hi : i = 0
  · subst hi
    simp [PTE_FLAGS, hbit]
  · simp [PTE_V, hi]

theorem flags_lt (pte : BitVec 64) : (PTE_FLAGS pte).toNat < 2 ^ 10 := by
  rw [PTE_FLAGS, BitVec.toNat_and]
  exact lt_of_le_of_lt Nat.and_le_right (by decide)

variable {old : Nat → BitVec 64}

theorem Copied.unmap_eq (h : Copied old m₀ m v) (hzero : ∀ x < v, m₀ x = 0) :
    unmap m 0 v = m₀ := by
  funext x
  by_cases hx : x < v
  · rw [hzero x hx]
    by_cases hv : has (m x) PTE_V
    · simp [unmap, hx, hv]
    · simpa [unmap, hv] using h.zero x hx (by simpa using hv)
  · rw [unmap_outside (.inr (by omega)), h.other x (by omega)]

/-- A page the parent has not is passed over. -/
theorem Copied.skip (h : Copied old m₀ m v) (hold : has (old v) PTE_V = false) (hv : m v = 0) :
    Copied old m₀ m (v + 1) := by
  have hinv : has (m v) PTE_V = false := by
    rw [hv]
    exact has_zero PTE_V
  refine ⟨fun x hx => ?_, fun x hx hxv => ?_, fun x hx hxv => ?_, fun x hx => h.other x (by omega)⟩
  · by_cases he : x = v
    · rw [he, hinv, hold]
    · exact h.valid x (by omega)
  · have he : x ≠ v := fun he => by rw [he, hold] at hxv; cases hxv
    exact h.flags x (by omega) hxv
  · by_cases he : x = v
    · rw [he, hv]
    · exact h.zero x (by omega) hxv

theorem Copied.push (h : Copied old m₀ m v) (hold : has (old v) PTE_V = true)
    (hpv : has pte PTE_V = true) (hflags : PTE_FLAGS pte = PTE_FLAGS (old v)) :
    Copied old m₀ (update m v pte) (v + 1) := by
  have hother : ∀ x ≠ v, update m v pte x = m x := fun x hx => update_of_ne hx _ _
  refine ⟨fun x hx => ?_, fun x hx hxv => ?_, fun x hx => ?_, fun x hx => ?_⟩
  · by_cases he : x = v
    · rw [he, update_self, hpv, hold]
    · rw [hother x he]
      exact h.valid x (by omega)
  · by_cases he : x = v
    · rw [he, update_self, hflags]
    · rw [hother x he]
      exact h.flags x (by omega) hxv
  · by_cases he : x = v
    · rw [he, update_self, hpv]
      exact nofun
    · rw [hother x he]
      exact h.zero x (by omega)
  · rw [hother x (by omega)]
    exact h.other x (by omega)

/-- How `uvmcopy` ends: with a copy of every page below `n`, or with none. -/
def CopyEnds (C R : Multiset Nat) (new : Nat) (mo m₀ : Nat → BitVec 64) (n : Nat) (s₀ : Mem)
    (r : Int) (t : Mem) : Prop :=
  Keeps C R s₀ t ∧
    ((r = 0 ∧ ∃ m', Copied mo m₀ m' n ∧ Table C (leaves m' 0 n + R) new m' t ∧
        Contents m' (fun v => s₀.ram (PTE2PA (mo v))) 0 n t) ∨
      (r = -1 ∧ Table C R new m₀ t))

/-- The loop of `uvmcopy`, after the pages below `v` were copied. The pages and the tables of the
parent are among those that stay as they are. -/
theorem uvmcopy_loop (hC : Pool L C) {old new : Nat} {mo : Nat → BitVec 64} {s₀ : Mem}
    (hsz : sz ≤ TRAPFRAME) (hzero : ∀ x < UVPN, m₀ x = 0) (hold : Reads s₀ old mo)
    (hle : tables s₀.ram 2 old ≤ R) (hpages : leaves mo 0 (pages sz) ≤ R) :
    ∀ fuel v m s, v ≤ pages sz → pages sz < fuel + v → Copied mo m₀ m v →
    Contents m (fun v => s₀.ram (PTE2PA (mo v))) 0 v s → Keeps C R s₀ s →
    Table C (leaves m 0 v + R) new m s →
    wp E (uvmcopy.loop L old new sz fuel (v * PGSIZE)) (CopyEnds C R new mo m₀ (pages sz) s₀) s := by
  have hU := pages_le_UVPN hsz
  intro fuel
  induction fuel with
  | zero =>
    intro v m s hv hfuel
    omega
  | succ fuel ih =>
    intro v m s hv hfuel hcop hcont hkeep h
    rw [uvmcopy.loop]
    refine wp_if (fun hlt => ?_) fun hge => ?_
    · have hvlt : v < pages sz := lt_pages_iff.mpr hlt
      have hmv : m v = 0 := by rw [hcop.other v (Nat.le_refl v), hzero v (by omega)]
      have hinv : has (m v) PTE_V = false := by
        rw [hmv]
        exact has_zero PTE_V
      -- a hole of the parent stays a hole of the child
      have hskip : has (mo v) PTE_V = false →
          wp E (uvmcopy.loop L old new sz fuel ((v + 1) * PGSIZE))
            (CopyEnds C R new mo m₀ (pages sz) s₀) s := by
        intro hhole
        refine ih (v + 1) m s (by omega) (by omega) (hcop.skip hhole hmv)
          (fun x hx hxv hvalid => ?_) hkeep ?_
        · have he : x ≠ v := fun he => by rw [he, hinv] at hvalid; cases hvalid
          exact hcont x hx (by omega) hvalid
        · rw [leaves_last (Nat.zero_le v), leafPage_invalid hinv, add_zero]
          exact h
      rw [page_step (by omega)]
      refine wp_lookup (hold.keeps hkeep hle).1 (page_lt_MAXVA (by omega)) (fun hz => ?_)
        fun a _ hentry => ?_
      · rw [page_div] at hz
        exact hskip (by rw [hz]; exact has_zero PTE_V)
      rw [page_div] at hentry
      rw [wp_bind, wp_load, hentry, wp_ite]
      refine ⟨hskip, fun hvalid => ?_⟩
      have hvalid : has (mo v) PTE_V = true := by simpa using hvalid
      have hsrc := mem_of_le hpages (mem_leaves (Nat.zero_le v) hvlt hvalid)
      refine wp_fill hC (s₀.ram (PTE2PA (mo v))) h (by omega) hinv (flags_lt (mo v))
        (fun p t P hkt hP => ?_) (fun t ht hkt _ => ?_) fun pte t _ hf => ?_
      · -- the page of the parent is what it was at the start
        rw [copyPage, wp_modify, hkt _ (.inl (mem_add.mpr (.inr hsrc))),
          hkeep _ (.inl hsrc)]
        exact hP
      · -- the error exit gives back the pages copied so far
        rw [wp_bind, page_div]
        refine wp_mono (uvmunmap_low hC (by omega) ht) fun _ u hu => ?_
        rw [hcop.unmap_eq fun x hx => hzero x (by omega)] at hu
        exact wp_ret ⟨(hkeep.trans (hkt.mono (le_add_left _ _))).trans hu.2, .inr ⟨rfl,
          hu.1⟩⟩
      · refine ih (v + 1) _ t (by omega) (by omega)
          (hcop.push hvalid hf.valid (by rw [hf.flags, flags_valid hvalid])) (hcont.push hf)
          (hkeep.trans (hf.keeps.mono (le_add_left _ _))) ?_
        rw [leaves_push (Nat.zero_le v), add_assoc]
        exact hf.table
    · have heq : v = pages sz := by
        have hnot : ¬ v < pages sz := fun hlt => hge (lt_pages_iff.mp hlt)
        omega
      subst heq
      exact wp_ret ⟨hkeep, .inl ⟨rfl, m, hcop, h, hcont⟩⟩

/-- `uvmcopy` into an address space without user memory: a copy of every page, or nothing. -/
theorem uvmcopy_spec (hC : Pool L C) {old new : Nat} {mo : Nat → BitVec 64} (hsz : sz ≤ TRAPFRAME)
    (hzero : ∀ x < UVPN, m x = 0) (hold : Reads s old mo) (hle : tables s.ram 2 old ≤ R)
    (hpages : leaves mo 0 (pages sz) ≤ R) (h : Table C R new m s) :
    wp E (uvmcopy L old new sz) (CopyEnds C R new mo m (pages sz) s) s := by
  have hfuel : pages sz < sz / PGSIZE + 2 + 0 := by
    simp only [pages, PGSIZE_eq]
    omega
  have hloop := uvmcopy_loop (E := E) hC hsz hzero hold hle hpages (sz / PGSIZE + 2) 0 m s
    (Nat.zero_le _) hfuel ⟨fun x hx => by omega, fun x hx => by omega, fun x hx => by omega,
      fun _ _ => rfl⟩ (fun x _ hx => by omega) (Keeps.refl C R s)
    (by rw [leaves_empty (Nat.le_refl 0), zero_add]; exact h)
  rw [Nat.zero_mul] at hloop
  exact hloop

end

end Xv6.Vm
