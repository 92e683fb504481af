import Mathlib.Algebra.Order.BigOperators.Group.Finset
import Xv6.Vm.PageTable

/-!
# Xv6.Vm.Tree — page tables as trees over raw memory

What a root page means: `leafAt` reads the entry of a virtual page number through
the levels, `tables` is the multiset of table pages met, each as often as it is
met. Nothing forces the pages of a tree to be distinct; where they are (`Heap`),
writing through one path leaves every other path alone, and the code that walks,
allocates, stores and frees is specified by what it does to `leafAt` and `tables`.
-/

namespace Xv6.Vm

open Lib Function Multiset

/-! ## Entries -/

variable {pa : Nat} {perm : BitVec 64}

theorem toNat_mk (hpa : pa < 2 ^ 44) (hperm : perm.toNat < 2 ^ 10) :
    (PA2PTE pa ||| perm).toNat = pa * 2 ^ 10 + perm.toNat := by
  unfold PA2PTE
  have hsh : (BitVec.ofNat 64 pa <<< 10).toNat = pa <<< 10 := by
    rw [BitVec.toNat_shiftLeft, BitVec.toNat_ofNat, Nat.shiftLeft_eq, Nat.shiftLeft_eq]
    omega
  rw [BitVec.toNat_or, hsh, ← Nat.shiftLeft_add_eq_or_of_lt hperm, Nat.shiftLeft_eq]

theorem PTE2PA_eq (pte : BitVec 64) : PTE2PA pte = pte.toNat / 2 ^ 10 % 2 ^ 52 := by
  simp only [PTE2PA, PGSIZE_eq, BitVec.toNat_shiftLeft, BitVec.toNat_ushiftRight,
    Nat.shiftLeft_eq, Nat.shiftRight_eq_div_pow]
  omega

/-- An entry gives back the page it was made for. -/
theorem PTE2PA_mk (hpa : pa < 2 ^ 44) (hperm : perm.toNat < 2 ^ 10) :
    PTE2PA (PA2PTE pa ||| perm) = pa := by
  rw [PTE2PA_eq, toNat_mk hpa hperm]
  omega

/-- And the flags it was made with. -/
theorem PTE_FLAGS_mk (hpa : pa < 2 ^ 44) (hperm : perm.toNat < 2 ^ 10) :
    PTE_FLAGS (PA2PTE pa ||| perm) = perm := by
  apply BitVec.eq_of_toNat_eq
  rw [PTE_FLAGS, BitVec.toNat_and, toNat_mk hpa hperm,
    show (0x3FF : BitVec 64).toNat = 2 ^ 10 - 1 from rfl, Nat.and_two_pow_sub_one_eq_mod]
  omega

/-- Testing flag bits looks at the flags of an entry only. -/
theorem has_eq_flags (pte : BitVec 64) {flags : BitVec 64} (h : PTE_FLAGS flags = flags) :
    has pte flags = has (PTE_FLAGS pte) flags := by
  unfold has
  rw [← h, PTE_FLAGS, PTE_FLAGS]
  congr 1
  rw [BitVec.and_assoc, BitVec.and_comm (0x3FF : BitVec 64), BitVec.and_assoc, BitVec.and_self]

theorem has_mk {flags : BitVec 64} (hpa : pa < 2 ^ 44) (hperm : perm.toNat < 2 ^ 10)
    (hflags : PTE_FLAGS flags = flags) :
    has (PA2PTE pa ||| perm) flags = has perm flags := by
  rw [has_eq_flags _ hflags, PTE_FLAGS_mk hpa hperm]

@[simp] theorem has_zero (flags : BitVec 64) : has 0#64 flags = false := by simp [has]

/-- The bits that make an entry a leaf. -/
def RWX : BitVec 64 := PTE_R ||| PTE_W ||| PTE_X

/-- The entry `walk` makes for a new table. -/
theorem table_entry (hpa : pa < 2 ^ 44) :
    has (PA2PTE pa ||| PTE_V) PTE_V = true ∧ has (PA2PTE pa ||| PTE_V) RWX = false ∧
      PTE2PA (PA2PTE pa ||| PTE_V) = pa := by
  refine ⟨?_, ?_, PTE2PA_mk hpa (by decide)⟩
  · rw [has_mk hpa (by decide) (by decide)]
    decide
  · rw [has_mk hpa (by decide) (by decide)]
    decide

/-- The index of virtual page `v` in a table at `level`. -/
@[irreducible] def ix (level v : Nat) : Fin 512 := ⟨v / 512 ^ level % 512, Nat.mod_lt _ (by decide)⟩

theorem PX_eq_ix (level va : Nat) : PX level va = ix level (va / PGSIZE) := by
  apply Fin.ext
  unfold ix
  show va / 2 ^ (12 + 9 * level) % 512 = va / PGSIZE / 512 ^ level % 512
  have h512 : (512 : Nat) ^ level = 2 ^ (9 * level) := by
    rw [show (512 : Nat) = 2 ^ 9 from rfl, ← Nat.pow_mul]
  rw [Nat.div_div_eq_div_mul, h512, show PGSIZE = 2 ^ 12 from rfl, ← Nat.pow_add]

/-- Two virtual pages agree below `level + 2` exactly when they agree in the index at
`level + 1` and below. -/
theorem mod_eq_iff (level v w : Nat) :
    w % 512 ^ (level + 2) = v % 512 ^ (level + 2) ↔
      ix (level + 1) w = ix (level + 1) v ∧ w % 512 ^ (level + 1) = v % 512 ^ (level + 1) := by
  unfold ix
  rw [Nat.pow_succ 512 (level + 1), Nat.mod_mul, Nat.mod_mul, Fin.ext_iff]
  show _ ↔ w / 512 ^ (level + 1) % 512 = v / 512 ^ (level + 1) % 512 ∧ _
  have hpos : 0 < 512 ^ (level + 1) := Nat.pow_pos (by decide)
  have hw := Nat.mod_lt w hpos
  have hv := Nat.mod_lt v hpos
  generalize 512 ^ (level + 1) = b at *
  constructor
  · intro h
    have hlow : w % b = v % b := by
      have := congrArg (· % b) h
      simpa [Nat.add_mul_mod_self_left, Nat.mod_eq_of_lt hw, Nat.mod_eq_of_lt hv] using this
    refine ⟨?_, hlow⟩
    rw [hlow] at h
    exact Nat.eq_of_mul_eq_mul_left hpos (Nat.add_left_cancel h)
  · rintro ⟨h₁, h₂⟩
    rw [h₁, h₂]

/-! ## Trees -/

/-- The entry of virtual page `v` under the table `p` at a level, 0 if a table is missing. -/
def leafAt (ram : Nat → Page) : Nat → Nat → Nat → BitVec 64
  | 0, p, v => ram p (ix 0 v)
  | level + 1, p, v =>
    if has (ram p (ix (level + 1) v)) PTE_V then
      leafAt ram level (PTE2PA (ram p (ix (level + 1) v))) v
    else 0

/-- Where that entry is stored. -/
def slot (ram : Nat → Page) : Nat → Nat → Nat → Option Slot
  | 0, p, v => some (p, ix 0 v)
  | level + 1, p, v =>
    if has (ram p (ix (level + 1) v)) PTE_V then
      slot ram level (PTE2PA (ram p (ix (level + 1) v))) v
    else none

/-- The table pages under `p`, `p` included. -/
def tables (ram : Nat → Page) : Nat → Nat → Multiset Nat
  | 0, p => {p}
  | level + 1, p =>
    p ::ₘ ∑ i, if has (ram p i) PTE_V then tables ram level (PTE2PA (ram p i)) else 0

/-- Entries of interior tables point to tables: none has a leaf bit. -/
def Interior (ram : Nat → Page) : Nat → Nat → Prop
  | 0, _ => True
  | level + 1, p => ∀ i, has (ram p i) PTE_V →
      has (ram p i) RWX = false ∧ Interior ram level (PTE2PA (ram p i))

/-- The table pages under entry `i` of the interior table `p`. -/
def kid (ram : Nat → Page) (level p : Nat) (i : Fin 512) : Multiset Nat :=
  if has (ram p i) PTE_V then tables ram level (PTE2PA (ram p i)) else 0

/-- The table pages under the other entries of `p`. -/
@[irreducible] def others (ram : Nat → Page) (level p : Nat) (i : Fin 512) : Multiset Nat :=
  ∑ j ∈ Finset.univ.erase i, kid ram level p j

section
variable (ram : Nat → Page)

theorem others_add_kid (level p : Nat) (i : Fin 512) :
    others ram level p i + kid ram level p i = ∑ j, kid ram level p j := by
  unfold others
  exact Finset.sum_erase_add Finset.univ (kid ram level p) (Finset.mem_univ i)

theorem tables_eq_sum (level p : Nat) :
    tables ram (level + 1) p = p ::ₘ ∑ i, kid ram level p i := by
  simp only [tables, kid]

theorem tables_succ (level p : Nat) (i : Fin 512) :
    tables ram (level + 1) p = p ::ₘ (others ram level p i + kid ram level p i) := by
  rw [tables_eq_sum, others_add_kid]

-- the sums over all 512 entries are never to be unfolded
attribute [irreducible] tables

theorem mem_tables_self (level p : Nat) : p ∈ tables ram level p := by
  cases level <;> simp [tables]

end

theorem kid_le_others {ram : Nat → Page} {level p : Nat} {i j : Fin 512} (h : j ≠ i) :
    kid ram level p j ≤ others ram level p i := by
  unfold others
  exact Finset.single_le_sum (fun _ _ => zero_le _)
    (Finset.mem_erase.mpr ⟨h, Finset.mem_univ j⟩)

theorem kid_le_tables (ram : Nat → Page) (level p : Nat) (i : Fin 512) :
    kid ram level p i ≤ tables ram (level + 1) p := by
  rw [tables_succ ram level p i]
  exact (le_add_left _ _).trans (le_cons_self _ _)

theorem kid_valid {ram : Nat → Page} {level p : Nat} {i : Fin 512} (h : has (ram p i) PTE_V) :
    kid ram level p i = tables ram level (PTE2PA (ram p i)) := by
  simp [kid, h]

variable {v : Nat}

theorem slot_mem {ram : Nat → Page} {a : Slot} : ∀ {level p : Nat},
    slot ram level p v = some a → a.1 ∈ tables ram level p := by
  intro level
  induction level with
  | zero =>
    intro p h
    simp only [slot, Option.some.injEq] at h
    simp [← h, tables]
  | succ level ih =>
    intro p h
    simp only [slot, Option.ite_none_right_eq_some] at h
    rcases h with ⟨hv, h⟩
    refine mem_of_le (kid_le_tables ram level p (ix (level + 1) v)) ?_
    rw [kid_valid hv]
    exact ih h

/-- The slot of a page holds its entry. -/
theorem leafAt_slot {ram : Nat → Page} {a : Slot} : ∀ {level p : Nat},
    slot ram level p v = some a → leafAt ram level p v = ram a.1 a.2 := by
  intro level
  induction level with
  | zero =>
    intro p h
    simp only [slot, Option.some.injEq] at h
    simp [← h, leafAt]
  | succ level ih =>
    intro p h
    simp only [slot, Option.ite_none_right_eq_some] at h
    simp only [leafAt, h.1, if_true]
    exact ih h.2

theorem leafAt_none {ram : Nat → Page} : ∀ {level p : Nat},
    slot ram level p v = none → leafAt ram level p v = 0 := by
  intro level
  induction level with
  | zero => intro p h; simp [slot] at h
  | succ level ih =>
    intro p h
    simp only [slot, leafAt] at h ⊢
    split
    · next hv =>
      rw [if_pos hv] at h
      exact ih h
    · rfl

/-! ## Locality -/

section Locality
variable {ram ram' : Nat → Page}

/-- A tree depends on its table pages only. -/
theorem tree_congr : ∀ {level p : Nat}, (∀ q ∈ tables ram level p, ram' q = ram q) →
    tables ram' level p = tables ram level p ∧ leafAt ram' level p = leafAt ram level p ∧
      slot ram' level p = slot ram level p ∧
      (Interior ram level p → Interior ram' level p) := by
  intro level
  induction level with
  | zero =>
    intro p h
    have hp : ram' p = ram p := h p (mem_tables_self ram 0 p)
    exact ⟨by simp only [tables], by funext v; simp [leafAt, hp], rfl, id⟩
  | succ level ih =>
    intro p h
    have hp : ram' p = ram p := h p (mem_tables_self ram _ p)
    have hkid : ∀ i, has (ram p i) PTE_V → ∀ q ∈ tables ram level (PTE2PA (ram p i)),
        ram' q = ram q := by
      intro i hv q hq
      refine h q (mem_of_le (kid_le_tables ram level p i) ?_)
      rwa [kid_valid hv]
    refine ⟨?_, ?_, ?_, ?_⟩
    · simp only [tables, hp]
      refine congrArg (p ::ₘ ·) (Finset.sum_congr rfl fun i _ => ?_)
      by_cases hv : has (ram p i) PTE_V
      · simp only [hv, if_true, (ih (hkid i hv)).1]
      · simp only [hv, if_false, Bool.false_eq_true]
    · funext v
      simp only [leafAt, hp]
      split
      · next hv => rw [(ih (hkid _ hv)).2.1]
      · rfl
    · funext v
      simp only [slot, hp]
      split
      · next hv => rw [(ih (hkid _ hv)).2.2.1]
      · rfl
    · intro hint i hv
      rw [hp] at hv ⊢
      exact ⟨(hint i hv).1, (ih (hkid i hv)).2.2.2 (hint i hv).2⟩

/-- Memory changed under entry `i` of `p` only: the entry itself, and pages outside the
other subtrees. -/
structure Under (ram ram' : Nat → Page) (level p : Nat) (i : Fin 512) : Prop where
  entry : ∀ j, j ≠ i → ram' p j = ram p j
  page : ∀ q ∈ others ram level p i, ram' q = ram q

variable {level p : Nat} {i : Fin 512} (h : Under ram ram' level p i)
include h

theorem Under.kid_page {j : Fin 512} (hj : j ≠ i) (hv : has (ram p j) PTE_V) :
    ∀ q ∈ tables ram level (PTE2PA (ram p j)), ram' q = ram q := by
  intro q hq
  refine h.page q (mem_of_le (kid_le_others hj) ?_)
  rwa [kid_valid hv]

theorem Under.others_eq : others ram' level p i = others ram level p i := by
  unfold others
  refine Finset.sum_congr rfl fun j hj => ?_
  have hji : j ≠ i := (Finset.mem_erase.mp hj).1
  simp only [kid, h.entry j hji]
  split
  · next hv => exact (tree_congr (h.kid_page hji hv)).1
  · rfl

theorem Under.tables_eq :
    tables ram' (level + 1) p = p ::ₘ (others ram level p i + kid ram' level p i) := by
  rw [tables_succ ram' level p i, h.others_eq]

/-- A page whose path goes through another entry is not affected. -/
theorem Under.leafAt_eq (hv : ix (level + 1) v ≠ i) :
    leafAt ram' (level + 1) p v = leafAt ram (level + 1) p v := by
  simp only [leafAt, h.entry _ hv]
  split
  · next hvalid => rw [(tree_congr (h.kid_page hv hvalid)).2.1]
  · rfl

theorem Under.interior (hint : Interior ram (level + 1) p)
    (hi : has (ram' p i) PTE_V → has (ram' p i) RWX = false ∧
      Interior ram' level (PTE2PA (ram' p i))) : Interior ram' (level + 1) p := by
  intro j hv
  by_cases hj : j = i
  · subst hj
    exact hi hv
  · rw [h.entry j hj] at hv ⊢
    exact ⟨(hint j hv).1, (tree_congr (h.kid_page hj hv)).2.2.2 (hint j hv).2⟩

end Locality

/-! ## Storing through a slot -/

/-- Memory after one word was written. -/
def poke (ram : Nat → Page) (a : Slot) (w : BitVec 64) : Nat → Page :=
  update ram a.1 (update (ram a.1) a.2 w)

theorem poke_of_ne {ram : Nat → Page} {a : Slot} {w : BitVec 64} {q : Nat} (h : q ≠ a.1) :
    poke ram a w q = ram q :=
  update_of_ne h _ _

/-- Writing the entry of one page in a tree of distinct tables changes that page's entry and
nothing else. -/
theorem tree_poke {ram : Nat → Page} {a : Slot} {w : BitVec 64} : ∀ {level p : Nat},
    (tables ram level p).Nodup → slot ram level p v = some a →
      tables (poke ram a w) level p = tables ram level p ∧
      (∀ x, leafAt (poke ram a w) level p x =
        if x % 512 ^ (level + 1) = v % 512 ^ (level + 1) then w else leafAt ram level p x) ∧
      (Interior ram level p → Interior (poke ram a w) level p) := by
  intro level
  induction level with
  | zero =>
    intro p _ h
    simp only [slot, Option.some.injEq] at h
    subst h
    refine ⟨by simp only [tables], fun x => ?_, fun _ => trivial⟩
    have hix : x % 512 = v % 512 ↔ ix 0 x = ix 0 v := by
      simp [Fin.ext_iff, ix]
    simp only [leafAt, poke, update_self, update_apply, Nat.zero_add,
      Nat.pow_one, hix]
  | succ level ih =>
    intro p hnd h
    simp only [slot, Option.ite_none_right_eq_some] at h
    rcases h with ⟨hv, hslot⟩
    rw [tables_succ ram level p (ix (level + 1) v), kid_valid hv] at hnd
    rcases nodup_cons.mp hnd with ⟨hp, hnd'⟩
    rcases nodup_add.mp hnd' with ⟨-, hndk, hdisj⟩
    have ha := slot_mem hslot
    have hpa : p ≠ a.1 := by
      rintro rfl
      exact hp (mem_add.mpr (.inr ha))
    have hunder : Under ram (poke ram a w) level p (ix (level + 1) v) := by
      refine ⟨fun j _ => by rw [poke_of_ne hpa], fun q hq => poke_of_ne ?_⟩
      rintro rfl
      exact disjoint_left.mp hdisj hq ha
    rcases ih hndk hslot with ⟨htab, hleaf, hint⟩
    refine ⟨?_, fun x => ?_, fun hi => ?_⟩
    · rw [hunder.tables_eq, tables_succ ram level p (ix (level + 1) v), kid_valid hv,
        kid_valid (by rwa [poke_of_ne hpa]), poke_of_ne hpa, htab]
    · by_cases hx : ix (level + 1) x = ix (level + 1) v
      · have hmod := mod_eq_iff level v x
        simp only [hx, true_and] at hmod
        simp only [leafAt, poke_of_ne hpa, hx, hv, if_true, hleaf, hmod]
      · rw [hunder.leafAt_eq hx, if_neg]
        intro hmod
        exact hx ((mod_eq_iff level v x).mp hmod).1
    · refine hunder.interior hi fun _ => ?_
      rw [poke_of_ne hpa]
      exact ⟨(hi _ hv).1, hint (hi _ hv).2⟩

/-! ## A fresh table -/

theorem tree_zero {ram : Nat → Page} {p : Nat} (h : ∀ i, ram p i = 0) (level : Nat) :
    tables ram level p = {p} ∧ (∀ v, leafAt ram level p v = 0) ∧ Interior ram level p := by
  cases level with
  | zero => exact ⟨by simp only [tables], fun v => h _, trivial⟩
  | succ level =>
    refine ⟨?_, fun v => ?_, fun i hv => ?_⟩
    · simp [tables, h]
    · simp [leafAt, h]
    · rw [h] at hv
      simp at hv

end Xv6.Vm
