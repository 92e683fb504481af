import Xv6.Vm.User

/-!
# Xv6.Vm.Copy — page faults and copies between kernel and user memory

`vmfault` may add a page to the address space of the current process; `copyout` and
`copyin` call it for pages below `sz` that are not there yet. All of them keep the
process in possession of its pages (`User`) and touch nobody else's memory. A
`copyout` into a table whose pages are all there, as in `kexec`, does not fault.
-/

namespace Xv6.Vm

open Lib Function Multiset List

section
variable {L : Layout} {C R : Multiset Nat} {s t : Mem} {E : Panic → Prop}
  {p : ProcMem} {root v va : Nat} {m m' : Nat → BitVec 64}

/-! ## Looking addresses up -/

/-- The page `walkaddr` finds for `va`. -/
def userAddr (m : Nat → BitVec 64) (va : Nat) : Nat :=
  if va < MAXVA ∧ has (m (va / PGSIZE)) PTE_V ∧ has (m (va / PGSIZE)) PTE_U then
    PTE2PA (m (va / PGSIZE))
  else 0

theorem walkaddr_spec (h : Reads s root m) (va : Nat) {Q : Nat → Mem → Prop}
    (hQ : Q (userAddr m va) s) : wp E (walkaddr root va) Q s := by
  rw [walkaddr]
  refine wp_if (fun hge => ?_) fun hlt => ?_
  · rw [userAddr, if_neg (fun hc => absurd hc.1 (Nat.not_lt.mpr hge))] at hQ
    exact wp_ret hQ
  have hva : va < MAXVA := lt_of_not_ge hlt
  refine wp_lookup h hva (fun hz => ?_) fun a _ hentry => ?_
  · have hinv : has (m (va / PGSIZE)) PTE_V = false := hz ▸ has_zero PTE_V
    rw [userAddr, hinv, if_neg (by simp)] at hQ
    exact wp_ret hQ
  · rw [wp_bind, wp_load, hentry]
    unfold userAddr at hQ
    cases hv : has (m (va / PGSIZE)) PTE_V with
    | false =>
      rw [hv, if_neg (by simp)] at hQ
      rw [if_pos rfl, wp_pure]
      exact hQ
    | true =>
      rw [if_neg (by decide)]
      cases hu : has (m (va / PGSIZE)) PTE_U with
      | false =>
        rw [hu, if_neg (by simp)] at hQ
        rw [if_pos rfl, wp_pure]
        exact hQ
      | true =>
        rw [hv, hu, if_pos ⟨hva, rfl, rfl⟩] at hQ
        rw [if_neg (by decide), wp_pure]
        exact hQ

theorem ismapped_spec (h : Reads s root m) (hva : va < MAXVA) {Q : Bool → Mem → Prop}
    (hQ : Q (has (m (va / PGSIZE)) PTE_V) s) : wp E (ismapped root va) Q s := by
  rw [ismapped]
  refine wp_lookup h hva (fun hz => ?_) fun a _ hentry => ?_
  · have hinv : has (m (va / PGSIZE)) PTE_V = false := hz ▸ has_zero PTE_V
    rw [hinv] at hQ
    exact wp_ret hQ
  · rw [wp_bind, wp_load, hentry, wp_pure]
    exact hQ

/-- A user address is one of a user page: the two special pages are not for users. -/
theorem Space.userAddr_ne (h : Space L m p.sz p.trapframe) (htf : p.trapframe < 2 ^ 44)
    (hne : userAddr m va ≠ 0) :
    va / PGSIZE < UVPN ∧ has (m (va / PGSIZE)) PTE_V = true ∧ has (m (va / PGSIZE)) PTE_U = true ∧
      userAddr m va = PTE2PA (m (va / PGSIZE)) := by
  unfold userAddr at hne ⊢
  split at hne
  · next hc =>
    rw [if_pos hc]
    refine ⟨?_, hc.2.1, hc.2.2, rfl⟩
    rcases hc with ⟨hva, -, hu⟩
    have hlt : va / PGSIZE < UVPN + 2 := by
      rw [MAXVA_eq] at hva
      exact Nat.div_lt_of_lt_mul (by rw [Nat.mul_comm]; exact hva)
    by_contra hge
    have htramp : L.trampoline < 2 ^ 44 := by
      have h₁ := L.trampoline_lt
      have h₂ := L.endPage_le
      rw [PHYSTOP_page] at h₂
      omega
    rcases (by omega : va / PGSIZE = UVPN ∨ va / PGSIZE = UVPN + 1) with he | he
    · rw [he, h.trapframe, BitVec.or_assoc, has_mk htf (by decide) (by decide)] at hu
      revert hu
      decide
    · rw [he, h.trampoline, BitVec.or_assoc, has_mk htramp (by decide) (by decide)] at hu
      revert hu
      decide
  · exact absurd rfl hne

/-! ## Faulting a page in -/

theorem page_of_lt (h : va < p.sz) : va / PGSIZE < pages p.sz := by
  rw [lt_pages_iff, PGSIZE_eq]
  omega

/-- A page in place of one that was missing: the process sees the same. -/
theorem User.fault_in (h : User L C R p m s) (hv : v < pages p.sz) (hinv : has (m v) PTE_V = false)
    {pte : BitVec 64}
    (hf : Filled C (leaves m 0 UVPN + R) p.pagetable v m (PTE_W ||| PTE_U ||| PTE_R) (filled 0)
      pte s t) :
    User L C R p (update m v pte) t ∧ view t p = view s p := by
  have hvU := lt_of_lt_of_le hv (pages_le_UVPN h.space.size)
  have hother : ∀ x ≠ v, update m v pte x = m x :=
    fun x hx => update_of_ne hx _ _
  have hu : User L C R p (update m v pte) t := by
    constructor
    · convert hf.table using 1
      rw [← leaves_append (Nat.zero_le v) (le_of_lt hvU), leaves_first hvU,
        ← leaves_append (m := m) (Nat.zero_le v) (le_of_lt hvU), leaves_first hvU,
        leafPage_invalid hinv, update_self,
        leaves_congr fun x _ hx => hother x (by omega),
        leaves_congr (a := v + 1) fun x hx _ => hother x (by omega)]
      abel
    · refine h.space.change h.space.size (fun x hx => hother x (by omega))
        (fun x hx hvalid => ?_) fun x hx hinv' => ?_
      · by_cases he : x = v
        · rw [he]
          exact hv
        · rw [hother x he] at hvalid
          exact h.space.user x hx hvalid
      · by_cases he : x = v
        · rw [he, update_self, hf.valid] at hinv'
          cases hinv'
        · rw [hother x he] at hinv' ⊢
          exact h.space.zero x hx hinv'
  refine ⟨hu, ?_⟩
  rw [← h.view_same]
  refine h.view_resize hu (fun x hx _ => ?_) fun x hx hx' => absurd hx' (Nat.not_lt.mpr hx)
  by_cases he : x = v
  · rw [he, update_self, pageView_blank hvU hf.flags hf.bytes, pageView_invalid hvU hinv,
      if_pos hv]
  · rw [hother x he]
    exact pageView_keep hf.keeps (lt_of_lt_of_le hx (pages_le_UVPN h.space.size)) Iff.rfl

section
variable (hC : Pool L C)
include hC

/-- `vmfault` adds a page that is missing, or finds no memory for it, or changes nothing. The
process sees the same before and after. -/
theorem vmfault_spec (h : User L C R p m s) (va : Nat) :
    wp E (vmfault L p p.pagetable va) (fun r t => Keeps C R s t ∧
      ∃ m', User L C R p m' t ∧ view t p = view s p ∧
        ((r = 0 ∧ (va < p.sz → mapped s p (va / PGSIZE) = false → Starved t p va)) ∨
          (r ≠ 0 ∧ va < p.sz ∧ has (m' (va / PGSIZE)) PTE_V = true ∧
            PTE2PA (m' (va / PGSIZE)) = r ∧ view t p (va / PGSIZE) = some ⟨true, t.ram r⟩ ∧
            has (m' (va / PGSIZE)) PTE_W = true))) s := by
  have hpU := pages_le_UVPN h.space.size
  rw [vmfault]
  refine wp_if (fun hge => ?_) fun hlt => ?_
  · exact wp_ret ⟨Keeps.refl C R s, m, h, rfl, .inl ⟨rfl, fun hva => absurd hva (Nat.not_lt.mpr
      hge)⟩⟩
  have hvp := page_of_lt (lt_of_not_ge hlt)
  have hvU := lt_of_lt_of_le hvp hpU
  have hmapped := h.mapped_eq hvU
  have hround : PGROUNDDOWN va = va / PGSIZE * PGSIZE := rfl
  rw [hround, wp_bind]
  refine ismapped_spec h.table.toReads (page_lt_MAXVA (by omega)) ?_
  rw [page_div]
  refine wp_if (fun hvalid => ?_) fun hnot => ?_
  · rw [wp_pure]
    refine ⟨Keeps.refl C R s, m, h, rfl, .inl ⟨rfl, fun _ hinv => ?_⟩⟩
    rw [hmapped, hvalid] at hinv
    cases hinv
  have hinv : has (m (va / PGSIZE)) PTE_V = false := by simpa using hnot
  refine wp_fill hC (filled 0) h.table hvU hinv (by decide)
    (fun q t P _ hP => (wp_memset ..).mpr hP) (fun t ht hkt hfree => ?_) fun pte t h0 hf => ?_
  · have ht' : User L C R p m t := ⟨ht, h.space⟩
    rw [wp_pure]
    refine ⟨hkt.mono (le_add_left _ _), m, ht', ?_,
      .inl ⟨rfl, fun _ _ => ⟨hvp, ?_, hfree⟩⟩⟩
    · rw [← h.view_same]
      exact h.view_resize ht'
        (fun x hx _ => pageView_keep hkt (lt_of_lt_of_le hx hpU) Iff.rfl)
        fun x hx hx' => absurd hx' (Nat.not_lt.mpr hx)
    · rw [ht'.mapped_eq hvU]
      exact hinv
  · rcases h.fault_in hvp hinv hf with ⟨hu, hview⟩
    rw [wp_pure]
    refine ⟨hf.keeps.mono (le_add_left _ _), _, hu, hview,
      .inr ⟨h0, lt_of_not_ge hlt, ?_⟩⟩
    rw [hu.view_apply, update_self, pageView_blank hvU hf.flags hf.bytes, hf.bytes]
    refine ⟨hf.valid, rfl, rfl, ?_⟩
    rw [has_eq_flags pte (by decide), hf.flags]
    decide

/-- Where `walkaddr` finds nothing, the process sees nothing, or a page that is missing. -/
theorem User.userAddr_zero (h : User L C R p m s) (hz : userAddr m va = 0) (hv : va < MAXVA) :
    view s p (va / PGSIZE) = none ∨
      (va / PGSIZE < pages p.sz ∧ mapped s p (va / PGSIZE) = false) := by
  by_cases hvU : va / PGSIZE < UVPN
  · rw [h.view_apply, h.mapped_eq hvU]
    cases hvalid : has (m (va / PGSIZE)) PTE_V with
    | false =>
      rw [pageView_invalid hvU hvalid]
      by_cases hsz : va / PGSIZE < pages p.sz
      · exact .inr ⟨hsz, rfl⟩
      · exact .inl (if_neg hsz)
    | true =>
      left
      rw [pageView_valid hvU hvalid]
      refine if_neg fun huser => ?_
      -- a user page is a page of the pool, hence not null
      have hmem : PTE2PA (m (va / PGSIZE)) ∈ C := h.table.heap.mem
        (mem_add.mpr (.inr (mem_add.mpr (.inl
          (mem_leaves (Nat.zero_le _) hvU hvalid)))))
      rw [userAddr, if_pos ⟨hv, hvalid, huser⟩] at hz
      exact hC.pos hmem hz
  · left
    rw [view, pageView, if_pos (le_of_not_gt hvU)]

/-- The page behind a user address, faulted in where needed: the page that the process sees there,
or null if it sees none or there is no memory. -/
theorem userPage_spec (h : User L C R p m s) (htf : p.trapframe < 2 ^ 44) (va : Nat) :
    wp E (userPage L p p.pagetable (PGROUNDDOWN va)) (fun r t => Keeps C R s t ∧
      ∃ m', User L C R p m' t ∧ view t p = view s p ∧
        ((r = 0 ∧ (view s p (va / PGSIZE) = none ∨ Starved t p va)) ∨
          (r ≠ 0 ∧ va / PGSIZE < UVPN ∧ has (m' (va / PGSIZE)) PTE_V = true ∧
            PTE2PA (m' (va / PGSIZE)) = r ∧
            view s p (va / PGSIZE) = some ⟨has (m' (va / PGSIZE)) PTE_W, t.ram r⟩))) s := by
  have hpage : PGROUNDDOWN va / PGSIZE = va / PGSIZE := page_div _
  rw [userPage, wp_bind]
  refine walkaddr_spec h.table.toReads (PGROUNDDOWN va) ?_
  refine wp_if (fun hzero => ?_) fun hne => ?_
  · refine wp_mono (vmfault_spec hC h (PGROUNDDOWN va)) fun r t ht => ⟨ht.1, ?_⟩
    rcases ht.2 with ⟨m', hu, hview, ⟨hr, hmiss⟩ | ⟨hr, hlt, hvalid, heq, hseen, hpw⟩⟩
    · refine ⟨m', hu, hview, .inl ⟨hr, ?_⟩⟩
      by_cases hva : PGROUNDDOWN va < MAXVA
      · refine (hpage ▸ h.userAddr_zero hC hzero hva).imp_right fun hmissing => ?_
        have hlt : PGROUNDDOWN va < p.sz := lt_pages_iff.mp hmissing.1
        have hstarved := hmiss hlt (by rw [hpage]; exact hmissing.2)
        unfold Starved at hstarved
        rw [hpage] at hstarved
        exact hstarved
      · left
        have hvU : UVPN ≤ va / PGSIZE := by
          rw [MAXVA_eq, PGROUNDDOWN, Nat.mul_lt_mul_right (by decide)] at hva
          omega
        rw [view, pageView, if_pos hvU]
    · rw [hpage] at hvalid heq hseen hpw
      refine ⟨m', hu, hview, .inr ⟨hr, ?_, hvalid, heq, ?_⟩⟩
      · rw [← hpage]
        exact lt_of_lt_of_le (page_of_lt hlt) (pages_le_UVPN h.space.size)
      · rw [← hview, hseen, hpw]
  · rw [wp_pure]
    rcases h.space.userAddr_ne htf hne with ⟨hvU, hvalid, huser, heq⟩
    rw [hpage] at hvU hvalid huser heq
    refine ⟨Keeps.refl C R s, m, h, rfl, .inr ⟨hne, hvU, hvalid, heq.symm, ?_⟩⟩
    rw [h.view_apply, pageView_valid hvU hvalid, if_pos huser, heq]

/-! ## Copying -/

/-- Writing to a user page disturbs neither the tables nor anybody else's memory. -/
theorem Table.write_leaf {U : Multiset Nat} {q : Nat} (h : Table C (U + R) root m s) (hq : q ∈ U)
    (page : Page) :
    Table C (U + R) root m (s.write q page) ∧ Keeps C R s (s.write q page) := by
  have hnd := (nodup_add.mp (h.heap.nodup hC)).2.1
  have hqR := disjoint_left.mp (nodup_add.mp hnd).2.2 hq
  have hqC : q ∈ C := h.heap.mem (by simp [hq])
  have hram : ∀ x ≠ q, (s.write q page).ram x = s.ram x := fun x hx => s.write_of_ne page hx
  refine ⟨h.keep hC (fun x hx => hram x ?_) rfl rfl, Keeps.of_ne hram hqC hqR⟩
  rintro rfl
  exact hx (mem_add.mpr (.inl hq))

/-- Different pages of the address space are different pages of memory. -/
theorem Table.leaf_inj (h : Table C (leaves m 0 UVPN + R) root m s) {x : Nat} (hv : v < UVPN)
    (hx : x < UVPN) (hvalid : has (m v) PTE_V = true) (hvalid' : has (m x) PTE_V = true)
    (hne : x ≠ v) : PTE2PA (m x) ≠ PTE2PA (m v) := by
  have hnd : (leaves m 0 UVPN).Nodup :=
    (nodup_add.mp (nodup_add.mp (h.heap.nodup hC)).2.1).1
  have hlt {a b : Nat} (hab : a < b) (hb : b < UVPN) (ha : has (m a) PTE_V = true)
      (hbv : has (m b) PTE_V = true) : PTE2PA (m a) ≠ PTE2PA (m b) := by
    intro heq
    rw [← leaves_append (Nat.zero_le b) (le_of_lt hb)] at hnd
    refine disjoint_left.mp (nodup_add.mp hnd).2.2
      (mem_leaves (Nat.zero_le a) hab ha) ?_
    rw [heq]
    exact mem_leaves (Nat.le_refl b) hb hbv
  rcases Nat.lt_or_gt_of_ne hne with hlt' | hgt
  · exact hlt hlt' hv hvalid' hvalid
  · exact (hlt hgt hx hvalid hvalid').symm

/-- Writing to a page of the process. -/
theorem User.write_page (h : User L C R p m s) (hv : v < UVPN) (hvalid : has (m v) PTE_V = true)
    {pg : UPage} (hseen : view s p v = some pg) (page : Page) :
    User L C R p m (s.write (PTE2PA (m v)) page) ∧
      Keeps C R s (s.write (PTE2PA (m v)) page) ∧
      view (s.write (PTE2PA (m v)) page) p =
        update (view s p) v (some ⟨pg.write, page⟩) := by
  rcases h.table.write_leaf hC (mem_leaves (Nat.zero_le v) hv hvalid) page with ⟨htab, hkeep⟩
  have hu : User L C R p m (s.write (PTE2PA (m v)) page) := ⟨htab, h.space⟩
  refine ⟨hu, hkeep, funext fun x => ?_⟩
  rw [h.view_apply, pageView_valid hv hvalid] at hseen
  obtain ⟨huser, hpg⟩ := Option.ite_none_right_eq_some.mp hseen
  cases hpg
  rw [hu.view_apply]
  by_cases hx : x = v
  · rw [hx, update_self, pageView_valid hv hvalid, if_pos huser, Mem.write_self]
  rw [update_of_ne hx, h.view_apply]
  by_cases hxU : x < UVPN
  · cases hxv : has (m x) PTE_V with
    | false => rw [pageView_invalid hxU hxv, pageView_invalid hxU hxv]
    | true =>
      rw [pageView_valid hxU hxv, pageView_valid hxU hxv,
        Mem.write_of_ne _ _ (h.table.leaf_inj hC hv hxU hvalid hxv hx)]
  · rw [pageView, pageView, if_pos (le_of_not_gt hxU), if_pos (le_of_not_gt hxU)]

end

/-- One turn of a copy loop leaves fewer bytes. -/
theorem drop_shorter {α : Type} {b : α} {bs : List α} {fuel n : Nat} (hn : 0 < n)
    (h : (b :: bs).length ≤ fuel + 1) : ((b :: bs).drop n).length ≤ fuel := by
  rw [length_drop]
  omega

/-- The part of a copy that lies on the first page. -/
def chunk (va len : Nat) : Nat := min (PGSIZE - (va - PGROUNDDOWN va)) len

theorem chunk_pos (va : Nat) {len : Nat} (hlen : 0 < len) : 0 < chunk va len := by
  simp only [chunk, PGROUNDDOWN, PGSIZE_eq]
  omega

theorem chunk_le (va len : Nat) : chunk va len ≤ len := Nat.min_le_right _ _

theorem off_eq (va : Nat) : va - PGROUNDDOWN va = va % PGSIZE := by
  rw [PGROUNDDOWN, PGSIZE_eq]
  omega

theorem chunk_fits (va len : Nat) : va % PGSIZE + chunk va len ≤ PGSIZE := by
  rw [chunk, off_eq, PGSIZE_eq]
  omega

/-- What does not fit on the first page goes on at the next. -/
theorem next_chunk {len : Nat} (hv : va / PGSIZE < UVPN) (hlt : chunk va len < len) :
    u64 (PGROUNDDOWN va + PGSIZE) = va + chunk va len := by
  rw [UVPN_eq] at hv
  unfold chunk at hlt ⊢
  rw [off_eq] at hlt ⊢
  rw [u64, PGROUNDDOWN, PGSIZE_eq] at *
  omega

variable (hC : Pool L C)
include hC

section
variable (htf : p.trapframe < 2 ^ 44)
include htf

/-- What `copyout` does to the memory that the process sees, unless a page that is missing finds
no memory. -/
theorem copyout_loop :
    ∀ fuel dstva src m s, src.length ≤ fuel → User L C R p m s →
    wp E (copyout.loop L p p.pagetable fuel dstva src) (fun r t => Keeps C R s t ∧
      (∃ m', User L C R p m' t) ∧
      ((view s p).copyout dstva src = (r, view t p) ∨
        ∃ k < src.length, (view s p).copyout dstva (src.take k) = (0, view t p) ∧ r = -1 ∧
          Starved t p (dstva + k))) s := by
  intro fuel
  induction fuel with
  | zero =>
    intro dstva src m s hlen h
    rw [eq_nil_of_length_eq_zero (Nat.le_zero.mp hlen), copyout.loop, wp_pure]
    exact ⟨Keeps.refl C R s, ⟨m, h⟩, .inl rfl⟩
  | succ fuel ih =>
    intro dstva src m s hlen h
    cases src with
    | nil =>
      rw [copyout.loop, wp_pure]
      exact ⟨Keeps.refl C R s, ⟨m, h⟩, .inl rfl⟩
    | cons b bs =>
      rw [copyout.loop]
      refine wp_if (fun hge => ?_) fun hlt => ?_
      · rw [wp_pure]
        have hvU : UVPN ≤ dstva / PGSIZE := by
          rw [MAXVA_eq, PGROUNDDOWN, Nat.mul_le_mul_right_iff (by decide)] at hge
          omega
        refine ⟨Keeps.refl C R s, ⟨m, h⟩, .inl (UMem.copyout_refused b bs fun pg hpg => ?_)⟩
        rw [view, pageView, if_pos hvU] at hpg
        cases hpg
      · refine wp_call (userPage_spec hC h htf dstva) fun q t ht => ?_
        rcases ht with ⟨hkeep, m', hu, hview, hq⟩
        rw [wp_ite]
        rcases hq with ⟨hq, hnone | hstarved⟩ | ⟨hq, hvU, hvalid, hpage, hseen⟩
        · -- there is no such page
          refine ⟨fun _ => ?_, fun hne => absurd hq hne⟩
          rw [wp_pure, hview]
          refine ⟨hkeep, ⟨m', hu⟩, .inl (UMem.copyout_refused b bs fun pg hpg => ?_)⟩
          rw [hnone] at hpg
          cases hpg
        · -- the page is still to come, and memory has run out
          refine ⟨fun _ => ?_, fun hne => absurd hq hne⟩
          rw [wp_pure, hview]
          exact ⟨hkeep, ⟨m', hu⟩, .inr ⟨0, Nat.succ_pos _, rfl, rfl, hstarved⟩⟩
        · refine ⟨fun h0 => absurd h0 hq, fun _ => ?_⟩
          refine wp_lookup hu.table.toReads (lt_of_not_ge hlt) (fun hz => ?_)
            fun a _ hentry => ?_
          · -- the page was just found, so its entry is there
            rw [PGROUNDDOWN, page_div] at hz
            rw [hz] at hvalid
            simp [has] at hvalid
          rw [PGROUNDDOWN, page_div] at hentry
          rw [wp_bind, wp_load, hentry]
          refine wp_if (fun hro => ?_) fun hrw => ?_
          · -- program text is not written
            rw [wp_pure, hview]
            refine ⟨hkeep, ⟨m', hu⟩, .inl (UMem.copyout_refused b bs fun pg hpg => ?_)⟩
            rw [hseen] at hpg
            cases hpg
            exact hro
          · -- the bytes on this page, then the rest
            have hw : has (m' (dstva / PGSIZE)) PTE_W = true := by simpa using hrw
            generalize hsrc : b :: bs = src at hlen ⊢
            have hpos : 0 < src.length := by rw [← hsrc]; exact Nat.succ_pos _
            have hpos' := chunk_pos dstva hpos
            have hle := chunk_le dstva src.length
            rw [wp_bind, putBytes, wp_modify]
            change wp E (copyout.loop L p p.pagetable fuel (u64 (PGROUNDDOWN dstva + PGSIZE))
              (src.drop (chunk dstva src.length))) _ (t.write q (setBytes (t.ram q)
                (dstva - PGROUNDDOWN dstva) (src.take (chunk dstva src.length))))
            rw [← hpage]
            rcases hu.write_page hC hvU hvalid (hview ▸ hseen) (setBytes (t.ram (PTE2PA (m' (dstva /
              PGSIZE)))) (dstva - PGROUNDDOWN dstva) (src.take (chunk dstva src.length)))
              with ⟨hu', hkeep', hview'⟩
            refine wp_mono (ih _ _ m' _ (by rw [length_drop]; omega) hu') fun r u hr => ?_
            rcases hr with ⟨hku, hmu, hr⟩
            refine ⟨(hkeep.trans hkeep').trans hku, hmu, ?_⟩
            rw [hview', hview, hpage, off_eq] at hr
            have hfits := chunk_fits dstva src.length
            have hnext : chunk dstva src.length < src.length → _ := next_chunk hvU
            generalize chunk dstva src.length = n at *
            have htake : (src.take n).length = n := length_take_of_le hle
            have hsplit (rest : List Byte) := UMem.copyout_page hseen hw (src.take n) rest
              (by rw [htake]; exact hfits)
            rw [htake] at hsplit
            rw [hw] at hr
            rcases hr with hr | ⟨k, hk, hcopied, hr, hstarved⟩
            · left
              rw [← take_append_drop n src, hsplit]
              by_cases hlt : n < src.length
              · rw [← hnext hlt]
                exact hr
              · rw [drop_eq_nil_of_le (le_of_not_gt hlt), UMem.copyout] at hr ⊢
                exact hr
            · right
              rw [length_drop] at hk
              rw [hnext (by omega)] at hcopied hstarved
              refine ⟨n + k, by omega, ?_, hr, ?_⟩
              · rw [take_add, hsplit]
                exact hcopied
              · rw [← Nat.add_assoc]
                exact hstarved

/-- `copyout` to the current process. -/
theorem copyout_spec (h : User L C R p m s) (dstva : Nat) (src : List Byte) :
    wp E (copyout L p p.pagetable dstva src) (fun _ t => Keeps C R s t ∧
      ∃ m', User L C R p m' t) s :=
  wp_mono (copyout_loop hC htf src.length dstva src m s le_rfl h)
    fun _ _ ht => ⟨ht.1, ht.2.1⟩

/-- The bytes that `copyin` reads are those the process sees, unless a page that is missing finds
no memory. -/
theorem copyin_loop :
    ∀ fuel srcva len dst m s, len ≤ fuel → User L C R p m s →
    wp E (copyin.loop L p p.pagetable fuel srcva len dst) (fun r t => Keeps C R s t ∧
      (∃ m', User L C R p m' t) ∧ view t p = view s p ∧
      (r = (((view s p).copyin srcva len).1, dst ++ ((view s p).copyin srcva len).2) ∨
        ∃ k < len, ((view s p).copyin srcva k).1 = 0 ∧
          r = (-1, dst ++ ((view s p).copyin srcva k).2) ∧ Starved t p (srcva + k))) s := by
  intro fuel
  induction fuel with
  | zero =>
    intro srcva len dst m s hlen h
    rw [Nat.le_zero.mp hlen, copyin.loop, wp_pure]
    exact ⟨Keeps.refl C R s, ⟨m, h⟩, rfl, .inl (by rw [UMem.copyin, append_nil])⟩
  | succ fuel ih =>
    intro srcva len dst m s hlen h
    cases len with
    | zero =>
      rw [copyin.loop, wp_pure]
      exact ⟨Keeps.refl C R s, ⟨m, h⟩, rfl, .inl (by rw [UMem.copyin, append_nil])⟩
    | succ k =>
      rw [copyin.loop]
      refine wp_call (userPage_spec hC h htf srcva) fun q t ht => ?_
      rcases ht with ⟨hkeep, m', hu, hview, hq⟩
      rw [wp_ite]
      rcases hq with ⟨hq, hnone | hstarved⟩ | ⟨hq, hvU, hvalid, hpage, hseen⟩
      · refine ⟨fun _ => ?_, fun hne => absurd hq hne⟩
        rw [wp_pure, UMem.copyin_none hnone, append_nil]
        exact ⟨hkeep, ⟨m', hu⟩, hview, .inl rfl⟩
      · refine ⟨fun _ => ?_, fun hne => absurd hq hne⟩
        rw [wp_pure]
        exact ⟨hkeep, ⟨m', hu⟩, hview, .inr ⟨0, Nat.succ_pos k, rfl, by
          rw [UMem.copyin, append_nil], hstarved⟩⟩
      refine ⟨fun h0 => absurd h0 hq, fun _ => ?_⟩
      rw [wp_bind, wp_get]
      have hpos : 0 < chunk srcva (k + 1) := chunk_pos srcva (Nat.succ_pos k)
      have hle := chunk_le srcva (k + 1)
      change wp E (copyin.loop L p p.pagetable fuel (u64 (PGROUNDDOWN srcva + PGSIZE))
        (k + 1 - chunk srcva (k + 1))
        (dst ++ getBytes (t.ram q) (srcva - PGROUNDDOWN srcva) (chunk srcva (k + 1)))) _ t
      refine wp_mono (ih _ _ _ m' t (by omega) hu) fun r u hu' => ?_
      rcases hu' with ⟨hku, hmu, hvu, hr⟩
      refine ⟨hkeep.trans hku, hmu, hvu.trans hview, ?_⟩
      rw [hview, off_eq] at hr
      generalize hn : chunk srcva (k + 1) = n at *
      have hsplit (j : Nat) := UMem.copyin_page (k := j) hseen (hn ▸ chunk_fits srcva (k + 1))
      have hnext : n < k + 1 → u64 (PGROUNDDOWN srcva + PGSIZE) = srcva + n := by
        intro hlt
        rw [← hn] at hlt ⊢
        exact next_chunk hvU hlt
      rcases hr with hr | ⟨j, hj, hzero, hr, hstarved⟩
      · left
        have hlen' : k + 1 = n + (k + 1 - n) := by omega
        rw [hr, hlen', hsplit, Nat.add_sub_cancel_left]
        by_cases hlt : n < k + 1
        · rw [hnext hlt, append_assoc]
        · rw [show k + 1 - n = 0 by omega, UMem.copyin, UMem.copyin, append_assoc]
      · right
        rw [hnext (by omega)] at hzero hr hstarved
        refine ⟨n + j, by omega, ?_, ?_, ?_⟩
        · rw [hsplit]
          exact hzero
        · rw [hsplit, hr, append_assoc]
        · rw [← Nat.add_assoc]
          exact hstarved

/-- `copyin` from the current process. -/
theorem copyin_spec (h : User L C R p m s) (srcva len : Nat) :
    wp E (copyin L p p.pagetable srcva len) (fun _ t => Keeps C R s t ∧
      ∃ m', User L C R p m' t) s :=
  wp_mono (copyin_loop hC htf len srcva len [] m s le_rfl h)
    fun _ _ ht => ⟨ht.1, ht.2.1⟩

end

/-- `walkaddr` finds the pages that are there. -/
theorem User.present_eq (h : User L C R p m s) (htf : p.trapframe < 2 ^ 44) (va : Nat) :
    present s p (va / PGSIZE) = none ∧ userAddr m (PGROUNDDOWN va) = 0 ∨
      va / PGSIZE < UVPN ∧ userAddr m (PGROUNDDOWN va) ≠ 0 ∧
        present s p (va / PGSIZE) =
          some ⟨has (m (va / PGSIZE)) PTE_W, s.ram (userAddr m (PGROUNDDOWN va))⟩ := by
  have hpage : PGROUNDDOWN va / PGSIZE = va / PGSIZE := page_div _
  unfold present
  by_cases hz : userAddr m (PGROUNDDOWN va) = 0
  · refine .inl ⟨?_, hz⟩
    by_cases hvU : va / PGSIZE < UVPN
    · have hva : PGROUNDDOWN va < MAXVA := page_lt_MAXVA (by omega)
      rcases hpage ▸ h.userAddr_zero hC hz hva with hnone | ⟨-, hmiss⟩
      · rw [hnone, ite_self]
      · rw [hmiss]
        rfl
    · rw [view, pageView, if_pos (le_of_not_gt hvU), ite_self]
  · rcases h.space.userAddr_ne htf hz with ⟨hvU, hvalid, huser, heq⟩
    rw [hpage] at hvU hvalid huser heq
    refine .inr ⟨hvU, hz, ?_⟩
    rw [h.mapped_eq hvU, hvalid, if_pos rfl, h.view_apply, pageView_valid hvU hvalid, if_pos huser,
      heq]

/-- `copyinstr` reads what is there, without faults. -/
theorem copyinstr_loop (h : User L C R p m s) (htf : p.trapframe < 2 ^ 44) :
    ∀ fuel srcva max dst, max ≤ fuel →
    wp E (copyinstr.loop p.pagetable fuel srcva max dst) (fun r t => t = s ∧
      r = (((present s p).copyinstr srcva max).1,
        dst ++ ((present s p).copyinstr srcva max).2)) s := by
  intro fuel
  induction fuel with
  | zero =>
    intro srcva max dst hmax
    rw [Nat.le_zero.mp hmax, copyinstr.loop, wp_pure]
    exact ⟨rfl, by rw [UMem.copyinstr, append_nil]⟩
  | succ fuel ih =>
    intro srcva max dst hmax
    cases max with
    | zero =>
      rw [copyinstr.loop, wp_pure]
      exact ⟨rfl, by rw [UMem.copyinstr, append_nil]⟩
    | succ k =>
      rw [copyinstr.loop, wp_bind]
      refine walkaddr_spec h.table.toReads _ ?_
      rw [wp_ite, wp_pure]
      rcases h.present_eq hC htf srcva with ⟨hnone, hz⟩ | ⟨hvU, hne, hseen⟩
      · refine ⟨fun _ => ⟨rfl, ?_⟩, fun hne => absurd hz hne⟩
        rw [UMem.copyinstr_none hnone, append_nil]
      refine ⟨fun hz => absurd hz hne, fun _ => ?_⟩
      rw [wp_bind, wp_get]
      have hpos : 0 < chunk srcva (k + 1) := chunk_pos srcva (Nat.succ_pos k)
      have hle := chunk_le srcva (k + 1)
      have hsplit := UMem.copyinstr_page (k := k + 1 - chunk srcva (k + 1)) hseen
        (chunk_fits srcva (k + 1))
      rw [Nat.add_sub_of_le hle] at hsplit
      have hnext : chunk srcva (k + 1) < k + 1 → _ := next_chunk hvU
      rw [hsplit, ← off_eq]
      have hchunk : min (PGSIZE - (srcva - PGROUNDDOWN srcva)) (k + 1) = chunk srcva (k + 1) := rfl
      dsimp only
      rw [hchunk]
      generalize chunk srcva (k + 1) = n at *
      rw [wp_ite, wp_pure]
      refine ⟨fun hnul => ⟨rfl, ?_⟩, fun hno => ?_⟩
      · rw [if_pos hnul, append_assoc]
      · rw [if_neg hno]
        refine wp_mono (ih _ _ _ (by omega)) fun r t ht => ⟨ht.1, ?_⟩
        rw [ht.2, append_assoc]
        by_cases hlt : n < k + 1
        · rw [hnext hlt]
        · rw [show k + 1 - n = 0 by omega, UMem.copyinstr, UMem.copyinstr]

theorem copyinstr_spec (h : User L C R p m s) (htf : p.trapframe < 2 ^ 44) (srcva max : Nat) :
    wp E (copyinstr p.pagetable srcva max) (fun r t => t = s ∧
      r = (present s p).copyinstr srcva max) s :=
  copyinstr_loop hC h htf max srcva max [] le_rfl

end

end Xv6.Vm
