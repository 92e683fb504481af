import Xv6.Vm.Exec

/-!
# Xv6.Vm.Image — what `kexec` and `sys_exec` do to memory

Until the commit the old address space is part of the `R` that is left alone, so a
failed `kexec` needs no more than that the new tables and pages are all freed again.
The argument is one `Image` invariant carried through the header loop, the stack and
the arguments.
-/

namespace Xv6.Vm

open Lib Function Multiset

section
variable {L : Layout} {C R : Multiset Nat} {s t : Mem} {E : Panic → Prop}
  {p : ProcMem} {root sz tf : Nat} {m m' : Nat → BitVec 64} {exe : Exe}

/-! ## Images being loaded -/

/-- An address space under construction: every page below `sz` is mapped for the user. -/
structure Image (L : Layout) (C R : Multiset Nat) (root sz tf : Nat) (m : Nat → BitVec 64)
    (s : Mem) : Prop where
  table : Table C (leaves m 0 UVPN + R) root m s
  space : Space L m sz tf
  full : ∀ v, v < pages sz → has (m v) PTE_V = true ∧ has (m v) PTE_U = true

/-- A mapped range is no longer than the pool. -/
theorem Table.range_le (hC : Pool L C) {a b : Nat} (h : Table C (leaves m a b + R) root m s)
    (hfull : ∀ v, a ≤ v → v < b → has (m v) PTE_V = true) : b - a ≤ RAMPAGES := by
  have hcard := card_le_card h.heap.own_le
  rw [card_add, card_add, card_leaves hfull] at hcard
  have hpool := hC.card_le
  omega

theorem Image.pages_le (hC : Pool L C) (h : Image L C R root sz tf m s) :
    pages sz ≤ RAMPAGES := by
  have htab := h.table
  rw [h.space.leaves_eq] at htab
  have hle := htab.range_le hC fun v _ hv => (h.full v hv).1
  omega

theorem has_of_flags {pte perm flag : BitVec 64} (h : PTE_FLAGS pte = perm)
    (hflag : PTE_FLAGS flag = flag) (hp : has perm flag = true) : has pte flag = true := by
  rw [has_eq_flags pte hflag, h]
  exact hp

/-- A size within twice the pool is far below the trapframe. -/
theorem pages_fit {n : Nat} (h : pages n ≤ 2 * RAMPAGES) : n ≤ TRAPFRAME := by
  rw [RAMPAGES_eq] at h
  have hT : TRAPFRAME = 274877898752 := rfl
  simp only [pages, PGSIZE_eq] at h
  omega

/-- Growing an image: more pages, or none. -/
theorem Image.uvmalloc (hC : Pool L C) (h : Image L C R root sz tf m s) {newsz : Nat}
    {xperm : BitVec 64} (hperm : (PTE_R ||| PTE_U ||| xperm).toNat < 2 ^ 10)
    (hV : has (PTE_R ||| PTE_U ||| xperm ||| PTE_V) PTE_U = true) :
    wp E (uvmalloc L root sz newsz xperm) (fun r t => Keeps C R s t ∧
      ((r = max sz newsz ∧ ∃ m', Image L C R root (max sz newsz) tf m' t ∧
          Grown m m' (pages sz) (pages (max sz newsz)) (PTE_R ||| PTE_U ||| xperm)) ∨
        (r = 0 ∧ Image L C R root sz tf m t))) s := by
  have hpl := h.pages_le hC
  refine wp_mono (uvmalloc_spec hC hperm h.space.size (fun x _ hx => ?_)
    (fun x hx hxU => h.space.zero x hxU (h.space.invalid hxU hx)) h.table) fun r t ht => ?_
  · rw [RAMPAGES_eq] at hpl hx
    rw [UVPN_eq]
    omega
  refine ⟨ht.1.mono (le_add_left _ _), ?_⟩
  rcases ht.2 with ⟨hr, m', hg, htab, -⟩ | ⟨hr, htab⟩
  · refine .inl ⟨hr, m', ?_, hg⟩
    have hrange := htab.range_le hC fun v hv hv' => (hg.mapped v hv hv').1
    have hfit : max sz newsz ≤ TRAPFRAME := pages_fit (by omega)
    rcases h.space.grown (Nat.le_max_left _ _) hfit hg with ⟨hspace, hleaves⟩
    rw [← add_assoc, hleaves] at htab
    refine ⟨htab, hspace, fun v hv => ?_⟩
    by_cases hold : v < pages sz
    · rw [hg.other v (.inl hold)]
      exact h.full v hold
    · rcases hg.mapped v (by omega) hv with ⟨hvalid, hflags⟩
      exact ⟨hvalid, has_of_flags hflags (by decide) hV⟩
  · exact .inr ⟨hr, htab, h.space, h.full⟩

variable {v : Nat}

/-- Writing to a user page of an image. -/
theorem Image.write (hC : Pool L C) (h : Image L C R root sz tf m s) (hv : v < pages sz)
    (page : Page) :
    Image L C R root sz tf m (s.write (PTE2PA (m v)) page) ∧
      Keeps C R s (s.write (PTE2PA (m v)) page) := by
  have hvU : v < UVPN := lt_of_lt_of_le hv (pages_le_UVPN h.space.size)
  rcases h.table.write_leaf hC (mem_leaves (Nat.zero_le v) hvU (h.full v hv).1) page
    with ⟨htab, hkeep⟩
  exact ⟨⟨htab, h.space, h.full⟩, hkeep⟩

/-! ## Loading -/

/-- Below the size of an image `walkaddr` finds the page. -/
theorem Image.userAddr_eq (hC : Pool L C) (h : Image L C R root sz tf m s) {va : Nat}
    (hva : va < sz) :
    userAddr m va = PTE2PA (m (va / PGSIZE)) ∧ PTE2PA (m (va / PGSIZE)) ≠ 0 ∧
      va / PGSIZE < pages sz := by
  have hlt : va / PGSIZE < pages sz := by
    rw [lt_pages_iff, PGSIZE_eq]
    omega
  have hvU : va / PGSIZE < UVPN := lt_of_lt_of_le hlt (pages_le_UVPN h.space.size)
  have hT : TRAPFRAME < MAXVA := by decide
  have hsz := h.space.size
  rcases h.full _ hlt with ⟨hvalid, huser⟩
  refine ⟨?_, ?_, hlt⟩
  · rw [userAddr, if_pos ⟨by omega, hvalid, huser⟩]
  · exact hC.pos (h.table.heap.mem
      (by simp [mem_leaves (Nat.zero_le _) hvU hvalid]))

theorem loadseg_loop (hC : Pool L C) {va offset n : Nat} (hn : va + n ≤ sz) (hn32 : n < 2 ^ 31) :
    ∀ fuel i s, i < n + PGSIZE → n + PGSIZE ≤ fuel * PGSIZE + i → Image L C R root sz tf m s →
    wp E (loadseg.loop exe root va offset n fuel i) (fun _ t => Keeps C R s t ∧
      Image L C R root sz tf m t) s := by
  intro fuel
  induction fuel with
  | zero =>
    intro i s hi hfuel
    omega
  | succ fuel ih =>
    intro i s hi hfuel h
    rw [loadseg.loop]
    refine wp_if (fun hlt => ?_) fun _ => ?_
    · have hva : va + i < sz := by omega
      have hwrap : u64 (va + i) = va + i := by
        have hsz := h.space.size
        have hT : TRAPFRAME = 274877898752 := rfl
        rw [u64]
        omega
      have hnext : u32 (i + PGSIZE) = i + PGSIZE := by
        rw [u32, PGSIZE_eq]
        omega
      rcases h.userAddr_eq hC hva with ⟨haddr, hne, hv⟩
      rw [hwrap, hnext, wp_bind]
      refine walkaddr_spec h.table.toReads _ ?_
      rw [haddr]
      refine wp_if (fun h0 => absurd h0 hne) fun _ => ?_
      rw [wp_bind, putBytes, wp_modify]
      rcases h.write hC hv (setBytes (s.ram (PTE2PA (m ((va + i) / PGSIZE)))) 0
        (readi exe (u32 (offset + i)) (if n - i < PGSIZE then n - i else PGSIZE)))
        with ⟨himg, hkeep⟩
      rw [wp_ite, wp_pure]
      refine ⟨fun _ => ⟨hkeep, himg⟩, fun _ => ?_⟩
      refine wp_mono (ih _ _ (by omega) ?_ himg) fun _ u hu => ⟨hkeep.trans hu.1, hu.2⟩
      rw [Nat.succ_mul] at hfuel
      omega
    · exact wp_ret ⟨Keeps.refl C R s, h⟩

theorem loadseg_spec (hC : Pool L C) {va offset n : Nat} (hn : va + n ≤ sz)
    (h : Image L C R root sz tf m s) :
    wp E (loadseg exe root va offset n) (fun _ t => Keeps C R s t ∧
      Image L C R root sz tf m t) s := by
  have hpl := h.pages_le hC
  rw [RAMPAGES_eq] at hpl
  simp only [pages, PGSIZE_eq] at hpl
  refine loadseg_loop hC hn (by omega) (n / PGSIZE + 2) 0 s ?_ ?_ h
  · rw [PGSIZE_eq]
    omega
  · rw [PGSIZE_eq]
    omega

theorem flags2perm_cases (flags : Nat) : flags2perm flags = 0 ∨ flags2perm flags = PTE_X ∨
    flags2perm flags = PTE_W ∨ flags2perm flags = PTE_X ||| PTE_W := by
  unfold flags2perm
  split <;> split <;> simp

/-- The permissions `kexec` asks for are flag bits, the user bit among them. -/
theorem flags2perm_ok (flags : Nat) :
    (PTE_R ||| PTE_U ||| flags2perm flags).toNat < 2 ^ 10 ∧
      has (PTE_R ||| PTE_U ||| flags2perm flags ||| PTE_V) PTE_U = true := by
  rcases flags2perm_cases flags with h | h | h | h <;> rw [h] <;> decide

theorem le_lt : ∀ bs : List Byte, le bs < 256 ^ bs.length
  | [] => by simp [le]
  | b :: bs => by
    have hb := b.isLt
    have hbs := le_lt bs
    rw [le, List.length_cons, Nat.pow_succ]
    omega

theorem field_lt (bs : List Byte) (off n : Nat) : field bs off n < 256 ^ n := by
  refine lt_of_lt_of_le (le_lt _) (Nat.pow_le_pow_right (by decide) ?_)
  rw [List.length_take]
  exact Nat.min_le_left _ _

/-- Whatever the program headers say, the loop ends in an image of the size it returns. -/
theorem loadSegs_spec (hC : Pool L C) : ∀ n off sz m s, Image L C R root sz tf m s →
    wp E (loadSegs L exe root n off sz) (fun r t => Keeps C R s t ∧
      ∃ m', Image L C R root r.2 tf m' t) s := by
  intro n
  induction n with
  | zero =>
    intro off sz m s h
    rw [loadSegs, wp_pure]
    exact ⟨Keeps.refl C R s, m, h⟩
  | succ n ih =>
    intro off sz m s h
    have hstop : Keeps C R s s ∧ ∃ m', Image L C R root sz tf m' s := ⟨Keeps.refl C R s, m, h⟩
    rw [loadSegs]
    have hvaddr : (Proghdr.ofBytes (readi exe off PROGHDR)).vaddr < 2 ^ 64 := field_lt _ 16 8
    have hmemsz : (Proghdr.ofBytes (readi exe off PROGHDR)).memsz < 2 ^ 64 := field_lt _ 40 8
    generalize Proghdr.ofBytes (readi exe off PROGHDR) = ph at hvaddr hmemsz
    refine wp_if (fun _ => wp_pure _ |>.mpr hstop) fun _ => ?_
    refine wp_if (fun _ => ih _ _ m s h) fun _ => ?_
    refine wp_if (fun _ => wp_pure _ |>.mpr hstop) fun hfile => ?_
    refine wp_if (fun _ => wp_pure _ |>.mpr hstop) fun hwrap => ?_
    refine wp_if (fun _ => wp_pure _ |>.mpr hstop) fun _ => ?_
    rw [wp_bind]
    rcases flags2perm_ok ph.flags with ⟨hperm, hU⟩
    refine wp_mono (h.uvmalloc hC hperm hU) fun r t ht => ?_
    rcases ht with ⟨hkeep, ⟨hr, m', himg, -⟩ | ⟨hr, himg⟩⟩
    · refine wp_if (fun h0 => ?_) fun _ => ?_
      · -- an empty first segment: nothing was mapped
        rw [wp_pure]
        have hzero : max sz (u64 (ph.vaddr + ph.memsz)) = sz := by omega
        rw [hzero] at himg
        exact ⟨hkeep, m', himg⟩
      · have hfit : ph.vaddr + u32 ph.filesz ≤ r := by
          have h32 : u32 ph.filesz ≤ ph.filesz := Nat.mod_le _ _
          have h64 : u64 (ph.vaddr + ph.memsz) = ph.vaddr + ph.memsz ∨
              u64 (ph.vaddr + ph.memsz) < ph.vaddr := by
            rw [u64]
            omega
          omega
        rw [← hr] at himg
        refine wp_call (loadseg_spec hC hfit himg) fun q u hu => ?_
        rw [wp_ite, wp_pure]
        refine ⟨fun _ => ⟨hkeep.trans hu.1, m', hu.2⟩, fun _ => ?_⟩
        refine wp_mono (ih _ _ m' u hu.2) fun _ w hw => ⟨?_, hw.2⟩
        exact (hkeep.trans hu.1).trans hw.1
    · rw [wp_ite, wp_pure]
      exact ⟨fun _ => ⟨hkeep, m, himg⟩, fun hne => absurd hr hne⟩

/-! ## The stack and the arguments -/

/-- A page that `copyout` can write to. -/
def Writable (m : Nat → BitVec 64) (v : Nat) : Prop :=
  v < UVPN ∧ has (m v) PTE_V = true ∧ has (m v) PTE_U = true ∧ has (m v) PTE_W = true

/-- Where all pages are writable, `copyout` succeeds and does not fault pages in. -/
theorem copyout_mapped_loop (hC : Pool L C) : ∀ fuel dstva src s, src.length ≤ fuel →
    (∀ v, dstva / PGSIZE ≤ v → v * PGSIZE < dstva + src.length → Writable m v) →
    Table C (leaves m 0 UVPN + R) root m s →
    wp E (copyout.loop L p root fuel dstva src) (fun r t => r = 0 ∧ Keeps C R s t ∧
      Table C (leaves m 0 UVPN + R) root m t) s := by
  intro fuel
  induction fuel with
  | zero =>
    intro dstva src s hlen _ h
    rw [List.eq_nil_of_length_eq_zero (Nat.le_zero.mp hlen), copyout.loop, wp_pure]
    exact ⟨rfl, Keeps.refl C R s, h⟩
  | succ fuel ih =>
    intro dstva src s hlen hw h
    cases src with
    | nil =>
      rw [copyout.loop, wp_pure]
      exact ⟨rfl, Keeps.refl C R s, h⟩
    | cons b bs =>
      have hrange : dstva / PGSIZE * PGSIZE < dstva + (b :: bs).length := by
        rw [PGSIZE_eq, List.length_cons]
        omega
      rcases hw _ le_rfl hrange with ⟨hvU, hvalid, huser, hwrite⟩
      have hva : PGROUNDDOWN dstva < MAXVA := page_lt_MAXVA (by omega)
      have hpage : PGROUNDDOWN dstva / PGSIZE = dstva / PGSIZE := page_div _
      have hmem := mem_leaves (Nat.zero_le _) hvU hvalid
      have hne : PTE2PA (m (dstva / PGSIZE)) ≠ 0 := hC.pos (h.heap.mem (by simp [hmem]))
      have haddr : userAddr m (PGROUNDDOWN dstva) = PTE2PA (m (dstva / PGSIZE)) := by
        rw [userAddr, hpage, if_pos ⟨hva, hvalid, huser⟩]
      rw [copyout.loop, if_neg (Nat.not_le.mpr hva), wp_bind, userPage, wp_bind]
      refine walkaddr_spec h.toReads _ ?_
      rw [haddr, if_neg hne, wp_pure, if_neg hne]
      refine wp_lookup h.toReads hva (fun hz => ?_) fun a _ hentry => ?_
      · rw [hpage] at hz
        rw [hz] at hvalid
        simp [has] at hvalid
      rw [hpage] at hentry
      rw [wp_bind, wp_load, hentry, hwrite, if_neg (by decide), wp_bind, putBytes, wp_modify]
      rcases h.write_leaf hC hmem (setBytes (s.ram (PTE2PA (m (dstva / PGSIZE))))
        (dstva - PGROUNDDOWN dstva) ((b :: bs).take
          (min (PGSIZE - (dstva - PGROUNDDOWN dstva)) (b :: bs).length))) with ⟨htab, hkeep⟩
      refine wp_mono (ih _ _ _ (drop_shorter (chunk_pos dstva (by simp)) hlen)
        (fun v hv hlt => ?_) htab) fun r u hu => ⟨hu.1, hkeep.trans hu.2.1, hu.2.2⟩
      -- the next chunk starts at the next page, and ends where this one would have
      have hstep : u64 (PGROUNDDOWN dstva + PGSIZE) = (dstva / PGSIZE + 1) * PGSIZE := by
        rw [UVPN_eq] at hvU
        simp only [u64, PGROUNDDOWN, PGSIZE_eq] at hvU ⊢
        omega
      rw [hstep, page_div] at hv
      rw [hstep, List.length_drop] at hlt
      refine hw v (by omega) ?_
      simp only [PGROUNDDOWN, PGSIZE_eq] at hlt hv ⊢
      omega

theorem copyout_mapped (hC : Pool L C) {dstva : Nat} {src : List Byte}
    (hw : ∀ v, dstva / PGSIZE ≤ v → v * PGSIZE < dstva + src.length → Writable m v)
    (h : Table C (leaves m 0 UVPN + R) root m s) :
    wp E (copyout L p root dstva src) (fun r t => r = 0 ∧ Keeps C R s t ∧
      Table C (leaves m 0 UVPN + R) root m t) s :=
  copyout_mapped_loop hC src.length dstva src s le_rfl hw h

theorem scan_length_le (page : Page) : ∀ n off, (scan page n off).1.length ≤ n
  | 0, _ => Nat.le_refl 0
  | n + 1, off => by
    have ih := scan_length_le page n (off + 1)
    unfold scan
    split
    · exact Nat.zero_le _
    · rw [List.length_cons]
      omega

/-- The string in a page is shorter than the page. -/
theorem cstr_spec {page : Nat} {Q : List Byte → Mem → Prop}
    (hQ : ∀ str : List Byte, str.length + 1 ≤ PGSIZE → Q str s) : wp E (cstr page) Q s := by
  rw [cstr, wp_bind, wp_get, wp_pure]
  have hlen := scan_length_le (s.ram page) (PGSIZE - 1) 0
  have hpos : 0 < PGSIZE := by decide
  exact hQ _ (by omega)

/-- Everything between the bottom and the top of the stack page can be written. -/
theorem stack_writable {sp len : Nat} (hv : Writable m v) (hlo : v * PGSIZE ≤ sp)
    (hhi : sp + len ≤ (v + 1) * PGSIZE) :
    ∀ x, sp / PGSIZE ≤ x → x * PGSIZE < sp + len → Writable m x := by
  intro x hx hlt
  have he : x = v := by
    simp only [PGSIZE_eq] at hlo hhi hx hlt
    omega
  rw [he]
  exact hv

/-- The stack pointer after pushing `len` bytes and aligning. -/
theorem push_bounds {sp len : Nat} (hv : 0 < v) (hlen : len ≤ PGSIZE) (hhi : sp ≤ (v + 1) * PGSIZE)
    (hlo : v * PGSIZE ≤ sp) (hbig : v < UVPN) :
    sub64 sp len - sub64 sp len % 16 + len ≤ (v + 1) * PGSIZE := by
  rw [UVPN_eq] at hbig
  simp only [sub64, u64, PGSIZE_eq] at hlen hhi hlo ⊢
  omega

theorem pushArgs_spec (hC : Pool L C) (hv : Writable m v) (hpos : 0 < v) :
    ∀ argv sp ustack s, v * PGSIZE ≤ sp → sp ≤ (v + 1) * PGSIZE → ustack.length ≤ MAXARG →
    Table C (leaves m 0 UVPN + R) root m s →
    wp E (pushArgs L p root (v * PGSIZE) argv sp ustack) (fun r t => Keeps C R s t ∧
      Table C (leaves m 0 UVPN + R) root m t ∧
      ∀ sp' us, r = some (sp', us) →
        v * PGSIZE ≤ sp' ∧ sp' ≤ (v + 1) * PGSIZE ∧ us.length ≤ MAXARG) s := by
  intro argv
  induction argv with
  | nil =>
    intro sp ustack s hlo hhi hlen h
    rw [pushArgs, wp_pure]
    refine ⟨Keeps.refl C R s, h, fun sp' us he => ?_⟩
    cases he
    exact ⟨hlo, hhi, hlen⟩
  | cons arg argv ih =>
    intro sp ustack s hlo hhi hlen h
    rw [pushArgs]
    refine wp_if (fun _ => wp_ret ⟨Keeps.refl C R s, h, nofun⟩) fun hroom => ?_
    rw [wp_bind]
    refine cstr_spec fun str hlen' => ?_
    refine wp_if (fun _ => wp_ret ⟨Keeps.refl C R s, h, nofun⟩) fun hsp => ?_
    have hlo' := le_of_not_gt hsp
    have hhi' := push_bounds hpos hlen' hhi hlo hv.1
    refine wp_call (copyout_mapped hC (stack_writable hv hlo' ?_) h) fun r t ht => ?_
    · rw [List.length_append, List.length_singleton]
      exact hhi'
    · rcases ht with ⟨rfl, hkeep, htab⟩
      rw [if_neg (by decide)]
      refine wp_mono (ih _ _ t hlo' (by omega) ?_ htab) fun _ u hu =>
        ⟨hkeep.trans hu.1, hu.2⟩
      rw [List.length_append, List.length_singleton]
      omega

theorem has_clear (pte : BitVec 64) {flag : BitVec 64} (h : ~~~ PTE_U &&& flag = flag) :
    has (pte &&& ~~~ PTE_U) flag = has pte flag := by
  unfold has
  rw [BitVec.and_assoc, h]

theorem PTE2PA_clear (pte : BitVec 64) : PTE2PA (pte &&& ~~~ PTE_U) = PTE2PA pte := by
  have hmask : (~~~ PTE_U) >>> 10 = BitVec.allOnes 64 >>> 10 := by decide
  have hshift : (pte &&& ~~~ PTE_U) >>> 10 = pte >>> 10 := by
    rw [BitVec.ushiftRight_and_distrib, hmask, ← BitVec.ushiftRight_and_distrib,
      BitVec.and_allOnes]
  rw [PTE2PA, PTE2PA, hshift]

/-- `uvmclear` takes the user bit off one page; the page stays where it is. -/
theorem uvmclear_spec (hC : Pool L C) (hv : v < UVPN) (hvalid : has (m v) PTE_V = true)
    (h : Table C (leaves m 0 UVPN + R) root m s) :
    wp E (uvmclear root (v * PGSIZE)) (fun _ t => Keeps C R s t ∧
      Table C (leaves (update m v (m v &&& ~~~ PTE_U)) 0 UVPN + R) root
        (update m v (m v &&& ~~~ PTE_U)) t) s := by
  have hva : v * PGSIZE < MAXVA := page_lt_MAXVA (by omega)
  rw [uvmclear]
  refine wp_lookup h.toReads hva (fun hz => ?_) fun a ha hentry => ?_
  · rw [page_div] at hz
    rw [hz] at hvalid
    simp [has] at hvalid
  rw [page_div] at ha hentry
  rw [wp_bind, wp_load, hentry, wp_store]
  have hvV : v < VPNS := by
    rw [UVPN_eq] at hv
    rw [VPNS_eq]
    omega
  rcases h.store hC hvV ha (m v &&& ~~~ PTE_U) with ⟨htab, hkeep⟩
  refine ⟨hkeep.mono (le_add_left _ _), ?_⟩
  have hsame : leaves (update m v (m v &&& ~~~ PTE_U)) 0 UVPN = leaves m 0 UVPN := by
    refine leaves_congr_page fun x _ _ => ?_
    by_cases he : x = v
    · rw [he, update_self, leafPage, leafPage, has_clear _ (by decide), PTE2PA_clear]
    · rw [update_of_ne he]
  rw [hsame]
  exact htab

/-! ## `kexec` -/

/-- What `kexec` may do from `s`: give the process a new address space, or leave it alone. -/
def Execed (L : Layout) (C R : Multiset Nat) (p : ProcMem) (m : Nat → BitVec 64) (s : Mem)
    (r : Option (ProcMem × Nat)) (t : Mem) : Prop :=
  Keeps C R s t ∧
    ((r = none ∧ User L C ({p.trapframe} + R) p m t) ∨
      ∃ q argc m', r = some (q, argc) ∧ q.trapframe = p.trapframe ∧
        User L C ({p.trapframe} + R) q m' t)

/-- The pages of the old address space, its trapframe, and everybody else's. -/
def oldPages (p : ProcMem) (m : Nat → BitVec 64) (R : Multiset Nat) (s : Mem) : Multiset Nat :=
  tables s.ram 2 p.pagetable + (leaves m 0 UVPN + ({p.trapframe} + R))

theorem le_oldPages : R ≤ oldPages p m R s := by
  unfold oldPages
  exact ((le_add_left R _).trans (le_add_left _ _)).trans
    (le_add_left _ _)

/-- With the old pages kept and nothing else in use, the old address space is back. -/
theorem User.restore (h : User L C ({p.trapframe} + R) p m s)
    (hheap : Heap C (oldPages p m R s) t) (hkeep : Keeps C (oldPages p m R s) s t) :
    Execed L C R p m s none t := by
  rcases h.table.toReads.keeps hkeep (le_add_right _ _) with ⟨hreads, htab⟩
  refine ⟨hkeep.mono le_oldPages, .inl ⟨rfl, ⟨hreads, ?_⟩, h.space⟩⟩
  rw [htab]
  exact hheap

section
variable (hC : Pool L C) (hold : User L C ({p.trapframe} + R) p m s)
  (hkeep : Keeps C (oldPages p m R s) s t)
  (htab : Table C (leaves m' 0 UVPN + oldPages p m R s) root m' t)
include hC hold hkeep htab

theorem kexec_bad (hspace : Space L m' sz tf) :
    wp E (kexec.bad L root sz) (Execed L C R p m s) t := by
  rw [kexec.bad]
  refine wp_call (procFreepagetable_spec hC htab hspace) fun _ u hu => ?_
  exact wp_ret (hold.restore hu.1 (hkeep.trans hu.2))

/-- The commit: the new address space replaces the old one, whose pages are freed. -/
theorem kexec_commit {u : Mem} {argc : Nat} (hspace : Space L m' sz p.trapframe)
    (hram : ∀ q ≠ p.trapframe, u.ram q = t.ram q) (hfree : u.freelist = t.freelist)
    (hdouble : u.double = t.double) :
    wp E (do procFreepagetable L p.pagetable p.sz
             return some ({ p with pagetable := root, sz := sz }, argc))
      (Execed L C R p m s) u := by
  -- the trapframe is neither a table nor a user page, old or new
  have htf : p.trapframe ∈ leaves m' 0 UVPN + oldPages p m R s := by
    simp [oldPages]
  have htabu : Table C (leaves m' 0 UVPN + oldPages p m R s) root m' u := by
    refine htab.keep hC (fun q hq => hram q ?_) hfree hdouble
    rintro rfl
    exact hq htf
  have hnd := nodup_of_le hold.table.heap.own_le hC.nodup
  have hne : ∀ q ∈ tables s.ram 2 p.pagetable, q ≠ p.trapframe := by
    intro q hq
    rintro rfl
    exact disjoint_left.mp (nodup_add.mp hnd).2.2 hq (by simp)
  have holdu : ∀ q ∈ tables s.ram 2 p.pagetable, u.ram q = s.ram q := by
    intro q hq
    rw [hram q (hne q hq)]
    exact hkeep q (.inl (mem_of_le (le_add_right _ _) hq))
  rcases hold.table.toReads.congr holdu with ⟨hreads, htabs⟩
  have holdtab : Table C (leaves m 0 UVPN + (tables u.ram 2 root +
      (leaves m' 0 UVPN + ({p.trapframe} + R)))) p.pagetable m u := by
    refine ⟨hreads, ?_⟩
    convert htabu.heap using 1
    rw [oldPages, htabs]
    abel
  refine wp_call (procFreepagetable_spec hC holdtab hold.space) fun _ w hw => ?_
  rw [wp_pure]
  rcases htabu.toReads.keeps hw.2 (le_add_right _ _) with ⟨hreads', htabs'⟩
  have hR : R ≤ tables u.ram 2 root + (leaves m' 0 UVPN + ({p.trapframe} + R)) :=
    ((le_add_left R _).trans (le_add_left _ _)).trans (le_add_left _ _)
  have hRtf : p.trapframe ∉ R := by
    intro hm
    have := (nodup_add.mp (nodup_add.mp hnd).2.1).2.1
    rw [singleton_add] at this
    exact (nodup_cons.mp this).1 hm
  refine ⟨((hkeep.mono le_oldPages).trans ?_).trans (hw.2.mono hR),
    .inr ⟨_, argc, m', rfl, rfl, ⟨hreads', htabs' ▸ hw.1⟩, hspace⟩⟩
  exact Keeps.of_ne hram (htab.heap.mem (mem_add.mpr (.inr htf))) hRtf

end

/-- Rounding the size of an image up to a page changes nothing. -/
theorem Image.round (h : Image L C R root sz tf m s) :
    Image L C R root (pages sz * PGSIZE) tf m s := by
  refine ⟨h.table, h.space.change ?_ (fun _ _ => rfl) (fun v hv hvalid => ?_) h.space.zero,
    fun v hv => ?_⟩
  · rw [TRAPFRAME_eq]
    exact Nat.mul_le_mul_right _ (pages_le_UVPN h.space.size)
  · rw [pages_mul]
    exact h.space.user v hv hvalid
  · rw [pages_mul] at hv
    exact h.full v hv

/-- The user bit off one user page leaves an address space of the same size. -/
theorem Space.clear (h : Space L m sz tf) (hv : v < UVPN) (hvalid : has (m v) PTE_V = true) :
    Space L (update m v (m v &&& ~~~ PTE_U)) sz tf := by
  have hclear : has (m v &&& ~~~ PTE_U) PTE_V = true := by
    rw [has_clear _ (by decide)]
    exact hvalid
  refine h.change h.size (fun x hx => update_of_ne (by omega) _ _)
    (fun x hx hxv => ?_) fun x hx hxi => ?_
  · by_cases he : x = v
    · exact he ▸ h.user v hv hvalid
    · rw [update_of_ne he] at hxv
      exact h.user x hx hxv
  · by_cases he : x = v
    · rw [he, update_self, hclear] at hxi
      cases hxi
    · rw [update_of_ne he] at hxi ⊢
      exact h.zero x hx hxi

theorem kexec_finish (hC : Pool L C) (hold : User L C ({p.trapframe} + R) p m s)
    (hkeep : Keeps C (oldPages p m R s) s t) (argv : List Nat) (entry : Nat)
    (himg : Image L C (oldPages p m R s) root sz p.trapframe m' t) :
    wp E (kexec.finish L p argv entry root sz) (Execed L C R p m s) t := by
  have hpl := himg.pages_le hC
  have hround : PGROUNDUP sz = pages sz * PGSIZE := by
    have hT : TRAPFRAME ≤ MAXVA := by decide
    have hsz := himg.space.size
    exact PGROUNDUP_eq (by omega)
  generalize hn : pages sz = n at *
  have hsmall : n + 2 < UVPN := by
    rw [RAMPAGES_eq] at hpl
    rw [UVPN_eq]
    omega
  have hstack : u64 (n * PGSIZE + (USERSTACK + 1) * PGSIZE) = (n + 2) * PGSIZE := by
    rw [UVPN_eq] at hsmall
    simp only [u64, USERSTACK, PGSIZE_eq]
    omega
  have hmax : max (n * PGSIZE) ((n + 2) * PGSIZE) = (n + 2) * PGSIZE := by
    rw [PGSIZE_eq]
    omega
  have himg' := himg.round
  rw [hn] at himg'
  rw [kexec.finish, hround, hstack]
  refine wp_call (himg'.uvmalloc hC (by decide) (by decide))
    fun r u hu => ?_
  rw [hmax, pages_mul, pages_mul] at hu
  rcases hu with ⟨hku, ⟨hr, m₁, himg₁, hg⟩ | ⟨hr, himg₁⟩⟩
  swap
  · refine wp_if (fun _ => ?_) fun hne => absurd hr hne
    exact kexec_bad hC hold (hkeep.trans hku) himg₁.table himg₁.space
  have hguard : sub64 ((n + 2) * PGSIZE) ((USERSTACK + 1) * PGSIZE) = n * PGSIZE := by
    rw [UVPN_eq] at hsmall
    simp only [sub64, u64, USERSTACK, PGSIZE_eq]
    omega
  have hbase : sub64 ((n + 2) * PGSIZE) (USERSTACK * PGSIZE) = (n + 1) * PGSIZE := by
    rw [UVPN_eq] at hsmall
    simp only [sub64, u64, USERSTACK, PGSIZE_eq]
    omega
  rw [hr, if_neg (by rw [PGSIZE_eq]; omega), hguard, hbase, wp_bind]
  -- the guard page loses its user bit, the stack page above it is writable
  have hvalid : has (m₁ n) PTE_V = true := (hg.mapped n (Nat.le_refl n) (by omega)).1
  have hspace := himg₁.space.clear (by omega : n < UVPN) hvalid
  refine wp_mono (uvmclear_spec hC (by omega) hvalid himg₁.table) fun _ w hw => ?_
  generalize hm₂ : update m₁ n (m₁ n &&& ~~~ PTE_U) = m₂ at *
  have hwr : Writable m₂ (n + 1) := by
    have hne : m₂ (n + 1) = m₁ (n + 1) := by
      rw [← hm₂, update_of_ne (by omega)]
    rcases hg.mapped (n + 1) (by omega) (by omega) with ⟨hv, hflags⟩
    rw [Writable, hne]
    exact ⟨by omega, hv, has_of_flags hflags (by decide) (by decide),
      has_of_flags hflags (by decide) (by decide)⟩
  have hkw : Keeps C (oldPages p m R s) s w := (hkeep.trans hku).trans hw.1
  have htop : (n + 1) * PGSIZE ≤ (n + 2) * PGSIZE ∧ (n + 2) * PGSIZE ≤ (n + 1 + 1) * PGSIZE := by
    rw [PGSIZE_eq]
    omega
  refine wp_call (pushArgs_spec hC hwr (by omega) argv _ [] w htop.1 htop.2 (Nat.zero_le _) hw.2)
    fun r x hx => ?_
  rcases hx with ⟨hkx, htabx, hsp⟩
  have hbad : wp E (kexec.bad L root ((n + 2) * PGSIZE)) (Execed L C R p m s) x :=
    kexec_bad hC hold (hkw.trans hkx) htabx hspace
  cases r with
  | none => exact hbad
  | some res =>
    rcases res with ⟨sp, ustack⟩
    rcases hsp sp ustack rfl with ⟨hlo, hhi, hlen⟩
    have hlen' : (ustack.length + 1) * 8 ≤ PGSIZE := by
      rw [show MAXARG = 32 from rfl] at hlen
      rw [PGSIZE_eq]
      omega
    show wp E (if _ then _ else _) _ x
    refine wp_if (fun _ => hbad) fun hge => ?_
    have hlo' := le_of_not_gt hge
    have hhi' := push_bounds (by omega) hlen' hhi hlo (by omega : n + 1 < UVPN)
    have hbytes : ((ustack ++ [0]).flatMap wordBytes).length = (ustack.length + 1) * 8 := by
      simp only [List.length_flatMap, wordBytes, List.length_map, List.length_range,
        List.map_const', List.sum_replicate_nat, List.length_append, List.length_singleton]
    refine wp_call (copyout_mapped hC (stack_writable hwr hlo' (by rw [hbytes]; exact hhi'))
      htabx) fun r y hy => ?_
    rcases hy with ⟨rfl, hky, htaby⟩
    rw [if_neg (by decide), wp_bind, wp_store, wp_bind, wp_store, wp_bind, wp_store]
    refine kexec_commit hC hold ((hkw.trans hkx).trans hky) htaby hspace (fun q hq => ?_) rfl rfl
    rw [Mem.write_of_ne _ _ hq, Mem.write_of_ne _ _ hq, Mem.write_of_ne _ _ hq]

/-- `kexec` replaces the address space of the process, or leaves everything as it was. -/
theorem kexec_spec (hC : Pool L C) (hold : User L C ({p.trapframe} + R) p m s)
    (file : Option Exe) (argv : List Nat) :
    wp E (kexec L p file argv) (Execed L C R p m s) s := by
  have hnone : Execed L C R p m s none s :=
    ⟨Keeps.refl C R s, .inl ⟨rfl, hold⟩⟩
  unfold kexec
  cases file with
  | none => exact wp_ret hnone
  | some exe =>
    show wp E (if _ then _ else _) _ s
    refine wp_if (fun _ => wp_ret hnone) fun _ => ?_
    refine wp_if (fun _ => wp_ret hnone) fun _ => ?_
    refine wp_call (procPagetable_spec hC hold.table.heap p.trapframe) fun root t ht => ?_
    rcases ht with ⟨hkeep, ⟨h0, hheap⟩ | ⟨h0, htab⟩⟩
    · rw [if_pos h0]
      exact wp_ret (hold.restore hheap hkeep)
    rw [if_neg h0, wp_bind]
    have himg : Image L C (oldPages p m R s) root 0 p.trapframe (bare L p.trapframe) t := by
      refine ⟨?_, Space.bare L p.trapframe, fun v hv => absurd hv (by rw [pages_zero]; omega)⟩
      rw [leaves_zero fun v _ hv => by rw [bare_user hv]; exact has_zero PTE_V, zero_add]
      exact htab
    refine wp_mono (loadSegs_spec hC _ _ 0 _ t himg) fun r u hu => ?_
    rcases hu with ⟨hku, m', himg'⟩
    rw [wp_ite]
    exact ⟨fun _ => kexec_bad hC hold (hkeep.trans hku) himg'.table himg'.space,
      fun _ => kexec_finish hC hold (hkeep.trans hku) argv _ himg'⟩

/-! ## `sys_exec` -/

theorem User.mem_tf (h : User L C ({p.trapframe} + R) p m s) : p.trapframe ∈ C :=
  h.table.heap.mem (by simp)

variable (hC : Pool L C)
include hC

theorem fetchaddr_spec (htf : p.trapframe < 2 ^ 44) (h : User L C R p m s) (addr : Nat) :
    wp E (fetchaddr L p addr) (fun _ t => Keeps C R s t ∧ ∃ m', User L C R p m' t) s := by
  rw [fetchaddr]
  refine wp_if (fun _ => wp_ret ⟨Keeps.refl C R s, m, h⟩) fun _ => ?_
  refine wp_call (copyin_spec hC htf h addr 8) fun r t ht => ?_
  rw [wp_ite, wp_pure, wp_pure]
  exact ⟨fun _ => ht, fun _ => ht⟩

/-- Taking a page in hand next to an address space. -/
theorem User.kalloc (h : User L C R p m s) :
    wp E kalloc (fun r t => (r = 0 ∧ t = s) ∨
      (r ≠ 0 ∧ User L C ({r} + R) p m t ∧ Keeps C (leaves m 0 UVPN + R) s t)) s := by
  refine wp_mono (h.table.kalloc hC) fun r t ht => ?_
  rcases ht with hnone | ⟨h0, htab, hkeep⟩
  · exact .inl ⟨hnone.1, hnone.2.1⟩
  · refine .inr ⟨h0, ⟨?_, h.space⟩, hkeep⟩
    convert htab using 1
    abel

/-- Giving a page in hand back. -/
theorem User.kfree {q : Nat} (h : User L C ({q} + R) p m s) :
    wp E (kfree L q) (fun _ t => User L C R p m t ∧ Keeps C R s t) s := by
  have htab : Table C ({q} + (leaves m 0 UVPN + R)) p.pagetable m s := by
    convert h.table using 1
    abel
  refine wp_mono (htab.kfree hC) fun _ t ht => ?_
  exact ⟨⟨ht.1, h.space⟩, ht.2.1.mono (le_add_left _ _)⟩

/-- The pages of the arguments fetched so far are in hand. -/
theorem fetchArgs_spec (htf : p.trapframe < 2 ^ 44) :
    ∀ n addr (argv : List Nat) m s, User L C ((argv : Multiset Nat) + R) p m s →
    wp E (fetchArgs L p n addr argv) (fun r t => Keeps C R s t ∧
      ∃ m', User L C ((r.2 : Multiset Nat) + R) p m' t) s := by
  intro n
  induction n with
  | zero =>
    intro addr argv m s h
    rw [fetchArgs, wp_pure]
    exact ⟨Keeps.refl C R s, m, h⟩
  | succ n ih =>
    intro addr argv m s h
    rw [fetchArgs]
    refine wp_call (fetchaddr_spec hC htf h addr) fun r t ht => ?_
    rcases ht with ⟨hkt, m₁, hu⟩
    have hk : Keeps C R s t := hkt.mono (le_add_left _ _)
    cases r with
    | none => exact wp_ret ⟨hk, m₁, hu⟩
    | some uarg =>
      show wp E (if _ then _ else _) _ t
      refine wp_if (fun _ => wp_ret ⟨hk, m₁, hu⟩) fun _ => ?_
      refine wp_call (hu.kalloc hC) fun page u hpage => ?_
      rw [wp_ite]
      rcases hpage with ⟨h0, rfl⟩ | ⟨h0, hu', hku⟩
      · exact ⟨fun _ => wp_ret ⟨hk, m₁, hu⟩, fun hne => absurd h0 hne⟩
      refine ⟨fun he => absurd he h0, fun _ => ?_⟩
      refine wp_call (copyinstr_spec hC hu' htf uarg PGSIZE) fun str w hw => ?_
      rcases hw with ⟨rfl, -⟩
      rw [wp_bind, putBytes, wp_modify]
      -- the string goes into the page in hand
      have hhand : Table C ({page} + (leaves m₁ 0 UVPN + ((argv : Multiset Nat) + R)))
          p.pagetable m₁ w := by
        convert hu'.table using 1
        abel
      rcases hhand.write_hand hC (setBytes (w.ram page) 0 str.2) with ⟨htab, hkw⟩
      have hR : R ≤ leaves m₁ 0 UVPN + ((argv : Multiset Nat) + R) :=
        (le_add_left R _).trans (le_add_left _ _)
      have hkeep : Keeps C R s _ := (hk.trans (hku.mono hR)).trans (hkw.mono hR)
      have hnew : User L C (((argv ++ [page] : List Nat) : Multiset Nat) + R) p m₁
          (w.write page (setBytes (w.ram page) 0 str.2)) := by
        refine ⟨?_, hu'.space⟩
        convert htab using 1
        rw [← coe_add, coe_singleton]
        abel
      refine wp_if (fun _ => wp_ret ⟨hkeep, m₁, hnew⟩) fun _ => ?_
      refine wp_mono (ih _ _ m₁ _ hnew) fun _ x hx => ⟨hkeep.trans hx.1, hx.2⟩

/-- Freeing the argument pages. -/
theorem freeArgs_spec (argv : List Nat) (h : User L C ((argv : Multiset Nat) + R) p m s) :
    wp E (forM argv fun page => kfree L page) (fun _ t => User L C R p m t ∧ Keeps C R s t) s := by
  have hloop := wp_forM (E := E) (f := fun page => kfree L page)
    (fun l t => User L C ((l : Multiset Nat) + R) p m t ∧ Keeps C R s t)
    (fun q l t ht => by
      rcases ht with ⟨hu, hkeep⟩
      have hq : User L C ({q} + ((l : Multiset Nat) + R)) p m t := by
        rwa [← cons_coe, ← singleton_add, add_assoc] at hu
      refine wp_mono (hq.kfree hC) fun _ u hu' => ?_
      exact ⟨hu'.1, hkeep.trans (hu'.2.mono (le_add_left _ _))⟩)
    argv s ⟨h, Keeps.refl C R s⟩
  refine wp_mono hloop fun _ t ht => ?_
  rw [coe_nil, zero_add] at ht
  exact ht

/-- `sys_exec`: the process goes on with a new address space or with its old one, perhaps with
pages faulted in while the arguments were read. -/
theorem sysExec_spec (h : User L C ({p.trapframe} + R) p m s) (file : Option Exe) (uargv : Nat) :
    wp E (sysExec L p file uargv) (fun r t => Keeps C R s t ∧
      ((r = none ∧ ∃ m', User L C ({p.trapframe} + R) p m' t) ∨
        ∃ q argc m', r = some (q, argc) ∧ q.trapframe = p.trapframe ∧
          User L C ({p.trapframe} + R) q m' t)) s := by
  have htf := hC.lt h.mem_tf
  rw [sysExec]
  refine wp_call (fetchArgs_spec (R := {p.trapframe} + R) hC htf MAXARG uargv [] m s
    (by rw [coe_nil, zero_add]; exact h)) fun args t ht => ?_
  rcases ht with ⟨hkt, m₁, hu⟩
  have hk : Keeps C R s t := hkt.mono (le_add_left _ _)
  refine wp_if (fun _ => ?_) fun _ => ?_
  · have hu' : User L C ({p.trapframe} + ((args.2 : Multiset Nat) + R)) p m₁ t := by
      rwa [add_left_comm] at hu
    refine wp_call (kexec_spec hC hu' file args.2) fun r u hexec => ?_
    rcases hexec with ⟨hku, hcase⟩
    have hk' : Keeps C R s u := hk.trans (hku.mono (le_add_left _ _))
    have hR : R ≤ {p.trapframe} + R := le_add_left _ _
    rcases hcase with ⟨rfl, hold⟩ | ⟨q, argc, m₂, rfl, hqtf, hnew⟩
    · rw [add_left_comm] at hold
      refine wp_call (freeArgs_spec hC args.2 hold) fun _ w hw => wp_ret ?_
      exact ⟨hk'.trans (hw.2.mono hR), .inl ⟨rfl, m₁, hw.1⟩⟩
    · rw [add_left_comm] at hnew
      refine wp_call (freeArgs_spec hC args.2 hnew) fun _ w hw => wp_ret ?_
      exact ⟨hk'.trans (hw.2.mono hR), .inr ⟨q, argc, m₂, rfl, hqtf, hw.1⟩⟩
  · refine wp_call (freeArgs_spec hC args.2 hu) fun _ w hw => wp_ret ?_
    exact ⟨hk.trans (hw.2.mono (le_add_left _ _)), .inl ⟨rfl, m₁, hw.1⟩⟩

end

end Xv6.Vm
