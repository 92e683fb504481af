import Xv6.Virtio.Flow

/-!
# Xv6.Virtio.Protocol — the descriptor protocol keeps its promises

`Inv` puts the layers together, and every action of a call, of the interrupt and of the
device keeps it. So chains are disjoint, `free` is exact, no `panic` is reached, each
completion releases the buffer of the request that was completed, and no call returns before
its own request is complete.
-/

namespace Xv6.Virtio

open Lib Function List

variable {P B : Type}

structure Inv (s : St P B) : Prop where
  own : Own s
  mem : Mem s
  flow : Flow s
  held : s.intr ≠ .off → s.vdisk_lock = some .intr
  known : ∀ p c, (s.pc p).call = some c → c ∈ s.calls
  finished : ∀ c ∈ s.finished, c ∈ s.calls
  numbered : ∀ c ∈ s.calls, c.uid < s.calls.length
  distinct : (s.calls.map Call.uid).Nodup
  panic : s.panic = none

variable {pc : Pc B}

section
variable {s t : St P B} {p : P} {c : Call B} {r : Idx} {i : Nat}

/-- A call under the lock excludes the interrupt. -/
theorem Inv.no_intr (h : Inv s) (hp : (s.pc p).locked = true) : s.intr = .off := by
  by_contra hne
  have hlock := h.held hne
  rw [h.own.lock p hp] at hlock
  cases hlock

theorem Inv.no_intr_of_free (h : Inv s) (hfree : s.vdisk_lock = none) : s.intr = .off := by
  by_contra hne
  have hlock := h.held hne
  rw [hfree] at hlock
  cases hlock

variable [DecidableEq P]

/-! ## Calls -/

theorem known_update (h : Inv s) (hpc : t.pc = update s.pc p pc)
    (hcall : ∀ c, pc.call = some c → (s.pc p).call = some c) (hcalls : t.calls = s.calls) (q : P)
    (c : Call B) (hq : (t.pc q).call = some c) : c ∈ t.calls := by
  rw [hcalls]
  by_cases hqp : q = p
  · rw [hpc, hqp, update_self] at hq
    exact h.known p c (hcall c hq)
  · rw [hpc, update_of_ne hqp] at hq
    exact h.known q c hq

/-- A place where the call has the same descriptors, and no request moves. -/
structure Stays (s : St P B) (p : P) (pc : Pc B) : Prop where
  descs : pc.descs = (s.pc p).descs
  call : ∀ c, pc.call = some c → (s.pc p).call = some c
  view : pc.view.Follows (s.pc p).view
  shape : Shaped s pc

omit [DecidableEq P] in
theorem Stays.of {old : Pc B} (hp : s.pc p = old) (hdescs : pc.descs = old.descs)
    (hcall : pc.call = old.call) (hview : pc.view = old.view) (hshape : Shaped s pc) :
    Stays s p pc := by
  subst hp
  exact ⟨hdescs, fun c hc => hcall ▸ hc, .inl hview, hshape⟩

/-- A call goes to such a place. -/
theorem Inv.move (h : Inv s) (hm : Stays s p pc) {l : Option (Ctx P)} {ch : P → Option (Chan B)}
    {x y : BitVec 64} {z : List (Call B)}
    (hlock : ∀ q, (update s.pc p pc q).locked = true → l = some (.call q))
    (hheld : s.intr ≠ .off → l = some .intr) (hret : ∀ c ∈ z, Complete s c) :
    Inv { s with
      pc := update s.pc p pc, vdisk_lock := l, chan := ch, read_disk_counter := x
      write_disk_counter := y, returned := z } :=
  ⟨h.own.move rfl hm.descs (fun c hc => h.own.owner p c (hm.call c hc)) rfl rfl hlock,
    h.mem.move rfl hm.shape rfl rfl fun _ => rfl,
    h.flow.quiet (view_follows hm.view) (fun _ => rfl) hret,
    hheld, known_update h rfl hm.call rfl, h.finished, h.numbered, h.distinct, h.panic⟩

/-- A call under the lock goes on. -/
theorem Inv.goto (h : Inv s) (hp : (s.pc p).locked = true) (hm : Stays s p pc) :
    Inv (s.goto p pc) :=
  h.move hm (h.own.keeps_lock (t := s.goto p pc) rfl hp rfl) h.held h.flow.returned

/-- `acquire(&disk.vdisk_lock)`. -/
theorem Inv.acquire (h : Inv s) (hs : acquire s p pc = some t) (hm : Stays s p pc) : Inv t := by
  unfold Virtio.acquire at hs
  split at hs
  case isTrue hfree =>
    cases hs
    exact h.move hm
      (h.own.takes_lock (t := { s.goto p pc with vdisk_lock := some (.call p) }) rfl hfree rfl)
      (fun hne => absurd (h.no_intr_of_free hfree) hne) h.flow.returned
  case isFalse => cases hs

/-- `sleep` on `vdisk_lock`. -/
theorem Inv.sleep {ch : Chan B} (h : Inv s) (hp : (s.pc p).locked = true) (hout : pc.locked = false)
    (hm : Stays s p pc) : Inv (sleep s p ch pc) :=
  h.move hm (h.own.drops_lock (t := Virtio.sleep s p ch pc) rfl hp hout)
    (fun hne => absurd (h.no_intr hp) hne) h.flow.returned

/-- A call under the lock goes on with its descriptors. -/
theorem Inv.under_lock (h : Inv s) (hpc : t.pc = update s.pc p pc) (hp : (s.pc p).locked = true)
    (hdescs : pc.descs = (s.pc p).descs) (hcall : pc.call = (s.pc p).call) (hmem : Mem t)
    (hflow : Flow t) (hfree : t.free = s.free) (howner : t.owner = s.owner)
    (hlock : t.vdisk_lock = s.vdisk_lock) (hintr : t.intr = s.intr) (hcalls : t.calls = s.calls)
    (hfin : t.finished = s.finished) (hpanic : t.panic = s.panic) :
    Inv t := by
  have hcall' : ∀ c, pc.call = some c → (s.pc p).call = some c := by
    rw [hcall]
    exact fun _ => id
  refine ⟨h.own.move hpc hdescs (fun c hc => h.own.owner p c (hcall' c hc)) hfree howner
    (h.own.keeps_lock hpc hp hlock), hmem, hflow, by rw [hintr, hlock]; exact h.held,
    known_update h hpc hcall' hcalls, ?_, ?_, ?_, hpanic.trans h.panic⟩
  · rw [hfin, hcalls]
    exact h.finished
  · rw [hcalls]
    exact h.numbered
  · rw [hcalls]
    exact h.distinct

/-! ## Descriptors -/

omit [DecidableEq P] in
theorem freeIndex_spec (hi : s.freeIndex = some i) : i < NUM ∧ s.free i = true := by
  have hmem := mem_of_find?_eq_some hi
  exact ⟨mem_range.mp hmem, find?_some hi⟩

theorem allocStep_inv {got : List Nat} (h : Inv s) (hp : s.pc p = .alloc c got) :
    Inv (allocStep s p c got) := by
  have hlocked : (s.pc p).locked = true := by rw [hp]; rfl
  unfold allocStep
  split
  case h_1 =>
    exact h.goto hlocked (.of hp rfl rfl rfl trivial)
  case h_2 i hi =>
    rcases freeIndex_spec hi with ⟨hlt, hfree⟩
    -- two descriptors and a third one make a request
    have hnew : ∀ pc : Pc B, pc.descs = got ++ [i] → pc.call = some c → pc.view = .none →
        Shaped s pc → pc.locked = true →
        Inv { s with free := update s.free i false, pc := update s.pc p pc } := by
      intro pc hdescs hcall hview hshape hpc
      have hcall' : ∀ d, pc.call = some d → (s.pc p).call = some d := by
        rw [hp, hcall]
        exact fun _ => id
      exact ⟨h.own.take rfl (fun d hd => h.own.owner p d (hcall' d hd)) rfl
          (h.own.keeps_lock rfl hlocked rfl) hlt hfree (by rw [hdescs, hp]; rfl) rfl,
        h.mem.move rfl hshape rfl rfl fun _ => rfl,
        h.flow.quiet (view_follows (.inl (by rw [hview, hp]; rfl))) (fun _ => rfl) h.flow.returned,
        h.held, known_update h rfl hcall' rfl, h.finished, h.numbered, h.distinct, h.panic⟩
    split
    · exact hnew _ rfl rfl rfl trivial rfl
    · exact hnew _ rfl rfl rfl trivial rfl

section
variable [DecidableEq B]

omit [DecidableEq P] in
/-- `free_desc` of a descriptor that the caller has does not panic. -/
theorem freeDesc_ok (h : Inv s) (hi : i ∈ (s.pc p).descs) :
    freeDesc s i = .ok ({ s with
      desc := update s.desc i Desc.zero
      free := update s.free i true }.wakeup .free) := by
  have hlt := h.own.lt hi
  unfold freeDesc
  rw [if_neg (by omega), if_neg (by rw [h.own.not_free hi]; exact Bool.false_ne_true)]

/-- A call gives back its first descriptor and goes on. -/
theorem Inv.give (h : Inv s) (hp : (s.pc p).locked = true) (hdescs : (s.pc p).descs = i :: pc.descs)
    (hcall : ∀ c, pc.call = some c → (s.pc p).call = some c) (hview : pc.view = (s.pc p).view)
    (hshape : ∀ t : St P B, t.desc = update s.desc i Desc.zero → Shaped t pc) :
    Inv (andThen s (freeDesc s i) fun t => t.goto p pc) := by
  have hi : i ∈ (s.pc p).descs := by
    rw [hdescs]
    exact mem_cons_self
  rw [freeDesc_ok h hi]
  simp only [andThen]
  refine ⟨h.own.give rfl (fun c hc => h.own.owner p c (hcall c hc)) rfl
      (h.own.keeps_lock rfl hp rfl) hdescs rfl, ?_,
    h.flow.quiet (view_follows (.inl hview)) (fun _ => rfl) h.flow.returned,
    h.held, known_update h rfl hcall rfl, h.finished, h.numbered, h.distinct, h.panic⟩
  refine h.mem.update rfl (hshape _ rfl) fun q hq j hj => ⟨?_, rfl, rfl⟩
  exact update_of_ne (h.own.apart hi hj hq) _ _

theorem chainStep_inv (h : Inv s) (hp : s.pc p = .chain c r i) : Inv (chainStep s p c r i) := by
  have hshape := h.mem p
  rw [hp] at hshape
  have hlocked : (s.pc p).locked = true := by rw [hp]; rfl
  unfold chainStep
  rcases Chained.next hshape (t := { s with desc := update s.desc i Desc.zero }) rfl with
    ⟨hnext, hrest, -⟩ | ⟨hnext, hrest⟩
  · rw [hnext]
    refine h.give hlocked (by rw [hp]; exact hrest) (by rw [hp]; exact fun _ => id)
      (by rw [hp]; rfl) ?_
    intro t ht
    rcases Chained.next hshape ht with ⟨-, -, hch⟩ | ⟨hlast, -⟩
    · exact hch
    · rw [hnext] at hlast
      cases hlast
  · rw [hnext]
    exact h.give hlocked (by rw [hp]; exact hrest) (by rw [hp]; exact fun _ => id) (by rw [hp]; rfl)
      fun _ _ => trivial

/-! ## A request is written and handed over -/

theorem formatStep_inv (h : Inv s) (hp : s.pc p = .format c r) : Inv (formatStep s p c r) := by
  have hdescs : (s.pc p).descs = r.list := by rw [hp]; rfl
  have hmem : ∀ {j}, j ∈ r.list → j ∈ (s.pc p).descs := fun hj => by rwa [hdescs]
  have hi0 : r.i0 ∈ r.list := by simp [Idx.list]
  have hi1 : r.i1 ∈ r.list := by simp [Idx.list]
  have hi2 : r.i2 ∈ r.list := by simp [Idx.list]
  have hlocked : (s.pc p).locked = true := by rw [hp]; rfl
  have hcall : (s.pc p).call = some c := by rw [hp]; rfl
  have hnone : (s.pc p).view = .none := by rw [hp]; rfl
  have hnd := h.own.nodup p
  rw [hdescs] at hnd
  simp only [Idx.list, nodup_cons, mem_cons, not_mem_nil, or_false, not_or,
    not_false_eq_true, nodup_nil, and_true] at hnd
  rcases hnd with ⟨⟨h01, h02⟩, h12⟩
  -- no other call has this buffer
  have hbuf : ∀ q d r', q ≠ p → (s.pc q).view = .ready d r' ∨ (s.pc q).view = .armed d r' ∨
      (s.pc q).view = .flight d r' → d.b ≠ c.b := by
    intro q d r' hq hv hb
    exact hq (h.own.call_inj (Pc.call_of_view hv) hcall hb)
  unfold formatStep
  refine h.under_lock rfl hlocked hdescs.symm hcall.symm ?_ ?_ rfl rfl rfl rfl rfl rfl rfl
  · refine h.mem.update rfl ?_ ?_
    · refine ⟨?_, ?_, ?_, ?_, ?_⟩
      · simp [h01, h02]
      · simp [h12]
      · simp
      · simp
      · simp
    · intro q hq j hj
      have h0 : j ≠ r.i0 := h.own.apart (hmem hi0) hj hq
      have h1 : j ≠ r.i1 := h.own.apart (hmem hi1) hj hq
      have h2 : j ≠ r.i2 := h.own.apart (hmem hi2) hj hq
      exact ⟨by simp [h0, h1, h2], by simp [h0], by simp [h0]⟩
  · have hfree : r.i0 ∉ heads s :=
      h.flow.not_head h.own (hmem hi0) fun c' r' hv => by rw [hnone] at hv; cases hv
    refine h.flow.carry
      (fun q d r' => view_iff rfl (by simp [hnone]) (by simp [Pc.view]) q)
      (fun q d hq => (view_old rfl (by simp [Pc.view]) hq).2) ?_ (.refl _)
      (h.flow.done_same (fun _ => id) ?_ fun _ => id) (fun _ => id) rfl h.flow.returned ?_ ?_
      h.flow.pushed h.flow.entry
    · intro q d r' hq
      refine update_of_ne (hbuf q d r' ?_ (.inr (.inr hq))) _ _
      rintro rfl
      rw [hnone] at hq
      cases hq
    · intro j hj
      have : j ≠ r.i0 := fun e => hfree (e ▸ hj)
      simp [this]
    · intro q d r' hq
      by_cases hqp : q = p
      · subst hqp
        simp only [update_self] at hq
        rcases hq with hq | hq <;> cases hq
        exact update_self _ _ _
      · simp only [update_of_ne hqp] at hq
        show update s.disk c.b true d.b = true
        rw [update_of_ne (hbuf q d r' hqp (hq.imp_right .inl))]
        exact h.flow.ready q d r' hq
    · intro q d r' hq
      exact h.flow.cell q d r' (view_old rfl (by simp [Pc.view]) hq).2

end

variable (h : Inv s)
include h

/-- The entry in the avail ring. -/
theorem ringStep_inv (hp : s.pc p = .ring c r) :
    Inv { s.goto p (.notify c r) with
      avail.ring := update s.avail.ring (s.avail.idx.toNat % NUM) r.i0 } := by
  have hlocked : (s.pc p).locked = true := by rw [hp]; rfl
  have hview : (s.pc p).view = .ready c r := by rw [hp]; rfl
  have hroom := h.flow.room h.own (.inl hview)
  have hshape := h.mem p
  rw [hp] at hshape
  refine h.under_lock rfl hlocked (by rw [hp]; rfl) (by rw [hp]; rfl)
    (h.mem.move rfl hshape rfl rfl fun _ => rfl) ?_ rfl rfl rfl rfl rfl rfl rfl
  have hheads : heads { s.goto p (.notify c r) with
      avail.ring := update s.avail.ring (s.avail.idx.toNat % NUM) r.i0 } = heads s := by
    unfold heads availQ
    exact congrArg (· ++ _) (queue_fill (by decide) hroom r.i0)
  refine h.flow.carry
    (fun q d r' => view_iff rfl (by rw [hview]; nofun) (by nofun) q)
    (fun q d hq => (view_old rfl (by nofun) hq).2) (fun _ _ _ _ => rfl) (.of_eq hheads)
    (h.flow.done_same (fun _ => id) (fun _ _ => rfl) fun _ => id) (fun _ => id) rfl h.flow.returned
    ?_ ?_ h.flow.pushed h.flow.entry
  · intro q d r' hq
    by_cases hqp : q = p
    · subst hqp
      simp only [St.goto, update_self] at hq
      rcases hq with hq | hq <;> cases hq
      exact h.flow.ready q c r (.inl hview)
    · simp only [St.goto, update_of_ne hqp] at hq
      exact h.flow.ready q d r' hq
  · intro q d r' hq
    by_cases hqp : q = p
    · subst hqp
      simp only [St.goto, update_self] at hq
      cases hq
      exact update_self _ _ _
    · -- two calls cannot both be under the lock
      simp only [St.goto, update_of_ne hqp] at hq
      exact absurd (h.own.locked_eq hlocked (Pc.locked_of_armed hq)) hqp

/-- The index of the avail ring. -/
theorem notifyStep_inv (hp : s.pc p = .notify c r) :
    Inv { s.goto p (.wait c r) with avail.idx := s.avail.idx + 1 } := by
  have hlocked : (s.pc p).locked = true := by rw [hp]; rfl
  have hview : (s.pc p).view = .armed c r := by rw [hp]; rfl
  have hdisk := h.flow.ready p c r (.inr hview)
  have hshape := h.mem p
  rw [hp] at hshape
  have hfree : r.i0 ∉ heads s := by
    refine h.flow.not_head h.own (p := p) (by rw [hp]; simp [Pc.descs, Idx.list]) fun c' r' hv => ?_
    rw [hview] at hv
    cases hv
  have hheads : (heads { s.goto p (.wait c r) with avail.idx := s.avail.idx + 1 }).Perm
      (r.i0 :: heads s) := by
    unfold heads
    have hpush : availQ { s.goto p (.wait c r) with avail.idx := s.avail.idx + 1 } =
        availQ s ++ [r.i0] := by
      rw [← h.flow.cell p c r hview]
      exact queue_count (by decide) (h.flow.room h.own (.inr hview)) (by decide)
    rw [hpush, append_assoc]
    exact perm_middle
  have hflight : ∀ q d r', (s.pc q).view = .flight d r' →
      (update s.pc p (.wait c r) q).view = .flight d r' := by
    intro q d r' hq
    rw [update_of_ne]
    · exact hq
    · rintro rfl
      rw [hview] at hq
      cases hq
  have hback : ∀ q d r', (update s.pc p (.wait c r) q).view = .flight d r' →
      (q = p ∧ d = c ∧ r' = r) ∨ (s.pc q).view = .flight d r' := by
    intro q d r' hq
    by_cases hqp : q = p
    · rw [hqp, update_self] at hq
      cases hq
      exact .inl ⟨hqp, rfl, rfl⟩
    · rw [update_of_ne hqp] at hq
      exact .inr hq
  refine h.under_lock rfl hlocked (by rw [hp]; rfl) (by rw [hp]; rfl)
    (h.mem.move rfl hshape rfl rfl fun _ => rfl) ?_ rfl rfl rfl rfl rfl rfl rfl
  refine ⟨?_, ?_, ?_, ?_, ?_, ?_, ?_, h.flow.pushed, h.flow.entry, h.flow.cleared, h.flow.returned⟩
  · rintro q d r' (hq | hq)
    · exact h.flow.ready q d r' (.inl (view_old rfl (by simp [Pc.view]) hq).2)
    · exact h.flow.ready q d r' (.inr (view_old rfl (by simp [Pc.view]) hq).2)
  · intro q d r' hq
    rcases view_old rfl (by simp [Pc.view]) hq with ⟨hqp, hq⟩
    exact absurd (h.own.locked_eq hlocked (Pc.locked_of_armed hq)) hqp
  · exact hheads.nodup_iff.mpr (nodup_cons.mpr ⟨hfree, h.flow.nodup⟩)
  · intro j hj
    rcases mem_cons.mp (hheads.mem_iff.mp hj) with rfl | hj
    · exact ⟨p, c, r, by simp [St.goto, Pc.view], rfl, hdisk⟩
    · rcases h.flow.flight j hj with ⟨q, d, r', hq, hrest⟩
      exact ⟨q, d, r', hflight q d r' hq, hrest⟩
  · intro q d r' hq hd
    apply hheads.mem_iff.mpr
    rcases hback q d r' hq with ⟨-, -, rfl⟩ | hq
    · exact mem_cons_self
    · exact mem_cons_of_mem _ (h.flow.pending q d r' hq hd)
  · intro e he
    rcases h.flow.done e he with ⟨hst, q, d, r', hq, hrest⟩
    exact ⟨hst, q, d, r', hflight q d r' hq, hrest⟩
  · rintro q d (hq | ⟨r', hq, hd⟩)
    · exact h.flow.complete q d (.inl (view_old rfl (by simp [Pc.view]) hq).2)
    · rcases hback q d r' hq with ⟨-, rfl, -⟩ | hq
      · change s.disk d.b = false at hd
        rw [hdisk] at hd
        cases hd
      · exact h.flow.complete q d (.inr ⟨r', hq, hd⟩)

/-- The call finds `b->disk` clear. -/
theorem waitDone_inv (hp : s.pc p = .wait c r) (hd : s.disk c.b = false) :
    Inv (s.goto p (.clear c r)) := by
  have hlocked : (s.pc p).locked = true := by rw [hp]; rfl
  have hview : (s.pc p).view = .flight c r := by rw [hp]; rfl
  have hshape := h.mem p
  rw [hp] at hshape
  have hflight : ∀ q d r', s.disk d.b = true → (s.pc q).view = .flight d r' →
      (update s.pc p (.clear c r) q).view = .flight d r' := by
    intro q d r' hd' hq
    rw [update_of_ne]
    · exact hq
    · rintro rfl
      rw [hview] at hq
      cases hq
      rw [hd] at hd'
      cases hd'
  refine h.under_lock rfl hlocked (by rw [hp]; rfl) (by rw [hp]; rfl)
    (h.mem.move rfl hshape rfl rfl fun _ => rfl) ?_ rfl rfl rfl rfl rfl rfl rfl
  refine ⟨?_, ?_, h.flow.nodup, ?_, ?_, ?_, ?_, h.flow.pushed, h.flow.entry, h.flow.cleared,
    h.flow.returned⟩
  · rintro q d r' (hq | hq)
    · exact h.flow.ready q d r' (.inl (view_old rfl (by nofun) hq).2)
    · exact h.flow.ready q d r' (.inr (view_old rfl (by nofun) hq).2)
  · intro q d r' hq
    exact h.flow.cell q d r' (view_old rfl (by nofun) hq).2
  · intro j hj
    rcases h.flow.flight j hj with ⟨q, d, r', hq, hr, hd'⟩
    exact ⟨q, d, r', hflight q d r' hd' hq, hr, hd'⟩
  · intro q d r' hq
    exact h.flow.pending q d r' (view_old rfl (by nofun) hq).2
  · intro e he
    rcases h.flow.done e he with ⟨hst, q, d, r', hq, hr, hrest⟩
    -- its head is still with the device, so it waits with b->disk set
    rcases h.flow.flight e.id he.mem_heads with ⟨q', d', r'', hq', hr', hd'⟩
    have heq := h.own.flight_eq (Pc.mem_descs_of_view (.inr (.inr hq'))) hq (hr.trans hr'.symm)
    rw [heq, hq'] at hq
    cases hq
    exact ⟨hst, q', d, r', hflight q' d r' hd' hq', hr, hrest⟩
  · rintro q d (hq | ⟨r', hq, hd'⟩)
    · by_cases hqp : q = p
      · simp only [hqp, St.goto, update_self] at hq
        cases hq
        exact h.flow.complete p c (.inr ⟨r, hview, hd⟩)
      · simp only [St.goto, update_of_ne hqp] at hq
        exact h.flow.complete q d (.inl hq)
    · exact h.flow.complete q d (.inr ⟨r', (view_old rfl (by nofun) hq).2, hd'⟩)

/-- `disk.info[idx[0]].b = 0`. -/
theorem clearStep_inv (hp : s.pc p = .clear c r) :
    Inv { s.goto p (.chain c r r.i0) with
      info := update s.info r.i0 { s.info r.i0 with b := none } } := by
  have hlocked : (s.pc p).locked = true := by rw [hp]; rfl
  have hdescs : (s.pc p).descs = r.list := by rw [hp]; rfl
  have hshape := h.mem p
  rw [hp] at hshape
  have hnd := h.own.nodup p
  rw [hdescs] at hnd
  refine h.under_lock rfl hlocked ?_ (by rw [hp]; rfl) ?_ ?_ rfl rfl rfl rfl rfl rfl rfl
  · rw [hdescs]
    exact if_pos rfl
  · refine h.mem.update rfl ⟨hnd, mem_cons_self, fun _ => hshape.desc0, fun _ => hshape.desc1,
      hshape.desc2⟩ fun q hq j hj => ⟨rfl, rfl, ?_⟩
    have hne : j ≠ r.i0 := h.own.apart (p := p) (by rw [hdescs]; exact mem_cons_self) hj hq
    simp [hne]
  · exact h.flow.quiet (view_follows (.inl (by rw [hp]; rfl)))
      (update_field Info.status (by rfl)) h.flow.returned

/-- The call returns. -/
theorem releaseStep_inv (hp : s.pc p = .release c) :
    Inv { s.goto p .out with vdisk_lock := none, returned := c :: s.returned } := by
  have hlocked : (s.pc p).locked = true := by rw [hp]; rfl
  have hm : Stays s p .out := ⟨by rw [hp]; rfl, nofun, .inr ⟨rfl, by rw [hp]; nofun⟩, trivial⟩
  refine h.move hm
    (h.own.drops_lock (t := { s.goto p .out with vdisk_lock := none }) rfl hlocked rfl)
    (fun hne => absurd (h.no_intr hlocked) hne) fun d hd => ?_
  rcases mem_cons.mp hd with rfl | hd
  · exact h.flow.complete p d (.inl (by rw [hp]; rfl))
  · exact h.flow.returned d hd

/-- Every action of a call. -/
theorem runPc_inv [DecidableEq B] (hs : runPc s p (s.pc p) = some t) : Inv t := by
  generalize hp : s.pc p = pc at hs
  cases pc with
  | out =>
    cases hs
  | acquire c =>
    simp only [runPc, Option.map_eq_some_iff] at hs
    rcases hs with ⟨u, hu, rfl⟩
    unfold acquire at hu
    split at hu
    case isTrue hfree =>
      cases hu
      have hlock := h.own.takes_lock (p := p)
        (t := { s.goto p (.alloc c []) with vdisk_lock := some (.call p) }) rfl hfree rfl
      have hm : Stays s p (.alloc c []) := .of hp rfl rfl rfl trivial
      have hheld : s.intr ≠ .off → some (Ctx.call p) = some .intr :=
        fun hne => absurd (h.no_intr_of_free hfree) hne
      split
      · exact h.move hm hlock hheld h.flow.returned
      · exact h.move hm hlock hheld h.flow.returned
    case isFalse => cases hu
  | alloc c got =>
    cases hs
    exact allocStep_inv h hp
  | undo c left =>
    have hlocked : (s.pc p).locked = true := by rw [hp]; rfl
    cases left with
    | nil =>
      cases hs
      exact h.sleep hlocked rfl (.of hp rfl rfl rfl trivial)
    | cons i left =>
      cases hs
      exact h.give hlocked (by rw [hp]; rfl) (by rw [hp]; exact fun _ => id) (by rw [hp]; rfl)
        fun _ _ => trivial
  | sleepFree c =>
    simp only [runPc, Option.ite_none_right_eq_some] at hs
    exact h.acquire hs.2 (.of hp rfl rfl rfl trivial)
  | format c r =>
    cases hs
    exact formatStep_inv h hp
  | ring c r =>
    cases hs
    exact ringStep_inv h hp
  | notify c r =>
    cases hs
    exact notifyStep_inv h hp
  | wait c r =>
    have hshape := h.mem p
    rw [hp] at hshape
    cases hs
    split
    · exact h.sleep (by rw [hp]; rfl) rfl (.of hp rfl rfl rfl hshape)
    · next hd => exact waitDone_inv h hp (by simpa using hd)
  | sleepBuf c r =>
    have hshape := h.mem p
    rw [hp] at hshape
    simp only [runPc, Option.ite_none_right_eq_some] at hs
    exact h.acquire hs.2 (.of hp rfl rfl rfl hshape)
  | clear c r =>
    cases hs
    exact clearStep_inv h hp
  | chain c r i =>
    cases hs
    exact chainStep_inv h hp
  | release c =>
    cases hs
    exact releaseStep_inv h hp

end

/-! ## The interrupt and the device -/

section
variable {s t : St P B} {p : P} {c : Call B} {r : Idx}

theorem Inv.formatted (h : Inv s) (hp : (s.pc p).view = .flight c r) : Formatted s c r := by
  have hshape := h.mem p
  cases hpc : s.pc p <;> rw [hpc] at hp hshape <;> cases hp <;> exact hshape

/-- No call moves, and the memory of the calls stays as it is. -/
theorem Inv.still (h : Inv s) (hpc : t.pc = s.pc) (hfree : t.free = s.free)
    (howner : t.owner = s.owner)
    (hlock : ∀ q, (s.pc q).locked = true → t.vdisk_lock = some (.call q))
    (hheld : t.intr ≠ .off → t.vdisk_lock = some .intr)
    (hdesc : t.desc = s.desc) (hops : t.ops = s.ops) (hbuf : ∀ i, (t.info i).b = (s.info i).b)
    (hflow : Flow t) (hcalls : t.calls = s.calls) (hfin : ∀ c ∈ t.finished, c ∈ s.calls)
    (hpanic : t.panic = none) : Inv t := by
  refine ⟨h.own.still hpc hfree howner hlock, h.mem.still hpc hdesc hops hbuf, hflow, hheld, ?_, ?_,
    ?_, ?_, hpanic⟩
  · rw [hpc, hcalls]
    exact h.known
  · rw [hcalls]
    exact hfin
  · rw [hcalls]
    exact h.numbered
  · rw [hcalls]
    exact h.distinct

/-- The interrupt takes the lock, leaves, or reads an entry of the used ring. -/
theorem Inv.interrupt (h : Inv s) {l : Option (Ctx P)} {a : Intr}
    (hlock : ∀ q, (s.pc q).locked = true → l = some (.call q)) (hheld : a ≠ .off → l = some .intr)
    (hentry : ∀ e, a = .entry e → s.used_idx ≠ s.used.idx ∧
      s.used.ring (s.used_idx.toNat % NUM) = e) :
    Inv { s with vdisk_lock := l, intr := a } := by
  refine h.still rfl rfl rfl hlock hheld rfl rfl (fun _ => rfl) ?_ rfl h.finished h.panic
  exact h.flow.carry (fun _ _ _ => .rfl) (fun _ _ => id) (fun _ _ _ _ => rfl) (.refl _)
    (h.flow.done_same (fun _ => id) (fun _ _ => rfl) fun _ => id) (fun _ => id) rfl h.flow.returned
    h.flow.ready h.flow.cell h.flow.pushed hentry

variable [DecidableEq B]

/-- The interrupt releases the buffer of the request that the entry is about. -/
theorem intrBody_inv {e : UsedElem} (h : Inv s) (he : s.intr = .entry e) : Inv (intrBody s e) := by
  rcases h.flow.entry e he with ⟨hne, hring⟩
  have hpop : usedQ s = e :: queue NUM s.used.ring (s.used_idx + 1) s.used.idx := by
    rw [← hring]
    exact queue_pop NUM s.used.ring hne
  have hdone : Done s e := .inr (mem_append_right _ (by rw [hpop]; exact mem_cons_self))
  rcases h.flow.done e hdone with ⟨hst, p, c, r, hp, hr, hu, hf⟩
  have hshape := h.formatted hp
  have hbuf : (s.info e.id).b = some c.b := hr ▸ hshape.buf
  -- another request in flight is for another buffer
  have hother : ∀ q d r', (s.pc q).view = .flight d r' → r'.i0 ≠ e.id → d.b ≠ c.b := by
    intro q d r' hq hne' hb
    have heq := h.own.call_inj (Pc.call_of_view (.inr (.inr hq)))
      (Pc.call_of_view (.inr (.inr hp))) hb
    rw [heq, hp] at hq
    cases hq
    exact hne' hr
  simp only [intrBody, hst, hbuf, ne_eq, not_true_eq_false, if_false]
  refine h.still rfl rfl rfl (fun q hq => h.own.lock q hq) (fun _ => h.held (by rw [he]; nofun)) rfl
    rfl (fun _ => rfl) ?_ rfl h.finished h.panic
  have hheads : (heads s).Perm (e.id :: heads ({ s with
      disk := update s.disk c.b false
      used_idx := s.used_idx + 1
      intr := .loop
      cleared := (e.uid, c.b) :: s.cleared }.wakeup (.buf c.b))) := by
    unfold heads
    rw [hpop, map_append, map_cons, ← append_assoc, ← append_assoc]
    refine perm_middle.trans (.cons _ (.of_eq ?_))
    rw [append_assoc, append_assoc, map_append]
    rfl
  have hnd := hheads.nodup_iff.mp h.flow.nodup
  rw [nodup_cons] at hnd
  have hcomplete : ∀ d, Complete s d → d ∈ s.finished ∧ (d.uid, d.b) ∈ (e.uid, c.b) :: s.cleared :=
    fun d hd => ⟨hd.1, mem_cons_of_mem _ hd.2⟩
  refine ⟨?_, h.flow.cell, hnd.2, ?_, ?_, ?_, ?_, h.flow.pushed, nofun, ?_,
    fun d hd => hcomplete d (h.flow.returned d hd)⟩
  · intro q d r' hq
    have hb : d.b ≠ c.b := by
      intro hb
      have hv : (s.pc q).view = .ready d r' ∨ (s.pc q).view = .armed d r' ∨
          (s.pc q).view = .flight d r' := hq.imp_right .inl
      have heq := h.own.call_inj (Pc.call_of_view hv) (Pc.call_of_view (.inr (.inr hp))) hb
      rw [heq] at hq
      change (s.pc p).view = _ ∨ (s.pc p).view = _ at hq
      rw [hp] at hq
      rcases hq with hq | hq <;> cases hq
    show update s.disk c.b false d.b = true
    rw [update_of_ne hb]
    exact h.flow.ready q d r' hq
  · intro j hj
    rcases h.flow.flight j (hheads.mem_iff.mpr (mem_cons_of_mem _ hj)) with
      ⟨q, d, r', hq, rfl, hd⟩
    refine ⟨q, d, r', hq, rfl, ?_⟩
    show update s.disk c.b false d.b = true
    rw [update_of_ne (hother q d r' hq fun heq => hnd.1 (heq ▸ hj))]
    exact hd
  · intro q d r' hq hd
    by_cases hb : d.b = c.b
    · change update s.disk c.b false d.b = true at hd
      rw [hb, update_self] at hd
      cases hd
    change update s.disk c.b false d.b = true at hd
    rw [update_of_ne hb] at hd
    rcases mem_cons.mp (hheads.mem_iff.mp (h.flow.pending q d r' hq hd)) with heq | hmem
    · have hqp := h.own.flight_eq (Pc.mem_descs_of_view (.inr (.inr hp))) hq (heq.trans hr.symm)
      change (s.pc q).view = _ at hq
      rw [hqp, hp] at hq
      cases hq
      exact absurd rfl hb
    · exact hmem
  · intro e' he'
    apply h.flow.done
    rcases he' with hw | hq
    · exact .inl hw
    · rcases mem_append.mp hq with hq | hq
      · exact .inr (mem_append_left _ hq)
      · exact .inr (mem_append_right _ (by rw [hpop]; exact mem_cons_of_mem _ hq))
  · rintro q d (hq | ⟨r', hq, hd⟩)
    · exact hcomplete d (h.flow.complete q d (.inl hq))
    by_cases hb : d.b = c.b
    · -- the request that is completed now
      have hqp := h.own.call_inj (Pc.call_of_view (.inr (.inr hq)))
        (Pc.call_of_view (.inr (.inr hp))) hb
      change (s.pc q).view = _ at hq
      rw [hqp, hp] at hq
      cases hq
      exact ⟨hf, by rw [hu]; exact mem_cons_self⟩
    · change update s.disk c.b false d.b = false at hd
      rw [update_of_ne hb] at hd
      exact hcomplete d (h.flow.complete q d (.inr ⟨r', hq, hd⟩))
  · intro x hx
    rcases mem_cons.mp hx with rfl | hx
    · exact ⟨c, hf, hu, rfl⟩
    · exact h.flow.cleared x hx

theorem runIntr_inv (h : Inv s) (hs : runIntr s s.intr = some t) : Inv t := by
  generalize hi : s.intr = a at hs
  cases a with
  | off =>
    rcases of_ite_eq_some hs with ⟨hfree, rfl⟩
    refine h.interrupt ?_ (fun _ => rfl) nofun
    intro q hq
    have hlock := h.own.lock q hq
    rw [hfree] at hlock
    cases hlock
  | loop =>
    have hheld := h.held (by rw [hi]; nofun)
    -- the interrupt has the lock, so no call has it
    have hnone : ∀ q l, (s.pc q).locked = true → l = some (Ctx.call q) := by
      intro q l hq
      have hlock := h.own.lock q hq
      rw [hheld] at hlock
      cases hlock
    cases hs
    split
    case isTrue hne =>
      refine h.interrupt (l := s.vdisk_lock) h.own.lock (fun _ => hheld) ?_
      rintro e he
      cases he
      exact ⟨hne, rfl⟩
    case isFalse => exact h.interrupt (fun q => hnone q none) (fun hne => absurd rfl hne) nofun
  | entry e =>
    cases hs
    exact intrBody_inv h hi

end

section
variable {s : St P B}

/-- The device acts: the calls stay where they are. -/
theorem Inv.device (h : Inv s) {a : BitVec 16} {w : List Work} {e : Option UsedElem} {u : Used}
    {f : Nat → Info B} {l : List (Call B)} (hheads : (heads { s with
      seen := a, work := w, pushing := e, used := u, info := f, finished := l }).Perm (heads s))
    (hdone : ∀ x, Done { s with
        seen := a, work := w, pushing := e, used := u, info := f, finished := l } x →
      (f x.id).status = 0 ∧ ∃ p c r, (s.pc p).view = .flight c r ∧ r.i0 = x.id ∧ c.uid = x.uid ∧
        c ∈ l)
    (hbuf : ∀ i, (f i).b = (s.info i).b) (hgrow : ∀ c ∈ s.finished, c ∈ l)
    (hfin : ∀ c ∈ l, c ∈ s.calls) (hpushed : ∀ x, e = some x → u.ring (u.idx.toNat % NUM) = x)
    (hentry : ∀ x, s.intr = .entry x → s.used_idx ≠ u.idx ∧ u.ring (s.used_idx.toNat % NUM) = x) :
    Inv { s with seen := a, work := w, pushing := e, used := u, info := f, finished := l } :=
  h.still rfl rfl rfl h.own.lock h.held rfl rfl hbuf
    (h.flow.carry (fun _ _ _ => .rfl) (fun _ _ => id) (fun _ _ _ _ => rfl) hheads hdone hgrow rfl
      h.flow.returned h.flow.ready h.flow.cell hpushed hentry)
    rfl hfin h.panic

/-- The device takes the next head out of the avail ring. -/
theorem takeStep_inv (h : Inv s) (hne : s.seen ≠ s.avail.idx) :
    Inv { s with
      seen := s.seen + 1
      work := ⟨s.avail.ring (s.seen.toNat % NUM), none⟩ :: s.work } := by
  refine h.device ?_ ?_ (fun _ => rfl) (fun _ => id) h.finished h.flow.pushed h.flow.entry
  · unfold heads
    have hpop : availQ s = s.avail.ring (s.seen.toNat % NUM) ::
        queue NUM s.avail.ring (s.seen + 1) s.avail.idx := queue_pop NUM s.avail.ring hne
    rw [hpop]
    exact perm_middle
  · refine h.flow.done_same ?_ (fun _ _ => rfl) fun _ => id
    rintro x (hw | hx)
    · rcases mem_cons.mp hw with heq | hw
      · simp at heq
      · exact .inl hw
    · exact .inr hx

/-- The device carries out a request that it has taken. -/
theorem finishStep_inv {id : Nat} (h : Inv s) (hid : ⟨id, none⟩ ∈ s.work) :
    Inv (finishStep s id) := by
  have hhead : id ∈ heads s := mem_append_right _ (mem_append_left _
    (mem_map.mpr ⟨_, hid, rfl⟩))
  rcases h.flow.flight id hhead with ⟨p, c, r, hp, rfl, -⟩
  have hshape := h.formatted hp
  simp only [finishStep, hshape.readChain_eq]
  refine h.device ?_ ?_ ?_ (fun _ => mem_cons_of_mem _) ?_ h.flow.pushed h.flow.entry
  · unfold heads
    refine .append_left _ (.append_right _ ?_)
    exact ((perm_cons_erase hid).map Work.id).symm
  · intro x hx
    have hold : Done s x → (update s.info r.i0 { s.info r.i0 with status := 0 } x.id).status
        = 0 ∧ ∃ p c' r', (s.pc p).view = .flight c' r' ∧ r'.i0 = x.id ∧ c'.uid = x.uid ∧
          c' ∈ c :: s.finished := by
      intro hs
      rcases h.flow.done x hs with ⟨hst, q, d, r', hq, hr, hu, hf⟩
      refine ⟨?_, q, d, r', hq, hr, hu, mem_cons_of_mem _ hf⟩
      by_cases hxi : x.id = r.i0
      · rw [hxi, update_self]
      · rw [update_of_ne hxi]
        exact hst
    rcases hx with hw | hx
    · rcases mem_cons.mp hw with heq | hw
      · simp only [Work.mk.injEq, Option.some.injEq] at heq
        rcases heq with ⟨hid', huid⟩
        rw [hid', huid, update_self]
        exact ⟨rfl, p, c, r, hp, rfl, rfl, mem_cons_self⟩
      · exact hold (.inl (mem_of_mem_erase hw))
    · exact hold (.inr hx)
  · exact update_field Info.b (by rfl)
  · intro d hd
    rcases mem_cons.mp hd with rfl | hd
    · exact h.known p d (Pc.call_of_view (.inr (.inr hp)))
    · exact h.finished d hd

/-- The device writes an entry of the used ring. -/
theorem pushStep_inv {e : UsedElem} (h : Inv s) (he : ⟨e.id, some e.uid⟩ ∈ s.work)
    (hnone : s.pushing = none) :
    Inv { s with
      used.ring := update s.used.ring (s.used.idx.toNat % NUM) e
      pushing := some e
      work := s.work.erase ⟨e.id, some e.uid⟩ } := by
  have hroom := h.flow.used_room h.own (.inl (ne_nil_of_mem he))
  have hfill : queue NUM (update s.used.ring (s.used.idx.toNat % NUM) e) s.used_idx s.used.idx
      = usedQ s := queue_fill (by decide) hroom e
  refine h.device ?_ ?_ (fun _ => rfl) (fun _ => id) h.finished ?_ ?_
  · unfold heads
    refine .append_left _ ?_
    have husedQ : usedQ { s with
        used.ring := update s.used.ring (s.used.idx.toNat % NUM) e
        pushing := some e
        work := s.work.erase ⟨e.id, some e.uid⟩ } = usedQ s := hfill
    rw [husedQ, hnone]
    have hperm := (perm_cons_erase he).map Work.id
    exact perm_middle.trans (hperm.symm.append_right _)
  · refine h.flow.done_same ?_ (fun _ _ => rfl) fun _ => id
    rintro x (hw | hx)
    · exact .inl (mem_of_mem_erase hw)
    · rcases mem_append.mp hx with hx | hx
      · rw [Option.mem_toList] at hx
        cases hx
        exact .inl he
      · refine .inr (mem_append_right _ ?_)
        rw [← hfill]
        exact hx
  · rintro x hx
    cases hx
    exact update_self _ _ _
  · intro x hx
    rcases h.flow.entry x hx with ⟨hne, hring⟩
    refine ⟨hne, ?_⟩
    -- the entry the interrupt reads is the first of the queue, which has not changed
    have hhead := queue_pop NUM (update s.used.ring (s.used.idx.toNat % NUM) e) hne
    rw [hfill, usedQ, queue_pop NUM s.used.ring hne] at hhead
    rw [← hring]
    exact (List.cons.inj hhead).1.symm

/-- The device counts the entry. -/
theorem publishStep_inv (h : Inv s) (hsome : s.pushing ≠ none) :
    Inv { s with used.idx := s.used.idx + 1, pushing := none } := by
  rcases Option.ne_none_iff_exists'.mp hsome with ⟨e, he⟩
  have hroom := h.flow.used_room h.own (.inr hsome)
  have hcount : queue NUM s.used.ring s.used_idx (s.used.idx + 1) = usedQ s ++ [e] := by
    rw [← h.flow.pushed e he]
    exact queue_count (by decide) hroom (by decide)
  have husedQ : usedQ { s with used.idx := s.used.idx + 1, pushing := none } = usedQ s ++ [e] :=
    hcount
  refine h.device ?_ ?_ (fun _ => rfl) (fun _ => id) h.finished nofun ?_
  · unfold heads
    refine .append_left _ (.append_left _ ?_)
    rw [husedQ, he, Option.toList_none, nil_append]
    exact (perm_append_singleton e (usedQ s)).map _
  · refine h.flow.done_same ?_ (fun _ _ => rfl) fun _ => id
    rintro x (hw | hx)
    · exact .inl hw
    · right
      rw [husedQ, Option.toList_none, nil_append] at hx
      rw [he]
      rcases mem_append.mp hx with hx | hx
      · exact mem_append_right _ hx
      · exact mem_append_left _ hx
  · intro x hx
    rcases h.flow.entry x hx with ⟨hne, hring⟩
    refine ⟨?_, hring⟩
    -- the used ring has an entry more than before, so it is not empty
    intro (heq : s.used_idx = s.used.idx + 1)
    have hlen := congrArg List.length hcount
    rw [length_queue, ← heq, BitVec.sub_self, length_append, length_singleton] at hlen
    simp at hlen

end

/-! ## The system -/

theorem boot_inv : Inv (boot : St P B) := by
  have hq : heads (boot : St P B) = [] := by
    unfold heads availQ usedQ boot
    simp
  refine ⟨⟨nofun, nofun, ⟨?_, ?_, ?_⟩, fun _ => nodup_nil⟩, fun _ => trivial, ?_,
    fun h => absurd rfl h, nofun, nofun, nofun, nodup_nil, rfl⟩
  · rintro x y b ⟨-, hx⟩
    cases hx
  · rintro x b ⟨-, hx⟩
    cases hx
  · intro b _ hb
    cases hb
  refine ⟨?_, nofun, by rw [hq]; exact nodup_nil, by rw [hq]; nofun, nofun, ?_, ?_, nofun, nofun,
    nofun, nofun⟩
  · rintro p c r (hp | hp) <;> cases hp
  · intro e he
    have hmem := he.mem_heads
    rw [hq] at hmem
    cases hmem
  · rintro p c (hp | ⟨r, hp, -⟩) <;> cases hp

section
variable [DecidableEq P] {s t : St P B}

/-- A call of `virtio_disk_rw` begins. -/
theorem Inv.begin (h : Inv s) {p : P} {c : Call B} (hp : s.pc p = .out)
    (howner : s.owner c.b = some p) (huid : c.uid = s.calls.length) :
    Inv { s.goto p (.acquire c) with calls := c :: s.calls } := by
  have hlt : ∀ d ∈ s.calls, d.uid < c.uid := fun d hd => huid ▸ h.numbered d hd
  refine ⟨h.own.move rfl (by rw [hp]; rfl) ?_ rfl rfl ?_, h.mem.move rfl trivial rfl rfl fun _ => rfl,
    h.flow.quiet (view_follows (.inl (by rw [hp]; rfl))) (fun _ => rfl) h.flow.returned,
    h.held, ?_, fun d hd => mem_cons_of_mem _ (h.finished d hd), ?_, ?_, h.panic⟩
  · rintro d hd
    cases hd
    exact howner
  · intro q hq
    by_cases hqp : q = p
    · subst hqp
      simp only [St.goto, update_self] at hq
      cases hq
    · simp only [St.goto, update_of_ne hqp] at hq
      exact h.own.lock q hq
  · intro q d hq
    by_cases hqp : q = p
    · subst hqp
      simp only [St.goto, update_self] at hq
      cases hq
      exact mem_cons_self
    · simp only [St.goto, update_of_ne hqp] at hq
      exact mem_cons_of_mem _ (h.known q d hq)
  · intro d hd
    show d.uid < s.calls.length + 1
    rcases mem_cons.mp hd with rfl | hd
    · omega
    · have := h.numbered d hd
      omega
  · refine nodup_cons.mpr ⟨?_, h.distinct⟩
    intro hmem
    rcases mem_map.mp hmem with ⟨d, hd, heq⟩
    have := hlt d hd
    omega

variable [DecidableEq B]

omit [DecidableEq P] in
/-- The sleep-lock of a buffer that no call is using changes hands. -/
theorem Inv.relock (h : Inv s) {b : B} {o : Option P}
    (hunused : ∀ p c, (s.pc p).call = some c → c.b ≠ b) :
    Inv { s with owner := update s.owner b o } := by
  refine ⟨⟨h.own.lock, ?_, h.own.descs, h.own.nodup⟩,
    h.mem.still rfl rfl rfl fun _ => rfl, ?_, h.held, h.known, h.finished,
    h.numbered, h.distinct, h.panic⟩
  · intro p c hp
    show update s.owner b o c.b = some p
    rw [update_of_ne (hunused p c hp)]
    exact h.own.owner p c hp
  · exact h.flow.quiet (fun _ => .inl rfl) (fun _ => rfl) h.flow.returned

theorem step_inv {l : Lbl P B} (h : Inv s) (hs : step s l = some t) : Inv t := by
  unfold step at hs
  rw [if_neg (by rw [h.panic]; exact fun hne => hne rfl)] at hs
  cases l with
  | acquiresleep p b =>
    rcases of_ite_eq_some hs with ⟨⟨-, hfree⟩, rfl⟩
    refine h.relock fun q c hq hb => ?_
    have := h.own.owner q c hq
    rw [hb, hfree] at this
    cases this
  | releasesleep p b =>
    rcases of_ite_eq_some hs with ⟨⟨hp, howner⟩, rfl⟩
    refine h.relock fun q c hq hb => ?_
    have := h.own.owner q c hq
    rw [hb, howner] at this
    cases this
    rw [hp] at hq
    cases hq
  | rw p b blockno write =>
    rcases of_ite_eq_some hs with ⟨⟨hp, howner⟩, rfl⟩
    exact h.begin hp howner rfl
  | run p => exact runPc_inv h hs
  | kkill p =>
    cases hs
    exact h.still rfl rfl rfl h.own.lock h.held rfl rfl (fun _ => rfl)
      (h.flow.quiet (fun _ => .inl rfl) (fun _ => rfl) h.flow.returned) rfl h.finished h.panic
  | intr => exact runIntr_inv h hs
  | take =>
    rcases of_ite_eq_some hs with ⟨hne, rfl⟩
    exact takeStep_inv h hne
  | finish id =>
    rcases of_ite_eq_some hs with ⟨hid, rfl⟩
    exact finishStep_inv h hid
  | push e =>
    rcases of_ite_eq_some hs with ⟨⟨he, hnone⟩, rfl⟩
    exact pushStep_inv h he hnone
  | publish =>
    rcases of_ite_eq_some hs with ⟨hsome, rfl⟩
    exact publishStep_inv h hsome

theorem reachable_inv (h : (sys P B).Reachable s) : Inv s := by
  refine System.Reachable.invariant Inv ?_ ?_ h
  · rintro s rfl
    exact boot_inv
  · exact fun s l t hi hs => step_inv hi hs

end

/-- The calls of `false` and `true` are in flight together, and the second is completed first. -/
def overtakeRun : List (Lbl Bool Bool) :=
  List.flatten [
    [.acquiresleep false false, .rw false false 5 true], List.replicate 8 (.run false),
    [.acquiresleep true true, .rw true true 7 false], List.replicate 8 (.run true),
    [.take, .take, .finish 3, .push ⟨3, 1⟩, .publish], List.replicate 4 .intr,
    List.replicate 7 (.run true),
    [.finish 0, .push ⟨0, 0⟩, .publish], List.replicate 4 .intr, List.replicate 7 (.run false)]

/-- However often their 16-bit indices wrap, the rings lose and overwrite nothing: the heads in
them and with the device are different and just those of the calls that wait with `b->disk` set,
with room for a call about to write and for a device with work. -/
theorem rings_exact [DecidableEq P] [DecidableEq B] {s : St P B} (h : (sys P B).Reachable s) :
    (heads s).Nodup ∧ (heads s).length ≤ NUM ∧
    (∀ i, i ∈ heads s ↔
      ∃ p c r, (s.pc p).view = .flight c r ∧ r.i0 = i ∧ s.disk c.b = true) ∧
    (∀ p c r, (s.pc p).view = .ready c r → (s.avail.idx - s.seen).toNat < NUM) ∧
    (s.work ≠ [] → (s.used.idx - s.used_idx).toNat < NUM) := by
  have hi := reachable_inv h
  refine ⟨hi.flow.nodup, hi.flow.length_le hi.own, fun i => ⟨hi.flow.flight i, ?_⟩,
    fun p c r hp => hi.flow.room hi.own (.inl hp), fun hw => hi.flow.used_room hi.own (.inl hw)⟩
  rintro ⟨p, c, r, hp, rfl, hd⟩
  exact hi.flow.pending p c r hp hd

theorem rings_exact_overtakeRun :
    ∃ s, (sys Bool Bool).Reachable s ∧ heads s = [3, 0] ∧ (heads s).Nodup := by
  have hexec : (sys Bool Bool).exec boot (overtakeRun.take 21) = some _ := rfl
  have hreach := (System.Reachable.init rfl).exec hexec
  exact ⟨_, hreach, rfl, (rings_exact hreach).1⟩

end Xv6.Virtio
