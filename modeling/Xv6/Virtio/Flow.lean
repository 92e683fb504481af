import Mathlib.Data.List.Perm.Subperm
import Xv6.Virtio.Owner

/-!
# Xv6.Virtio.Flow — the way of a request to the device and back

The head of a chain that was handed to the device is at one place at a time: in the avail
ring, with the device, or in the used ring (`heads`). It is there exactly while its call
waits with `b->disk` set (`Flow.flight`, `Flow.pending`), so the rings never hold more than
`NUM` heads and no entry is overwritten before it is read, however often the indices wrap.
-/

namespace Xv6.Virtio

open Lib Function List

variable {P B : Type}

/-! ## Places of a request -/

/-- What a place says about the request of a call. -/
inductive View (B : Type) where
  | none
  | ready (c : Call B) (r : Idx)
  | armed (c : Call B) (r : Idx)
  | flight (c : Call B) (r : Idx)
  | over (c : Call B)

def Pc.view : Pc B → View B
  | .ring c r => .ready c r
  | .notify c r => .armed c r
  | .wait c r | .sleepBuf c r => .flight c r
  | .clear c _ | .chain c _ _ | .release c => .over c
  | .out | .acquire _ | .alloc .. | .undo .. | .sleepFree _ | .format .. => .none

/-- The heads the device has not taken yet. -/
def availQ (s : St P B) : List Nat := queue NUM s.avail.ring s.seen s.avail.idx

/-- The entries the interrupt has not seen yet. -/
def usedQ (s : St P B) : List UsedElem := queue NUM s.used.ring s.used_idx s.used.idx

/-- The heads of all chains that the device has or had and the interrupt has not seen. -/
def heads (s : St P B) : List Nat :=
  availQ s ++ (s.work.map Work.id ++ (s.pushing.toList ++ usedQ s).map UsedElem.id)

/-- The device has carried out the request at `e.id`. -/
def Done (s : St P B) (e : UsedElem) : Prop :=
  ⟨e.id, some e.uid⟩ ∈ s.work ∨ e ∈ s.pushing.toList ++ usedQ s

/-- The device has carried out the call, and the interrupt has released its buffer. -/
def Complete (s : St P B) (c : Call B) : Prop :=
  c ∈ s.finished ∧ (c.uid, c.b) ∈ s.cleared

structure Flow (s : St P B) : Prop where
  ready : ∀ p c r, (s.pc p).view = .ready c r ∨ (s.pc p).view = .armed c r → s.disk c.b = true
  cell : ∀ p c r, (s.pc p).view = .armed c r → s.avail.ring (s.avail.idx.toNat % NUM) = r.i0
  nodup : (heads s).Nodup
  flight : ∀ i ∈ heads s, ∃ p c r, (s.pc p).view = .flight c r ∧ r.i0 = i ∧ s.disk c.b = true
  pending : ∀ p c r, (s.pc p).view = .flight c r → s.disk c.b = true → r.i0 ∈ heads s
  done : ∀ e, Done s e → (s.info e.id).status = 0 ∧
    ∃ p c r, (s.pc p).view = .flight c r ∧ r.i0 = e.id ∧ c.uid = e.uid ∧ c ∈ s.finished
  complete : ∀ p c, ((s.pc p).view = .over c ∨
    ∃ r, (s.pc p).view = .flight c r ∧ s.disk c.b = false) → Complete s c
  pushed : ∀ e, s.pushing = some e → s.used.ring (s.used.idx.toNat % NUM) = e
  entry : ∀ e, s.intr = .entry e → s.used_idx ≠ s.used.idx ∧
    s.used.ring (s.used_idx.toNat % NUM) = e
  cleared : ∀ x ∈ s.cleared, ∃ c ∈ s.finished, c.uid = x.1 ∧ c.b = x.2
  returned : ∀ c ∈ s.returned, Complete s c

section
variable {s t : St P B} {p q : P} {i : Nat} {c : Call B} {r : Idx} {pc : Pc B}

theorem Pc.mem_descs_of_view
    (h : pc.view = .ready c r ∨ pc.view = .armed c r ∨ pc.view = .flight c r) :
    r.i0 ∈ pc.descs := by
  cases pc <;> simp_all [Pc.view, Pc.descs, Idx.list]

theorem Pc.call_of_view (h : pc.view = .ready c r ∨ pc.view = .armed c r ∨ pc.view = .flight c r) :
    pc.call = some c := by
  cases pc <;> simp_all [Pc.view, Pc.call]

theorem Pc.locked_of_armed (h : pc.view = .armed c r) : pc.locked = true := by
  cases pc <;> first | rfl | cases h

/-- A call that waits is the only one with its head. -/
theorem Own.flight_eq (h : Own s) (hi : i ∈ (s.pc p).descs) (hq : (s.pc q).view = .flight c r)
    (heq : r.i0 = i) : q = p :=
  h.inj (Pc.mem_descs_of_view (.inr (.inr hq))) (heq ▸ hi)

theorem Flow.mem_lt (h : Flow s) (ho : Own s) (hi : i ∈ heads s) : i < NUM := by
  rcases h.flight i hi with ⟨p, c, r, hp, rfl, -⟩
  exact ho.lt (Pc.mem_descs_of_view (.inr (.inr hp)))

/-- The descriptors of a call that does not wait are not with the device. -/
theorem Flow.not_head (h : Flow s) (ho : Own s) (hi : i ∈ (s.pc p).descs)
    (hp : ∀ c r, (s.pc p).view ≠ .flight c r) : i ∉ heads s := by
  intro hhead
  rcases h.flight i hhead with ⟨q, c, r, hq, heq, -⟩
  rw [ho.flight_eq hi hq heq] at hq
  exact hp c r hq

theorem Done.mem_heads {e : UsedElem} (h : Done s e) : e.id ∈ heads s := by
  unfold heads
  rcases h with h | h
  · exact mem_append_right _ (mem_append_left _ (mem_map.mpr ⟨_, h, rfl⟩))
  · exact mem_append_right _ (mem_append_right _ (mem_map.mpr ⟨_, h, rfl⟩))

/-- Different descriptors number at most `NUM`. -/
theorem length_le_NUM {l : List Nat} (hnd : l.Nodup) (hlt : ∀ i ∈ l, i < NUM) : l.length ≤ NUM := by
  have hsub : l ⊆ List.range NUM := fun i hi => mem_range.mpr (hlt i hi)
  simpa using (hnd.subperm hsub).length_le

theorem Flow.length_le (h : Flow s) (ho : Own s) : (heads s).length ≤ NUM :=
  length_le_NUM h.nodup fun _ => h.mem_lt ho

/-- While a call is about to enter the avail ring there is room in it. -/
theorem Flow.room (h : Flow s) (ho : Own s)
    (hp : (s.pc p).view = .ready c r ∨ (s.pc p).view = .armed c r) :
    (s.avail.idx - s.seen).toNat < NUM := by
  have hmem : r.i0 ∈ (s.pc p).descs := Pc.mem_descs_of_view (hp.imp_right .inl)
  have hnew : r.i0 ∉ heads s := by
    refine h.not_head ho hmem fun c' r' hf => ?_
    rcases hp with hp | hp <;> rw [hp] at hf <;> cases hf
  have hle : (r.i0 :: heads s).length ≤ NUM := by
    refine length_le_NUM (nodup_cons.mpr ⟨hnew, h.nodup⟩) ?_
    intro i hi
    rcases mem_cons.mp hi with rfl | hi
    · exact ho.lt hmem
    · exact h.mem_lt ho hi
  have hlen : (availQ s).length ≤ (heads s).length := by
    unfold heads
    rw [length_append]
    exact Nat.le_add_right _ _
  rw [availQ, length_queue] at hlen
  rw [length_cons] at hle
  omega

/-- While the device has something to announce there is room in the used ring. -/
theorem Flow.used_room (h : Flow s) (ho : Own s) (hw : s.work ≠ [] ∨ s.pushing ≠ none) :
    (s.used.idx - s.used_idx).toNat < NUM := by
  have hle := h.length_le ho
  unfold heads at hle
  rw [length_append, length_append, length_map, length_map, length_append,
    usedQ, length_queue] at hle
  rcases hw with hw | hw
  · have := length_pos_of_ne_nil hw
    omega
  · rcases Option.ne_none_iff_exists'.mp hw with ⟨e, he⟩
    rw [he, Option.toList_some, length_singleton] at hle
    omega

/-! ## Steps that leave every request in flight -/

/-- The same calls wait for the same heads. -/
theorem Flow.carry (h : Flow s)
    (hflight : ∀ q c r, (t.pc q).view = .flight c r ↔ (s.pc q).view = .flight c r)
    (hover : ∀ q c, (t.pc q).view = .over c → (s.pc q).view = .over c)
    (hdisk : ∀ q c r, (s.pc q).view = .flight c r → t.disk c.b = s.disk c.b)
    (hheads : (heads t).Perm (heads s)) (hdone : ∀ e, Done t e → (t.info e.id).status = 0 ∧
      ∃ p c r, (s.pc p).view = .flight c r ∧ r.i0 = e.id ∧ c.uid = e.uid ∧ c ∈ t.finished)
    (hfin : ∀ c ∈ s.finished, c ∈ t.finished) (hcl : t.cleared = s.cleared)
    (hret : ∀ c ∈ t.returned, Complete s c)
    (hready : ∀ p c r, (t.pc p).view = .ready c r ∨ (t.pc p).view = .armed c r →
      t.disk c.b = true) (hcell : ∀ p c r, (t.pc p).view = .armed c r →
      t.avail.ring (t.avail.idx.toNat % NUM) = r.i0)
    (hpushed : ∀ e, t.pushing = some e → t.used.ring (t.used.idx.toNat % NUM) = e)
    (hentry : ∀ e, t.intr = .entry e → t.used_idx ≠ t.used.idx ∧
      t.used.ring (t.used_idx.toNat % NUM) = e) : Flow t := by
  have hcomplete : ∀ c, Complete s c → Complete t c := fun c hc => ⟨hfin c hc.1, hcl ▸ hc.2⟩
  refine ⟨hready, hcell, hheads.nodup_iff.mpr h.nodup, ?_, ?_, ?_, ?_, hpushed, hentry, ?_,
    fun c hc => hcomplete c (hret c hc)⟩
  · intro i hi
    rcases h.flight i (hheads.mem_iff.mp hi) with ⟨p, c, r, hp, hr, hd⟩
    exact ⟨p, c, r, (hflight p c r).mpr hp, hr, (hdisk p c r hp).trans hd⟩
  · intro p c r hp hd
    have hp' := (hflight p c r).mp hp
    exact hheads.mem_iff.mpr (h.pending p c r hp' ((hdisk p c r hp').symm.trans hd))
  · intro e he
    rcases hdone e he with ⟨hst, p, c, r, hp, hrest⟩
    exact ⟨hst, p, c, r, (hflight p c r).mpr hp, hrest⟩
  · rintro p c (hp | ⟨r, hp, hd⟩)
    · exact hcomplete c (h.complete p c (.inl (hover p c hp)))
    · have hp' := (hflight p c r).mp hp
      exact hcomplete c (h.complete p c (.inr ⟨r, hp', (hdisk p c r hp').symm.trans hd⟩))
  · intro x hx
    rw [hcl] at hx
    rcases h.cleared x hx with ⟨c, hc, hrest⟩
    exact ⟨c, hfin c hc, hrest⟩

/-- Nothing new is done, and the status bytes of the chains in flight are as they were. -/
theorem Flow.done_same (h : Flow s) (hdone : ∀ e, Done t e → Done s e)
    (hstatus : ∀ i ∈ heads s, (t.info i).status = (s.info i).status)
    (hfin : ∀ c ∈ s.finished, c ∈ t.finished) (e : UsedElem) (he : Done t e) :
    (t.info e.id).status = 0 ∧
      ∃ p c r, (s.pc p).view = .flight c r ∧ r.i0 = e.id ∧ c.uid = e.uid ∧ c ∈ t.finished := by
  have hs := hdone e he
  rcases h.done e hs with ⟨hst, p, c, r, hp, hr, hu, hf⟩
  exact ⟨(hstatus _ hs.mem_heads).trans hst, p, c, r, hp, hr, hu, hfin c hf⟩

/-- A call that does not wait may leave the picture. -/
def View.Follows (w v : View B) : Prop :=
  w = v ∨ (w = .none ∧ ∀ c r, v ≠ .flight c r)

variable {v : View B}

theorem View.Follows.flight {w : View B} (h : w.Follows v) (c : Call B) (r : Idx) :
    w = .flight c r ↔ v = .flight c r := by
  rcases h with rfl | ⟨rfl, hv⟩
  · rfl
  · exact iff_of_false nofun (hv c r)

theorem View.Follows.same {w u : View B} (h : w.Follows v) (hu : u ≠ .none) (hw : w = u) :
    v = u := by
  rcases h with rfl | ⟨rfl, -⟩
  · exact hw
  · exact absurd hw.symm hu

/-- No request moves. -/
theorem Flow.quiet (h : Flow s) {pcs : P → Pc B} {desc : Nat → Desc B} {free : Nat → Bool}
    {info : Nat → Info B} {lock : Option (Ctx P)} {owner : B → Option P} {x y : BitVec 64}
    {chan : P → Option (Chan B)} {calls z : List (Call B)}
    (hview : ∀ q, (pcs q).view.Follows (s.pc q).view)
    (hstatus : ∀ i, (info i).status = (s.info i).status) (hret : ∀ c ∈ z, Complete s c) :
    Flow { s with
      pc := pcs, desc, free, info, vdisk_lock := lock, owner, read_disk_counter := x
      write_disk_counter := y, chan, calls, returned := z } :=
  h.carry (fun q => (hview q).flight) (fun q _ => (hview q).same nofun) (fun _ _ _ _ => rfl)
    (.refl _) (h.done_same (fun _ => id) (fun i _ => hstatus i) fun _ => id) (fun _ => id) rfl hret
    (fun p c r hp => h.ready p c r (hp.imp ((hview p).same nofun) ((hview p).same nofun)))
    (fun p c r hp => h.cell p c r ((hview p).same nofun hp)) h.pushed h.entry

section Calls

variable [DecidableEq P] {pc : Pc B}

theorem view_follows (hv : pc.view.Follows (s.pc p).view) (q : P) :
    (update s.pc p pc q).view.Follows (s.pc q).view := by
  by_cases hq : q = p
  · rw [hq, update_self]
    exact hv
  · rw [update_of_ne hq]
    exact .inl rfl

/-- A view that neither the old nor the new place of `p` has. -/
theorem view_iff (hpc : t.pc = update s.pc p pc) (hs : (s.pc p).view ≠ v) (ht : pc.view ≠ v)
    (q : P) : (t.pc q).view = v ↔ (s.pc q).view = v := by
  rw [hpc]
  by_cases hq : q = p
  · rw [hq, update_self]
    exact iff_of_false ht hs
  · rw [update_of_ne hq]

/-- A view that the new place of `p` does not have. -/
theorem view_old (hpc : t.pc = update s.pc p pc) (ht : pc.view ≠ v) {q : P}
    (hq : (t.pc q).view = v) : q ≠ p ∧ (s.pc q).view = v := by
  rw [hpc] at hq
  by_cases hqp : q = p
  · rw [hqp, update_self] at hq
    exact absurd hq ht
  · rw [update_of_ne hqp] at hq
    exact ⟨hqp, hq⟩

end Calls

end

end Xv6.Virtio
