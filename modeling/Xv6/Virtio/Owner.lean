import Xv6.Lib.Owners
import Xv6.Virtio.Basic

/-!
# Xv6.Virtio.Owner — who has a descriptor

A descriptor belongs to the call that allocated it, from `alloc_desc` to `free_desc`
(`Pc.descs`), and `free` marks those that belong to nobody (`Own`). What stands in the
descriptors of a call, and in the header and the `info` of its first one, is written by that
call alone (`Mem`), except for the status byte.
-/

namespace Xv6.Virtio

open Lib Function List

variable {P B : Type}

/-! ## What a place says -/

def Idx.list (r : Idx) : List Nat := [r.i0, r.i1, r.i2]

/-- The descriptors of a chain from `i` on. -/
def Idx.rest (r : Idx) (i : Nat) : List Nat :=
  if i = r.i0 then r.list else if i = r.i1 then [r.i1, r.i2] else if i = r.i2 then [r.i2] else []

/-- The descriptors that a call has. -/
def Pc.descs : Pc B → List Nat
  | .alloc _ l | .undo _ l => l
  | .format _ r | .ring _ r | .notify _ r | .wait _ r | .sleepBuf _ r | .clear _ r => r.list
  | .chain _ r i => r.rest i
  | .out | .acquire _ | .sleepFree _ | .release _ => []

def Pc.call : Pc B → Option (Call B)
  | .acquire c | .alloc c _ | .undo c _ | .sleepFree c | .format c _ | .ring c _ | .notify c _
  | .wait c _ | .sleepBuf c _ | .clear c _ | .chain c _ _ | .release c => some c
  | .out => none

/-- The places at which `vdisk_lock` is held. -/
def Pc.locked : Pc B → Bool
  | .out | .acquire _ | .sleepFree _ | .sleepBuf .. => false
  | _ => true

/-! ## Owners -/

/-- `(p, i)` refers to descriptor `i` on behalf of `p`. -/
def Refers (s : St P B) (x : P × Nat) (i : Nat) : Prop :=
  x.2 = i ∧ i ∈ (s.pc x.1).descs

structure Own (s : St P B) : Prop where
  lock : ∀ p, (s.pc p).locked = true → s.vdisk_lock = some (.call p)
  owner : ∀ p c, (s.pc p).call = some c → s.owner c.b = some p
  descs : Owned (· < NUM) (fun i => !s.free i) (Refers s)
  nodup : ∀ p, (s.pc p).descs.Nodup

variable {pc : Pc B} {c : Call B}

section
variable {s t : St P B} {p q : P} {i : Nat}

section
variable (h : Own s)
include h

theorem Own.lt (hi : i ∈ (s.pc p).descs) : i < NUM :=
  (h.descs.sound (p, i) i ⟨rfl, hi⟩).1

theorem Own.not_free (hi : i ∈ (s.pc p).descs) : s.free i = false := by
  simpa using (h.descs.sound (p, i) i ⟨rfl, hi⟩).2

/-- A descriptor has one owner. -/
theorem Own.inj (hp : i ∈ (s.pc p).descs) (hq : i ∈ (s.pc q).descs) : p = q :=
  congrArg Prod.fst (h.descs.unique (p, i) (q, i) i ⟨rfl, hp⟩ ⟨rfl, hq⟩)

theorem Own.free_iff (hi : i < NUM) :
    s.free i = true ↔ ∀ p, i ∉ (s.pc p).descs := by
  constructor
  · intro hfree p hp
    rw [h.not_free hp] at hfree
    cases hfree
  · intro hnone
    by_contra hused
    rcases h.descs.complete i hi (by simpa using hused) with ⟨x, hx⟩
    exact hnone x.1 hx.2

/-- One call is under the lock. -/
theorem Own.locked_eq (hp : (s.pc p).locked = true) (hq : (s.pc q).locked = true) :
    q = p := by
  have heq := (h.lock q hq).symm.trans (h.lock p hp)
  simpa using heq

/-- A buffer is in one call. -/
theorem Own.call_inj {d : Call B} (hp : (s.pc p).call = some c) (hq : (s.pc q).call = some d)
    (hb : c.b = d.b) : p = q := by
  have hp' := h.owner p c hp
  rw [hb, h.owner q d hq] at hp'
  exact (Option.some.inj hp').symm

/-- A step that moves no call. -/
theorem Own.still (hpc : t.pc = s.pc) (hfree : t.free = s.free) (howner : t.owner = s.owner)
    (hlock : ∀ q, (s.pc q).locked = true → t.vdisk_lock = some (.call q)) : Own t := by
  refine ⟨by rwa [hpc], by rw [hpc, howner]; exact h.owner, ?_, by rw [hpc]; exact h.nodup⟩
  rw [hfree]
  apply h.descs.congr
  intro x i
  show _ ∧ i ∈ (t.pc x.1).descs ↔ _
  rw [hpc]
  rfl

end

variable [DecidableEq P] (h : Own s) (hpc : t.pc = update s.pc p pc)
include h hpc

theorem Own.owner_update (hcall : ∀ c, pc.call = some c → s.owner c.b = some p)
    (howner : t.owner = s.owner) (q : P) (c : Call B) (hq : (t.pc q).call = some c) :
    t.owner c.b = some q := by
  rw [howner]
  by_cases hqp : q = p
  · rw [hpc, hqp, update_self] at hq
    rw [hqp]
    exact hcall c hq
  · rw [hpc, update_of_ne hqp] at hq
    exact h.owner q c hq

/-- A call goes on with the descriptors it has. -/
theorem Own.move (hdescs : pc.descs = (s.pc p).descs)
    (hcall : ∀ c, pc.call = some c → s.owner c.b = some p) (hfree : t.free = s.free)
    (howner : t.owner = s.owner)
    (hlock : ∀ q, (t.pc q).locked = true → t.vdisk_lock = some (.call q)) : Own t := by
  have hsame : ∀ q, (t.pc q).descs = (s.pc q).descs := by
    rw [hpc]
    exact update_field Pc.descs hdescs
  refine ⟨hlock, h.owner_update hpc hcall howner, ?_, ?_⟩
  · rw [hfree]
    apply h.descs.congr
    rintro ⟨q, j⟩ i
    show _ ∧ i ∈ (t.pc q).descs ↔ _
    rw [hsame q]
    rfl
  · intro q
    rw [hsame q]
    exact h.nodup q

/-- A call under the lock that keeps it. -/
theorem Own.keeps_lock (hp : (s.pc p).locked = true) (hlock : t.vdisk_lock = s.vdisk_lock) (q : P)
    (hq : (t.pc q).locked = true) :
    t.vdisk_lock = some (.call q) := by
  rw [hlock]
  by_cases hqp : q = p
  · rw [hqp]
    exact h.lock p hp
  · rw [hpc, update_of_ne hqp] at hq
    exact h.lock q hq

/-- A call that puts the lock down. -/
theorem Own.drops_lock (hp : (s.pc p).locked = true) (hout : pc.locked = false) (q : P)
    (hq : (t.pc q).locked = true) :
    t.vdisk_lock = some (.call q) := by
  by_cases hqp : q = p
  · rw [hpc, hqp, update_self, hout] at hq
    cases hq
  · rw [hpc, update_of_ne hqp] at hq
    exact absurd (h.locked_eq hp hq) hqp

/-- A call that takes the lock while it is free. -/
theorem Own.takes_lock (hfree : s.vdisk_lock = none) (hlock : t.vdisk_lock = some (.call p)) (q : P)
    (hq : (t.pc q).locked = true) :
    t.vdisk_lock = some (.call q) := by
  by_cases hqp : q = p
  · rw [hqp]
    exact hlock
  · rw [hpc, update_of_ne hqp] at hq
    have := h.lock q hq
    rw [hfree] at this
    cases this

variable (hcall : ∀ c, pc.call = some c → s.owner c.b = some p) (howner : t.owner = s.owner)
  (hlock : ∀ q, (t.pc q).locked = true → t.vdisk_lock = some (.call q))
include hcall howner hlock

/-- A call takes the free descriptor `i`. -/
theorem Own.take (hi : i < NUM) (hunused : s.free i = true)
    (hdescs : pc.descs = (s.pc p).descs ++ [i]) (hfree : t.free = update s.free i false) :
    Own t := by
  obtain ⟨hself, hother⟩ := eq_update_iff.mp hpc
  have hnew := (h.free_iff hi).mp hunused
  refine ⟨hlock, h.owner_update hpc hcall howner, ?_, ?_⟩
  · have hused : (fun j => !t.free j) = update (fun j => !s.free j) i true := by
      rw [hfree]
      exact funext (apply_update (fun _ b => !b) s.free i _)
    rw [hused]
    refine h.descs.take (a := (p, i)) hi (by rw [hunused]; rfl) ?_
    rintro ⟨q, j⟩ k
    unfold Refers
    by_cases hqp : q = p
    · subst hqp
      simp only [hself, hdescs, mem_append, mem_singleton, Prod.mk.injEq, true_and]
      constructor
      · rintro ⟨rfl, hk | hk⟩
        · exact .inl ⟨rfl, hk⟩
        · exact .inr ⟨hk, hk⟩
      · rintro (⟨rfl, hk⟩ | ⟨rfl, rfl⟩)
        · exact ⟨rfl, .inl hk⟩
        · exact ⟨rfl, .inr rfl⟩
    · simp [hother q hqp, hqp]
  · intro q
    by_cases hqp : q = p
    · rw [hqp, hself, hdescs]
      refine (h.nodup p).append (nodup_singleton i) ?_
      intro j hj hji
      rw [mem_singleton.mp hji] at hj
      exact hnew p hj
    · rw [hother q hqp]
      exact h.nodup q

/-- A call gives back its first descriptor. -/
theorem Own.give (hdescs : (s.pc p).descs = i :: pc.descs) (hfree : t.free = update s.free i true) :
    Own t := by
  obtain ⟨hself, hother⟩ := eq_update_iff.mp hpc
  have hnd := h.nodup p
  rw [hdescs, nodup_cons] at hnd
  refine ⟨hlock, h.owner_update hpc hcall howner, ?_, ?_⟩
  · have hused : (fun j => !t.free j) = update (fun j => !s.free j) i false := by
      rw [hfree]
      exact funext (apply_update (fun _ b => !b) s.free i _)
    rw [hused]
    refine h.descs.give (a := (p, i)) ?_ ?_
    · intro k
      unfold Refers
      rw [hdescs]
      constructor
      · exact fun hk => hk.1.symm
      · rintro rfl
        exact ⟨rfl, mem_cons_self⟩
    · rintro ⟨q, j⟩ k
      unfold Refers
      by_cases hqp : q = p
      · subst hqp
        simp only [hself, hdescs, mem_cons, ne_eq, Prod.mk.injEq, true_and]
        constructor
        · rintro ⟨rfl, hk⟩
          exact ⟨⟨rfl, .inr hk⟩, fun e => hnd.1 (e ▸ hk)⟩
        · rintro ⟨⟨rfl, rfl | hk⟩, hne⟩
          · exact absurd rfl hne
          · exact ⟨rfl, hk⟩
      · simp [hother q hqp, hqp]
  · intro q
    by_cases hqp : q = p
    · rw [hqp, hself]
      exact hnd.2
    · rw [hother q hqp]
      exact h.nodup q

end

/-! ## What stands in a call's descriptors -/

/-- The chain of a request, its header and its buffer. -/
structure Formatted (s : St P B) (c : Call B) (r : Idx) : Prop where
  desc0 : s.desc r.i0 = r.desc0
  desc1 : s.desc r.i1 = r.desc1 c
  desc2 : s.desc r.i2 = r.desc2
  req : s.ops r.i0 = c.req
  buf : (s.info r.i0).b = some c.b

/-- What is left of the chain while `free_chain` is at `i`. -/
structure Chained (s : St P B) (c : Call B) (r : Idx) (i : Nat) : Prop where
  nodup : r.list.Nodup
  mem : i ∈ r.list
  desc0 : i = r.i0 → s.desc r.i0 = r.desc0
  desc1 : i ≠ r.i2 → s.desc r.i1 = r.desc1 c
  desc2 : s.desc r.i2 = r.desc2

def Shaped (s : St P B) : Pc B → Prop
  | .ring c r | .notify c r | .wait c r | .sleepBuf c r | .clear c r => Formatted s c r
  | .chain c r i => Chained s c r i
  | _ => True

def Mem (s : St P B) : Prop :=
  ∀ p, Shaped s (s.pc p)

section
variable {s t : St P B} {p q : P}

/-- The memory of the descriptors in `l` is the same in `s` and `t`. -/
def SameAt (s t : St P B) (l : List Nat) : Prop :=
  ∀ i ∈ l, t.desc i = s.desc i ∧ t.ops i = s.ops i ∧ (t.info i).b = (s.info i).b

theorem SameAt.of_eq (hdesc : t.desc = s.desc) (hops : t.ops = s.ops)
    (hbuf : ∀ i, (t.info i).b = (s.info i).b) (l : List Nat) : SameAt s t l :=
  fun i _ => ⟨congrFun hdesc i, congrFun hops i, hbuf i⟩

variable {r : Idx}

theorem Formatted.congr (h : Formatted s c r) (hsame : SameAt s t r.list) :
    Formatted t c r := by
  have h0 := hsame r.i0 (by simp [Idx.list])
  have h1 := hsame r.i1 (by simp [Idx.list])
  have h2 := hsame r.i2 (by simp [Idx.list])
  exact ⟨h0.1.trans h.desc0, h1.1.trans h.desc1, h2.1.trans h.desc2, h0.2.1.trans h.req,
    h0.2.2.trans h.buf⟩

variable {i : Nat}

/-- The descriptors from `i` on. -/
theorem Idx.mem_rest (h : i ∈ r.list) :
    (i = r.i0 → r.i0 ∈ r.rest i) ∧ (i ≠ r.i2 → r.i1 ∈ r.rest i) ∧ r.i2 ∈ r.rest i := by
  simp only [Idx.list, mem_cons, not_mem_nil, or_false] at h
  unfold Idx.rest Idx.list
  refine ⟨fun e => by simp [e], fun hne => ?_, ?_⟩
  · rcases h with h | h | h
    · simp [h]
    · split <;> simp
    · exact absurd h hne
  · split
    · simp
    · split
      · simp
      · rcases h with h | h | h <;> simp_all

theorem Shaped.congr (h : Shaped s pc) (hsame : SameAt s t pc.descs) :
    Shaped t pc := by
  cases pc with
  | ring c r | notify c r | wait c r | sleepBuf c r | clear c r => exact Formatted.congr h hsame
  | chain c r i =>
    rcases Idx.mem_rest h.mem with ⟨h0, h1, h2⟩
    exact ⟨h.nodup, h.mem, fun e => (hsame _ (h0 e)).1.trans (h.desc0 e),
      fun e => (hsame _ (h1 e)).1.trans (h.desc1 e), (hsame _ h2).1.trans h.desc2⟩
  | out | acquire | alloc | undo | sleepFree | format | release => trivial

theorem Idx.desc0_hasNext (r : Idx) : (r.desc0 : Desc B).hasNext = true := by
  show (VRING_DESC_F_NEXT &&& VRING_DESC_F_NEXT != 0) = true
  decide

theorem Idx.desc1_hasNext (r : Idx) (c : Call B) : (r.desc1 c).hasNext = true := by
  show (((if c.write then 0 else VRING_DESC_F_WRITE) ||| VRING_DESC_F_NEXT) &&& VRING_DESC_F_NEXT
    != 0) = true
  cases c.write <;> decide

theorem Idx.desc2_hasNext (r : Idx) : (r.desc2 : Desc B).hasNext = false := by
  show (VRING_DESC_F_WRITE &&& VRING_DESC_F_NEXT != 0) = false
  decide

/-- `free_chain` follows the chain to its end. -/
theorem Chained.next (h : Chained s c r i) (hdesc : t.desc = update s.desc i Desc.zero) :
    ((s.desc i).hasNext = true ∧ r.rest i = i :: r.rest (s.desc i).next ∧
      Chained t c r (s.desc i).next) ∨
    ((s.desc i).hasNext = false ∧ r.rest i = [i]) := by
  have hnd := h.nodup
  have hmem := h.mem
  simp only [Idx.list, nodup_cons, mem_cons, not_mem_nil, or_false, not_or,
    not_false_eq_true, nodup_nil, and_true] at hnd hmem
  rcases hnd with ⟨⟨h01, h02⟩, h12⟩
  have hother : ∀ j ≠ i, t.desc j = s.desc j := fun j hj => by
    rw [hdesc, update_of_ne hj]
  rcases hmem with rfl | rfl | rfl
  · left
    have hd := h.desc0 rfl
    have hnext : (s.desc r.i0).next = r.i1 := by rw [hd]; rfl
    rw [hnext]
    refine ⟨by rw [hd, r.desc0_hasNext], by simp [Idx.rest, Idx.list, Ne.symm h01], h.nodup,
      by simp [Idx.list], fun e => absurd e.symm h01, fun _ => ?_, ?_⟩
    · rw [hother _ (Ne.symm h01)]
      exact h.desc1 h02
    · rw [hother _ (Ne.symm h02)]
      exact h.desc2
  · left
    have hd := h.desc1 h12
    have hnext : (s.desc r.i1).next = r.i2 := by rw [hd]; rfl
    rw [hnext]
    refine ⟨by rw [hd, r.desc1_hasNext], by simp [Idx.rest, Ne.symm h01, Ne.symm h02, Ne.symm h12],
      h.nodup, by simp [Idx.list], fun e => absurd e.symm h02, fun e => absurd rfl e, ?_⟩
    rw [hother _ (Ne.symm h12)]
    exact h.desc2
  · right
    refine ⟨by rw [h.desc2, r.desc2_hasNext], by simp [Idx.rest, Ne.symm h02, Ne.symm h12]⟩

/-- Another call's descriptors are other descriptors. -/
theorem Own.apart (h : Own s) {j : Nat} (hi : i ∈ (s.pc p).descs) (hj : j ∈ (s.pc q).descs)
    (hne : q ≠ p) : j ≠ i :=
  fun e => hne (h.inj hj (e ▸ hi))

theorem Mem.still (h : Mem s) (hpc : t.pc = s.pc) (hdesc : t.desc = s.desc) (hops : t.ops = s.ops)
    (hbuf : ∀ i, (t.info i).b = (s.info i).b) : Mem t := by
  intro q
  rw [hpc]
  exact (h q).congr (.of_eq hdesc hops hbuf _)

/-- A call writes to its own descriptors. -/
theorem Mem.update [DecidableEq P] (h : Mem s) (hpc : t.pc = update s.pc p pc) (hp : Shaped t pc)
    (hother : ∀ q ≠ p, SameAt s t (s.pc q).descs) : Mem t := by
  intro q
  rw [hpc]
  by_cases hq : q = p
  · rw [hq, update_self]
    exact hp
  · rw [update_of_ne hq]
    exact (h q).congr (hother q hq)

/-- A call writes to nothing. -/
theorem Mem.move [DecidableEq P] (h : Mem s) (hpc : t.pc = Function.update s.pc p pc)
    (hp : Shaped s pc) (hdesc : t.desc = s.desc) (hops : t.ops = s.ops)
    (hbuf : ∀ i, (t.info i).b = (s.info i).b) : Mem t :=
  h.update hpc (hp.congr (.of_eq hdesc hops hbuf _)) fun _ _ => .of_eq hdesc hops hbuf _

/-- The device reads the request that the call has written. -/
theorem Formatted.readChain_eq (h : Formatted s c r) :
    readChain s r.i0 = some (c, r.i0) := by
  have hwrite : (c.req.type == VIRTIO_BLK_T_OUT) = c.write := by
    unfold Call.req
    cases c.write <;> rfl
  simp only [readChain, h.desc0, h.desc1, h.desc2, Idx.desc0, Idx.desc1, Idx.desc2, h.req, hwrite,
    and_self, if_true]
  rfl

end

end Xv6.Virtio
