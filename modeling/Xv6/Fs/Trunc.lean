import Xv6.Fs.Inv

/-!
# Xv6.Fs.Trunc — itrunc

`itrunc` gives back every block of an inode: the direct ones, the entries of the indirect
block, and that block itself. While it runs the inode is neither what it was nor empty,
since the entries of the indirect block are freed and stay where they are. So the loops are
described against the inode as it was before, with a growing set of references that do not
count any more.
-/

namespace Xv6.Fs

open Lib Function

/-- The references `K` of inode `i` have been given back: `bitmap` is the free map of `s`
without their blocks. -/
structure Released (sb : Super) (v : Nat → Dinode) (s : St) (i : Nat) (K : Nat → Prop)
    (bitmap : Nat → Bool) : Prop where
  own : Owned sb.Data bitmap fun x b => Holds v s.block x b ∧ ¬ (x.1 = i ∧ K x.2)
  rest : ∀ b, ¬ sb.Data b → bitmap b = s.bitmap b

/-- The inode without its first `n` slots. -/
def Dinode.clear (d : Dinode) (n : Nat) : Dinode :=
  { d with addrs := fun k => if k < n then 0 else d.addrs k }

/-- The inode without contents. -/
def Dinode.truncated (d : Dinode) : Dinode := { d.clear (NDIRECT + 1) with size := 0 }

section
variable {sb : Super} {v : Nat → Dinode} {s t : St} {E : Stop → Prop} {d : Dinode}
  {blk : Nat → Block} {i k n : Nat} {K J : Nat → Prop} {bitmap : Nat → Bool}

/-! ## Slots that are cleared -/

theorem Dinode.clear_zero : d.clear 0 = d := rfl

theorem Dinode.clear_addrs_self : (d.clear n).addrs n = d.addrs n := if_neg (lt_irrefl n)

theorem Dinode.clear_succ :
    { d.clear n with addrs := update (d.clear n).addrs n 0 } = d.clear (n + 1) := by
  have haddrs : update (d.clear n).addrs n 0 = (d.clear (n + 1)).addrs := by
    funext k
    by_cases hk : k = n
    · rw [hk, update_self]
      exact (if_pos (Nat.lt_succ_self n)).symm
    · have hiff : k < n ↔ k < n + 1 := by omega
      rw [update_of_ne hk]
      simp only [Dinode.clear, hiff]
  rw [haddrs]
  rfl

theorem Dinode.clear_empty (h0 : d.addrs n = 0) : d.clear n = d.clear (n + 1) := by
  rw [← Dinode.clear_succ, ← h0]
  have hself := update_eq_self n (d.clear n).addrs
  rw [Dinode.clear_addrs_self] at hself
  rw [hself]

theorem slot_high (hk : NDIRECT + 1 + NINDIRECT ≤ k) : slot d blk k = 0 := by
  rw [slot, if_neg (by omega), if_pos (.inr (by omega))]

/-! ## References that are given back -/

theorem Released.start (h : Owned sb.Data s.bitmap (Holds v s.block)) :
    Released sb v s i (fun k => k < 0) s.bitmap := by
  refine ⟨h.congr fun x b => ?_, fun _ _ => rfl⟩
  simp

theorem Released.skip (h : Released sb v s i K bitmap) (h0 : slot (v i) s.block k = 0)
    (hK : ∀ m, J m ↔ K m ∨ m = k) : Released sb v s i J bitmap := by
  refine ⟨h.own.congr fun x b => and_congr_right fun hx => ?_, h.rest⟩
  rw [hK]
  constructor
  · rintro hn ⟨hi, hKx⟩
    exact hn ⟨hi, .inl hKx⟩
  · rintro hn ⟨hi, hKx | hk⟩
    · exact hn ⟨hi, hKx⟩
    · -- an empty reference holds nothing
      rcases hx with ⟨-, hs, hb⟩
      rw [hi, hk, h0] at hs
      exact hb hs.symm

/-- The block of a reference is in use, and freeing it gives the reference back. -/
theorem Released.free (h : Released sb v s i K bitmap) (ht : (v i).type ≠ .none) (hk : ¬ K k)
    (h0 : slot (v i) s.block k ≠ 0) (hK : ∀ m, J m ↔ K m ∨ m = k) :
    bitmap (slot (v i) s.block k) = true ∧
      Released sb v s i J (update bitmap (slot (v i) s.block k) false) := by
  have hself : Holds v s.block (i, k) (slot (v i) s.block k) ∧ ¬ (i = i ∧ K k) :=
    ⟨Holds.mk ht h0, fun hc => hk hc.2⟩
  rcases h.own.sound (i, k) _ hself with ⟨hdata, hused⟩
  refine ⟨hused, h.own.give (a := (i, k)) (fun b => ?_) (fun x b => ?_), fun b hb => ?_⟩
  · constructor
    · rintro ⟨⟨-, hs, -⟩, -⟩
      exact hs.symm
    · rintro rfl
      exact hself
  · have hx : x ≠ (i, k) ↔ ¬ (x.1 = i ∧ x.2 = k) := by
      rw [Ne, Prod.ext_iff]
    rw [hx, hK]
    tauto
  · rw [update_of_ne]
    · exact h.rest b hb
    · rintro rfl
      exact hb hdata

/-- With all references of `i` given back, only those of the others count. -/
theorem Released.all (h : Released sb v s i (fun k => k < NDIRECT + 1 + NINDIRECT) bitmap) :
    Owned sb.Data bitmap fun x b => Holds v s.block x b ∧ x.1 ≠ i := by
  refine h.own.congr fun x b => and_congr_right fun hx => not_congr ?_
  refine ⟨fun hi => ⟨hi, ?_⟩, And.left⟩
  by_contra hhigh
  rcases hx with ⟨-, hs, hb⟩
  rw [slot_high (by omega)] at hs
  exact hb hs.symm

/-- The blocks of inode `i` are free, and no others; the inode has become `ip` in the table and
`d` on disk. -/
def Emptied (sb : Super) (v : Nat → Dinode) (s : St) (i : Nat) (ip : Inode) (d : Dinode) (t : St) :
    Prop :=
  ∃ bitmap,
    t = { s with bitmap, inode := update s.inode i ip, dinode := update s.dinode i d } ∧
    Owned sb.Data bitmap (fun x b => Holds v s.block x b ∧ x.1 ≠ i) ∧
    ∀ b, ¬ sb.Data b → bitmap b = s.bitmap b

/-! ## The loops -/

section
variable (hown : Owned sb.Data s.bitmap (Holds v s.block)) (hd : (s.inode i).d = v i)
  (ht : (v i).type ≠ .none)
include ht

section
include hown hd

theorem itruncDirect_spec :
    wp E (itruncDirect i) (fun _ t => ∃ bitmap,
      t = { s with
            bitmap
            inode := update s.inode i { s.inode i with d := (v i).clear NDIRECT } } ∧
      Released sb v s i (fun k => k < NDIRECT) bitmap) s := by
  rw [itruncDirect, List.range_eq_range']
  have hloop := wp_forM_range' (E := E) (f := fun k => do
      let s ← get
      if (s.inode i).d.addrs k ≠ 0 then
        bfree ((s.inode i).d.addrs k)
        setCopy i fun d => { d with addrs := update d.addrs k 0 })
    (fun n t => ∃ bitmap,
      t = { s with
            bitmap
            inode := update s.inode i { s.inode i with d := (v i).clear n } } ∧
      Released sb v s i (fun k => k < n) bitmap)
    0 NDIRECT s ⟨s.bitmap, ?_, Released.start hown⟩ ?_
  · rwa [Nat.zero_add] at hloop
  · rw [Dinode.clear_zero, ← hd, update_eq_self]
  rintro n t - hn ⟨bitmap, rfl, hrel⟩
  have hslot : slot (v i) s.block n = (v i).addrs n := slot_low (by omega)
  have hK : ∀ m, m < n + 1 ↔ m < n ∨ m = n := fun m => by omega
  rw [wp_bind, wp_get]
  simp only [update_self, Dinode.clear_addrs_self]
  refine wp_if (fun h0 => ?_) fun h0 => ?_
  · rw [← hslot] at h0
    rcases hrel.free ht (lt_irrefl n) h0 hK with ⟨hused, hrel'⟩
    rw [hslot] at hused hrel'
    refine wp_call (bfree_spec hused) fun _ u hu => ?_
    subst hu
    rw [wp_setCopy]
    simp only [update_self, update_idem, Dinode.clear_succ]
    exact ⟨_, rfl, hrel'⟩
  · rw [not_not] at h0
    rw [wp_pure, Dinode.clear_empty h0]
    exact ⟨bitmap, rfl, hrel.skip (hslot.trans h0) hK⟩

end

theorem itruncIndirect_spec (h0 : (v i).addrs NDIRECT ≠ 0)
    (hblock : t.block = s.block) (hrel : Released sb v s i (fun k => k < NDIRECT) t.bitmap) :
    wp E (itruncIndirect ((v i).addrs NDIRECT)) (fun _ u => ∃ bitmap,
      u = { t with bitmap } ∧
      Released sb v s i (fun k => k < NDIRECT + 1 + NINDIRECT ∧ k ≠ NDIRECT) bitmap) t := by
  rw [itruncIndirect, List.range_eq_range']
  have hloop := wp_forM_range' (E := E) (f := fun j => do
      let s ← get
      if (s.block ((v i).addrs NDIRECT)).getWord j ≠ 0 then
        bfree ((s.block ((v i).addrs NDIRECT)).getWord j).toNat)
    (fun n u => ∃ bitmap, u = { t with bitmap } ∧
      Released sb v s i (fun k => k < NDIRECT + 1 + n ∧ k ≠ NDIRECT) bitmap)
    0 NINDIRECT t ⟨t.bitmap, rfl, ?_⟩ ?_
  · rwa [Nat.zero_add] at hloop
  · have hK : (fun k => k < NDIRECT) = fun k => k < NDIRECT + 1 + 0 ∧ k ≠ NDIRECT :=
      funext fun k => propext (by omega)
    rwa [← hK]
  rintro j u - hj ⟨bitmap, rfl, hrel⟩
  have hslot := slot_entry (d := v i) (b := s.block) (j := j) (by omega) h0
  have hword : ((s.block ((v i).addrs NDIRECT)).getWord j ≠ 0 ↔
      slot (v i) s.block (NDIRECT + 1 + j) ≠ 0) := by
    rw [hslot, Ne, Ne, ← BitVec.toNat_inj]
    rfl
  have hK : ∀ m, (m < NDIRECT + 1 + (j + 1) ∧ m ≠ NDIRECT) ↔
      (m < NDIRECT + 1 + j ∧ m ≠ NDIRECT) ∨ m = NDIRECT + 1 + j := fun m => by omega
  rw [wp_bind, wp_get]
  simp only [hblock]
  rw [wp_ite, hword]
  refine ⟨fun hne => ?_, fun hz => ?_⟩
  · rcases hrel.free ht (fun hc => lt_irrefl _ hc.1) hne hK with ⟨hused, hrel'⟩
    rw [hslot] at hused hrel'
    refine wp_mono (bfree_spec hused) fun _ u hu => ?_
    subst hu
    exact ⟨_, rfl, hrel'⟩
  · exact wp_ret ⟨bitmap, rfl, hrel.skip (not_not.mp hz) hK⟩

/-! ## itrunc -/

include hown hd

theorem itrunc_spec :
    wp E (itrunc i) (fun _ => Emptied sb v s i { s.inode i with d := (v i).truncated }
      (v i).truncated) s := by
  rw [itrunc]
  refine wp_call (itruncDirect_spec hown hd ht) fun _ t htr => ?_
  rcases htr with ⟨bitmap, rfl, hrel⟩
  have hslot : slot (v i) s.block NDIRECT = (v i).addrs NDIRECT := slot_low le_rfl
  -- what follows the conditional, once nothing is left of the slots
  have htail : ∀ bitmap', Released sb v s i (fun k => k < NDIRECT + 1 + NINDIRECT) bitmap' →
      wp E (do
        setCopy i fun d => { d with size := 0 }
        iupdate i) (fun _ => Emptied sb v s i { s.inode i with d := (v i).truncated } (v i).truncated)
        { s with
          bitmap := bitmap'
          inode := update s.inode i
            { s.inode i with d := (v i).clear (NDIRECT + 1) } } := by
    intro bitmap' hrel'
    rw [wp_bind, wp_setCopy, wp_iupdate]
    simp only [update_self, update_idem]
    exact ⟨bitmap', rfl, hrel'.all, hrel'.rest⟩
  rw [wp_bind, wp_get]
  simp only [update_self, Dinode.clear_addrs_self]
  refine wp_if (fun h0 => ?_) fun h0 => ?_
  · refine wp_call (itruncIndirect_spec (s := s) (t := { s with bitmap, inode := _ })
      ht h0 rfl hrel) fun _ u hu => ?_
    rcases hu with ⟨bitmap', rfl, hrel'⟩
    rw [← hslot] at h0
    rcases hrel'.free (J := fun k => k < NDIRECT + 1 + NINDIRECT) ht (fun hc => hc.2 rfl) h0
      (fun m => by omega) with ⟨hused, hrel''⟩
    rw [hslot] at hused hrel''
    refine wp_call (bfree_spec hused) fun _ u hu => ?_
    subst hu
    rw [wp_bind, wp_setCopy]
    simp only [update_self, update_idem, Dinode.clear_succ]
    exact htail _ hrel''
  · -- without an indirect block there are no entries either
    rw [not_not] at h0
    rw [Dinode.clear_empty h0]
    refine htail bitmap ⟨hrel.own.congr fun x b => and_congr_right fun hx => ?_, hrel.rest⟩
    refine not_congr (and_congr_right fun hi => ⟨fun _ => ?_, fun hk => by omega⟩)
    by_contra hge
    rcases hx with ⟨-, hs, hb⟩
    rw [hi] at hs
    rcases Nat.lt_or_ge NDIRECT x.2 with hlt | hle
    · rw [slot_no_indirect hlt h0] at hs
      exact hb hs.symm
    · have hk : x.2 = NDIRECT := by omega
      rw [hk, hslot, h0] at hs
      exact hb hs.symm

/-- `iput` frees the inode with its blocks. -/
theorem ifree_spec :
    wp E (ifree i) (fun _ => Emptied sb v s i
      { s.inode i with valid := false, locked := false,
                       d := { (v i).truncated with type := .none } }
      { (v i).truncated with type := .none }) s := by
  rw [ifree]
  refine wp_call (itrunc_spec hown hd ht) fun _ t htr => ?_
  rcases htr with ⟨bitmap, rfl, hrest⟩
  rw [wp_bind, wp_setCopy, wp_bind, wp_iupdate, wp_setInode]
  simp only [update_self, update_idem]
  exact ⟨bitmap, rfl, hrest⟩

end

end

end Xv6.Fs
