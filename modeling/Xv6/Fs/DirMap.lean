import Xv6.Lib.System
import Xv6.Fs.Dir

/-!
# Xv6.Fs.DirMap — runs of dirlink and of the clearing of entries

A locked directory that is changed by `dirlink` and by the clearing of an entry in `sys_unlink`,
in any order. Names are compared as `namecmp` compares them.
-/

namespace Xv6.Fs

open Lib Function List

inductive DirAct
  | link (name : Nat → Byte) (inum : Nat)
  | clear (name : Nat → Byte)

/-- `dirlink`, and the part of `sys_unlink` that clears the entry that `dirlookup` reports. -/
def DirAct.run (sb : Super) (dp : Nat) : DirAct → F Unit
  | .link name inum => do
    let _ ← dirlink sb dp (cut name) inum
  | .clear name => do
    match ← dirlookup sb dp (cut name) with
    | none => return
    | some (ip, off) =>
      let _ ← writeDirent sb dp off fun _ => 0
      iput ip

/-- A directory, locked, in which no two entries in use have one name. -/
def IsMap (sb : Super) (dp : Nat) (s : St) : Prop :=
  ∃ v bytes, IsDir sb v s dp bytes ∧ Locked v s dp ∧ (entries bytes).Distinct

/-- Inode numbers have 16 bits, and 0 is none. -/
def DirAct.Ok : DirAct → Prop
  | .link _ inum => 0 < inum ∧ inum < 2 ^ 16
  | .clear _ => True

instance (a : DirAct) : Decidable a.Ok :=
  match a with
  | .link _ inum => inferInstanceAs (Decidable (0 < inum ∧ inum < 2 ^ 16))
  | .clear _ => inferInstanceAs (Decidable True)

def dirSys (sb : Super) (dp : Nat) : System St DirAct where
  Init := IsMap sb dp
  step s a := if a.Ok then (a.run sb dp s).toOption.map Prod.snd else none

section
variable {sb : Super} {v w : Nat → Dinode} {s t : St} {E : Stop → Prop} {dp : Nat}
  {bytes : List Byte} {name : Name} {inum k : Nat}

/-! ## One step -/

/-- What `dirlink` of the name at `p` does to the entries. -/
structure Linked (p : Nat → Byte) (inum : Nat) (ok : Bool) (bytes bytes' : List Byte) : Prop where
  present : (entries bytes).lookup (cut p) ≠ none → ok = false
  failed : ok = false → entries bytes' = entries bytes
  added : ok = true → entries bytes' = (entries bytes).put (cut p) inum
  stored : ok = true →
    (bytes'.drop ((entries bytes).free * DESIZE + 2)).take DIRSIZ = strncpy p DIRSIZ
  reused : (entries bytes).lookup (cut p) = none → ∀ k : Nat, (entries bytes)[k]? = some none →
    ok = true ∧ bytes'.length = bytes.length

/-- The name in the bytes of an entry. -/
theorem drop_name (bytes : List Byte) (k : Nat) :
    (bytes.drop (k * DESIZE + 2)).take DIRSIZ =
      (((bytes.drop (k * DESIZE)).take DESIZE).drop 2).take DIRSIZ := by
  rw [drop_take, take_take, drop_drop]
  rfl

theorem IsDir.link_step {p : Nat → Byte} (hE : E .noInodes) (h : IsDir sb v s dp bytes)
    (hlock : Locked v s dp) (h0 : 0 < inum) (hinum : inum < 2 ^ 16) :
    wp E (Fs.dirlink sb dp (cut p) inum) (fun ok t => ∃ w bytes', IsDir sb w t dp bytes' ∧
      Locked w t dp ∧ Linked p inum ok bytes bytes') s := by
  refine wp_mono (h.dirlink hE hlock) fun ok t ht => ?_
  obtain ⟨w, hw, hbytes, hnone, hfree⟩ := ht
  have hspace : ∀ k : Nat, (entries bytes)[k]? = some none →
      (entries bytes).free < bytes.length / DESIZE := by
    intro k hk
    have hle := Slots.free_le_of_empty hk
    have hlt := (List.getElem?_eq_some_iff.mp hk).1
    rw [length_entries] at hlt
    omega
  have hpresent : (entries bytes).lookup (cut p) ≠ none → ok = false := fun hne => by
    by_contra hok
    exact hne (hnone (Bool.of_not_eq_false hok))
  rw [Nat.mod_eq_of_lt hinum] at hbytes
  cases ok with
  | false =>
    refine ⟨w, bytes, hw.isDir h hbytes h.align, hw.locked hlock, hpresent, fun _ => rfl, nofun,
      nofun, fun hno k hk => ?_⟩
    cases hfree hno (hspace k hk)
  | true =>
    have hoff : (entries bytes).free * DESIZE ≤ bytes.length :=
      le_trans (Nat.mul_le_mul_right _ free_entries_le) (Nat.div_mul_le_self _ _)
    refine ⟨w, _, hw.isDir h hbytes ?_, hw.locked hlock, hpresent, nofun, fun _ => ?_, fun _ => ?_,
      fun _ k hk => ⟨rfl, ?_⟩⟩
    · exact aligned_place h.align free_entries_le (Dirent.length_bytes _)
    · exact entries_put h.align hinum (Nat.pos_iff_ne_zero.mp h0) (length_cstr_le _ _)
        (zero_not_mem_cstr _ _)
    · rw [if_pos rfl, drop_name, take_drop_place hoff (Dirent.length_bytes _), if_pos rfl,
        ← encode_name p inum]
      rfl
    · have hlt := hspace k hk
      rw [if_pos rfl, length_place hoff, Dirent.length_bytes]
      unfold DESIZE at *
      omega

theorem IsDir.clear_step (h : IsDir sb v s dp bytes) (hlock : Locked v s dp)
    (hk : (entries bytes).Has k name inum) :
    wp E (Fs.writeDirent sb dp (k * DESIZE) fun _ => 0) (fun ok t => ok = true ∧
      ∃ w bytes', IsDir sb w t dp bytes' ∧ Locked w t dp ∧ Kept s t ∧
        entries bytes' = (entries bytes).clear k) s := by
  have hlt := (has_entries.mp hk).1
  refine wp_mono (h.writeDirent hlock (le_of_lt hlt)) fun ok t ht => ?_
  obtain ⟨w, hw, hbytes, hok⟩ := ht
  obtain rfl := hok hlt
  have hzeros : (List.range DESIZE).map (fun _ => (0 : Byte)) = List.replicate DESIZE 0 := rfl
  rw [if_pos rfl, hzeros] at hbytes
  refine ⟨rfl, w, _, hw.isDir h hbytes ?_, hw.locked hlock, hw.kept, entries_clear h.align hlt⟩
  exact aligned_place h.align (le_of_lt hlt) length_replicate

/-- A reference to an inode that an entry names, which may be the directory itself. -/
theorem IsDir.iget (hE : E .noInodes) (h : IsDir sb v s dp bytes) (hlock : Locked v s dp)
    (i : Nat) :
    wp E (iget sb i) (fun _ t => IsDir sb v t dp bytes ∧ Locked v t dp ∧ 0 < (t.inode i).ref ∧
      ((t.inode i).ref = 1 → (t.inode i).locked = false ∧ i ≠ dp)) s := by
  refine wp_mono (iget_spec (.inr (.inr hE)) h.inv) fun _ t ht => ?_
  obtain ⟨hinv, ip, rfl, href, hl, hsame⟩ := ht
  have hself : (update s.inode i ip) i = ip := update_self i ip s.inode
  have hdp : (update s.inode i ip dp).Live ∧
      (update s.inode i ip dp).locked = true := by
    by_cases hi : dp = i
    · subst hi
      rw [hself, hsame h.live.1]
      exact ⟨⟨Nat.succ_pos _, hlock.live.2⟩, hlock.locked⟩
    · rw [update_of_ne hi]
      exact ⟨hlock.live, hlock.locked⟩
  refine ⟨⟨hinv, hdp.1, h.type, h.holds, h.align⟩, ⟨hdp.1, hdp.2, hlock.disk⟩, ?_, fun hone => ?_⟩
  · show 0 < (update s.inode i ip i).ref
    rw [hself, href]
    exact Nat.succ_pos _
  have hzero : (s.inode i).ref = 0 := by
    have hcount : (update s.inode i ip i).ref = 1 := hone
    rw [hself, href] at hcount
    omega
  refine ⟨?_, ?_⟩
  · show (update s.inode i ip i).locked = false
    rw [hself, hl]
    by_contra hbusy
    have hpos := h.inv.pin i (Bool.of_not_eq_false hbusy)
    omega
  · rintro rfl
    have hpos := h.live.1
    omega

/-- The reference is dropped again. -/
theorem IsDir.iput {i : Nat} (h : IsDir sb v s dp bytes) (hlock : Locked v s dp)
    (href : 0 < (s.inode i).ref)
    (hlast : (s.inode i).ref = 1 → (s.inode i).locked = false ∧ i ≠ dp) :
    wp E (iput i) (fun _ t => ∃ w, IsDir sb w t dp bytes ∧ Locked w t dp) s := by
  refine wp_mono (iput_spec h.inv href fun hone => (hlast hone).1) fun _ t ht => ?_
  obtain ⟨-, hinv, rfl⟩ | ⟨w, hw⟩ := ht
  · have hdp : (update s.inode i { s.inode i with ref := (s.inode i).ref - 1 } dp).Live ∧
        (update s.inode i { s.inode i with ref := (s.inode i).ref - 1 } dp).locked =
          true := by
      by_cases hi : dp = i
      · subst hi
        rw [update_self]
        have hne : (s.inode dp).ref ≠ 1 := fun hone => (hlast hone).2 rfl
        refine ⟨⟨?_, hlock.live.2⟩, hlock.locked⟩
        show 0 < (s.inode dp).ref - 1
        omega
      · rw [update_of_ne hi]
        exact ⟨hlock.live, hlock.locked⟩
    exact ⟨v, ⟨hinv, hdp.1, h.type, h.holds, h.align⟩, hdp.1, hdp.2, hlock.disk⟩
  · -- an inode that is freed is not the directory
    have hne : dp ≠ i := fun he => (hlast hw.doomed.1).2 he.symm
    refine ⟨w, ⟨hw.inv, ?_, ?_, ?_, h.align⟩, ?_, ?_, ?_⟩
    · rw [hw.inode dp hne]
      exact h.live
    · rw [hw.other dp hne, h.type]
    · rw [hw.other dp hne, hw.block, h.holds]
    · rw [hw.inode dp hne]
      exact h.live
    · rw [hw.inode dp hne]
      exact hlock.locked
    · rw [hw.dinode dp hne, hw.other dp hne, hlock.disk]

theorem IsMap.step (h : IsMap sb dp s) {a : DirAct} (ha : a.Ok) :
    wp (fun _ => True) (a.run sb dp) (fun _ t => IsMap sb dp t) s := by
  obtain ⟨v, bytes, hdir, hlock, hdist⟩ := h
  cases a with
  | link name inum =>
    rw [DirAct.run]
    refine wp_call (hdir.link_step trivial hlock ha.1 ha.2) fun ok t ht => ?_
    obtain ⟨w, bytes', hdir', hlock', hlinked⟩ := ht
    rw [wp_pure]
    refine ⟨w, bytes', hdir', hlock', ?_⟩
    cases ok with
    | false =>
      rw [hlinked.failed rfl]
      exact hdist
    | true =>
      rw [hlinked.added rfl]
      refine hdist.put (Slots.lookup_eq_none.mp ?_)
      by_contra hne
      cases hlinked.present hne
  | clear name =>
    rw [DirAct.run, wp_bind]
    refine hdir.dirlookup (fun _ => ?_) fun ip k hk => ?_
    · exact wp_ret ⟨v, bytes, hdir, hlock, hdist⟩
    refine wp_mono (hdir.iget trivial hlock ip) fun _ t ht => ?_
    obtain ⟨hdir', hlock', href, hlast⟩ := ht
    refine wp_call (hdir'.clear_step hlock' (Slots.lookup_eq_some.mp hk).1) fun _ u hu => ?_
    obtain ⟨-, w, bytes', hdirw, hlockw, hkept, hent⟩ := hu
    refine wp_mono (hdirw.iput hlockw (by rwa [hkept.ref]) (by
      rwa [hkept.ref, hkept.locked])) fun _ x hx => ?_
    obtain ⟨w', hdirx, hlockx⟩ := hx
    refine ⟨w', bytes', hdirx, hlockx, ?_⟩
    rw [hent]
    exact hdist.clear k

theorem isMap_of_reachable (h : (dirSys sb dp).Reachable s) : IsMap sb dp s := by
  refine System.Reachable.invariant (S := dirSys sb dp) (IsMap sb dp) (fun _ h => h)
    (fun s a t hs hstep => ?_) h
  have hstep' : (if a.Ok then (a.run sb dp s).toOption.map Prod.snd else none) = some t := hstep
  by_cases ha : a.Ok
  · rw [if_pos ha] at hstep'
    obtain ⟨r, hr, rfl⟩ := Option.map_eq_some_iff.mp hstep'
    have hrun : a.run sb dp s = .ok r := by
      cases hx : a.run sb dp s with
      | error e =>
        rw [hx] at hr
        cases hr
      | ok x =>
        rw [hx] at hr
        cases hr
        rfl
    exact (wp_of_eq hrun).mp (hs.step ha)
  · rw [if_neg ha] at hstep'
    cases hstep'

end

/-! ## Every run -/

/-- What a directory is to those who use it: a map from names to numbers. -/
structure FiniteMap (sb : Super) (dp : Nat) (s : St) (v : Nat → Dinode) (bytes : List Byte) :
    Prop where
  dir : IsDir sb v s dp bytes
  unique : (entries bytes).Distinct
  lookup : ∀ p, wp (· = .noInodes) (dirlookup sb dp (cut p)) (fun r t =>
    r = ((entries bytes).lookup (cut p)).map (fun x => (x.1, x.2 * DESIZE)) ∧
      IsDir sb v t dp bytes) s
  link : ∀ p inum, 0 < inum → inum < 2 ^ 16 →
    wp (· = .noInodes) (dirlink sb dp (cut p) inum) (fun ok t => ∃ w bytes',
      IsDir sb w t dp bytes' ∧ Linked p inum ok bytes bytes' ∧
      (ok = true → (entries bytes').lookup (cut p) = some (inum, (entries bytes).free) ∧
        ∀ q, cut q ≠ cut p → (entries bytes').lookup (cut q) = (entries bytes).lookup (cut q))) s
  clear : ∀ p inum k, (entries bytes).lookup (cut p) = some (inum, k) →
    wp (fun _ => False) (writeDirent sb dp (k * DESIZE) fun _ => 0) (fun ok t => ok = true ∧
      ∃ w bytes', IsDir sb w t dp bytes' ∧ (entries bytes').lookup (cut p) = none ∧
        ∀ q, cut q ≠ cut p → (entries bytes').lookup (cut q) = (entries bytes).lookup (cut q)) s
  compare : ∀ p k, k < (entries bytes).length →
    (namecmp p (fun j => ((bytes.drop (k * DESIZE)).take DESIZE).getD (j + 2) 0) = 0 ↔
      (entryAt bytes k).name = cut p)

/-- After any sequence of `dirlink`, also ones that fail, and of clearings. -/
theorem directory_is_map (sb : Super) (dp : Nat) (s : St) (h : (dirSys sb dp).Reachable s) :
    ∃ v bytes, FiniteMap sb dp s v bytes := by
  obtain ⟨v, bytes, hdir, hlock, hdist⟩ := isMap_of_reachable h
  refine ⟨v, bytes, hdir, hdist, fun p => ?_, fun p inum h0 hinum => ?_, fun p inum k hk => ?_,
    fun p k hk => ?_⟩
  · refine hdir.dirlookup (fun hnone => ?_) fun inum k hk => ?_
    · rw [hnone]
      exact ⟨rfl, hdir⟩
    · refine wp_mono (hdir.iget (E := (· = .noInodes)) rfl hlock inum) fun _ t ht => ?_
      rw [hk]
      exact ⟨rfl, ht.1⟩
  · refine wp_mono (hdir.link_step rfl hlock h0 hinum) fun ok t ht => ?_
    obtain ⟨w, bytes', hdir', -, hlinked⟩ := ht
    refine ⟨w, bytes', hdir', hlinked, fun hok => ?_⟩
    have hnone : (entries bytes).lookup (cut p) = none := by
      by_contra hne
      rw [hlinked.present hne] at hok
      cases hok
    rw [hlinked.added hok]
    exact ⟨Slots.lookup_put_self hnone, fun q hq => Slots.lookup_put_of_ne hq⟩
  · refine wp_mono (hdir.clear_step hlock (Slots.lookup_eq_some.mp hk).1) fun ok t ht => ?_
    obtain ⟨hok, w, bytes', hdir', -, -, hent⟩ := ht
    refine ⟨hok, w, bytes', hdir', ?_⟩
    rw [hent]
    exact ⟨Slots.lookup_clear_self hdist hk, fun q hq => Slots.lookup_clear_of_ne hk hq⟩
  · refine namecmp_decode ?_
    rw [length_entries] at hk
    rw [length_take, length_drop]
    unfold DESIZE at *
    omega

/-! ## A new directory -/

def dirSuper : Super := .checked 9 4 3 (by decide)

/-- A directory without entries. -/
def newDir : Dinode := { Dinode.zero with type := .dir, nlink := 1 }

/-- A disk with this directory, inode 1, locked. -/
def dirDisk : St :=
  .small (fun b => b < 5) (fun _ _ => 0) [Dinode.zero, newDir] [absent, (1, true, true)]

theorem dirDisk_isMap : IsMap dirSuper 1 dirDisk := by
  have hinv : Inv dirSuper dirDisk.dinode dirDisk :=
    St.small_inv (by decide +kernel) (by decide) (by decide)
  have hlive : (dirDisk.inode 1).Live := ⟨by decide, by decide⟩
  have hempty : Aligned [] := ⟨0, rfl⟩
  exact ⟨_, [], ⟨hinv, hlive, rfl, rfl, hempty⟩, ⟨hlive, by decide, rfl⟩, nofun⟩

/-- "a" is entered twice, the second time in vain. -/
def linkTwice : List DirAct := [2, 1].map (.link fun k => if k = 0 then 97 else 0)

theorem directory_is_map_newDir :
    ((dirSys dirSuper 1).exec dirDisk linkTwice).any (fun s =>
        decide (entries (((s.inode 1).d).bytes s.block) = [some ([97], 2)])) = true ∧
      ∃ s v bytes, (dirSys dirSuper 1).Reachable s ∧ FiniteMap dirSuper 1 s v bytes := by
  have hrun : ((dirSys dirSuper 1).exec dirDisk linkTwice).any (fun s =>
        decide (entries (((s.inode 1).d).bytes s.block) = [some ([97], 2)])) = true := by
    decide +kernel
  refine ⟨hrun, ?_⟩
  obtain ⟨s, hs, -⟩ := (Option.any_eq_true _ _).mp hrun
  have hreach : (dirSys dirSuper 1).Reachable s := (System.Reachable.init dirDisk_isMap).exec hs
  obtain ⟨v, bytes, hmap⟩ := directory_is_map dirSuper 1 s hreach
  exact ⟨s, v, bytes, hreach, hmap⟩

end Xv6.Fs
