import Mathlib.Data.List.Perm.Subperm
import Xv6.Fs.Logged
import Xv6.Fs.Path
import Xv6.Fs.Small
import Xv6.Fs.Trunc

/-!
# Xv6.Fs.Reclaim — orphans are recovered at boot

A crash can leave an inode allocated that no directory names any more: it was unlinked and
still open. `ireclaim` scans the inodes of the disk when the file system is mounted and
frees these, by taking a reference to each and dropping it again, each in a transaction of
its own. The first process has the root directory open by then, so the root is not freed if it
is an orphan itself (`ireclaim_keeps_root`); and an orphan whose blocks have their bits in too
many blocks of the free map does not fit in the log.
-/

namespace Xv6.Fs

open Lib Function List

/-! ## Freeing, with the log -/

namespace Logged

def bfree (lay : Superblock) (b : Nat) : L Unit := do
  quiet (Fs.bfree b)
  logWrite (BBLOCK b lay)

def itruncDirect (lay : Superblock) (i : Nat) : L Unit :=
  forM (List.range NDIRECT) fun k => do
    let s ← quiet get
    if (s.inode i).d.addrs k ≠ 0 then
      bfree lay ((s.inode i).d.addrs k)
      quiet (setCopy i fun d => { d with addrs := update d.addrs k 0 })

def itruncIndirect (lay : Superblock) (ind : Nat) : L Unit :=
  forM (List.range NINDIRECT) fun j => do
    let s ← quiet get
    if (s.block ind).getWord j ≠ 0 then bfree lay ((s.block ind).getWord j).toNat

def itrunc (lay : Superblock) (i : Nat) : L Unit := do
  itruncDirect lay i
  let s ← quiet get
  if (s.inode i).d.addrs NDIRECT ≠ 0 then
    itruncIndirect lay ((s.inode i).d.addrs NDIRECT)
    bfree lay ((s.inode i).d.addrs NDIRECT)
    quiet (setCopy i fun d => { d with addrs := update d.addrs NDIRECT 0 })
  quiet (setCopy i fun d => { d with size := 0 })
  iupdate lay i

def ifree (lay : Superblock) (i : Nat) : L Unit := do
  itrunc lay i
  quiet (setCopy i fun d => { d with type := .none })
  iupdate lay i
  quiet (setInode i fun ip => { ip with valid := false, locked := false })

def iput (lay : Superblock) (i : Nat) : L Unit := do
  if ← quiet (iputBegin i) then
    ifree lay i
    quiet (dropRef i)

/-- `begin_op`, `m` and `end_op`, with nobody else in an operation: the log is empty before and
after. `log_write` stops when there are `LOGBLOCKS` blocks in it, also for a block that is one of
them. The inode block is logged twice and last, so that a transaction with so many blocks never
ends. -/
def transaction (m : L Unit) : L Unit := do
  modify fun t => { t with log := [] }
  m
  if LOGBLOCKS ≤ (← get).log.length then throw .tooBig
  else modify fun t => { t with log := [] }

/-- Free the inodes that were left allocated without a link by a crash. -/
def ireclaim (lay : Superblock) (sb : Super) : L Unit :=
  forM (List.range' 1 (sb.ninodes - 1)) fun inum => do
    let s ← quiet get
    if (s.dinode inum).type ≠ .none ∧ (s.dinode inum).nlink = 0 then
      quiet (iget sb inum)
      transaction do
        quiet (ilock inum)
        quiet (iunlock inum)
        iput lay inum

/-! ### Without the log -/

section
variable {lay : Superblock} {i b : Nat}

theorem bfree_erases : Erases LSt.fs (bfree lay b) (Fs.bfree b) :=
  (quiet_erases _).after (logWrite_erases _)

theorem itruncDirect_erases : Erases LSt.fs (itruncDirect lay i) (Fs.itruncDirect i) := by
  refine .forM (fun k => (quiet_erases get).bind fun s => .ite ?_ (.pure _)) _
  exact bfree_erases.bind fun _ => quiet_erases _

theorem itruncIndirect_erases : Erases LSt.fs (itruncIndirect lay b) (Fs.itruncIndirect b) :=
  .forM (fun _ => (quiet_erases get).bind fun _ => .ite bfree_erases (.pure _)) _

theorem itrunc_erases : Erases LSt.fs (itrunc lay i) (Fs.itrunc i) := by
  refine itruncDirect_erases.bind fun _ => (quiet_erases get).bind fun s => .ite ?_ ?_
  · refine itruncIndirect_erases.bind fun _ => bfree_erases.bind fun _ => ?_
    exact (quiet_erases _).bind fun _ => (quiet_erases _).bind fun _ => iupdate_erases
  · exact (quiet_erases _).bind fun _ => iupdate_erases

theorem iput_erases : Erases LSt.fs (iput lay i) (Fs.iput i) := by
  refine (quiet_erases _).bind fun free => ?_
  cases free with
  | false => exact .pure _
  | true =>
    refine Erases.bind (itrunc_erases.bind fun _ => (quiet_erases _).bind fun _ => ?_)
      fun _ => quiet_erases _
    exact iupdate_erases.bind fun _ => quiet_erases _

end

end Logged

/-! ## What freeing logs -/

/-- A transaction that began with the free map `bitmap` has freed blocks only, and logged just
their blocks of the map and the block of inode `i`. -/
structure Frees (lay : Superblock) (i : Nat) (bitmap : Nat → Bool) (t : LSt) : Prop where
  nodup : t.log.Nodup
  old : ∀ b, t.fs.bitmap b = true → bitmap b = true
  log : ∀ x ∈ t.log, x = IBLOCK i lay ∨
    ∃ b, x = BBLOCK b lay ∧ bitmap b = true ∧ t.fs.bitmap b = false

section
variable {lay : Superblock} {i : Nat} {bitmap : Nat → Bool} {t u : LSt}

/-- What leaves the free map alone. -/
theorem quiet_frees {α : Type} {m : F α}
    (hm : ∀ s, wp (fun _ => True) m (fun _ t => t.bitmap = s.bitmap) s) :
    Preserves (Frees lay i bitmap) (quiet m) := by
  intro t h
  rw [wp_quiet]
  refine wp_mono (hm t.fs) fun _ u hu => ⟨h.nodup, ?_, ?_⟩
  · show ∀ b, u.bitmap b = true → _
    rw [hu]
    exact h.old
  · show ∀ x ∈ t.log, _ ∨ ∃ b, _ ∧ _ ∧ u.bitmap b = false
    rw [hu]
    exact h.log

theorem Frees.logWrite {x : Nat} (h : Frees lay i bitmap t) (hx : x = IBLOCK i lay ∨
      ∃ b, x = BBLOCK b lay ∧ bitmap b = true ∧ t.fs.bitmap b = false) :
    Frees lay i bitmap { t with log := if x ∈ t.log then t.log else t.log ++ [x] } := by
  have hgrown : Grown (fun y => y = x) t
      { t with log := if x ∈ t.log then t.log else t.log ++ [x] } :=
    .logWrite rfl (fun _ _ => rfl) rfl
  refine ⟨hgrown.nodup h.nodup, h.old, fun y hy => ?_⟩
  rcases hgrown.only y hy with hy | rfl
  · exact h.log y hy
  · exact hx

theorem bfree_frees (b : Nat) : Preserves (Frees lay i bitmap) (Logged.bfree lay b) := by
  intro t h
  rw [Logged.bfree, wp_bind, wp_quiet, bfree, wp_bind, wp_get]
  refine wp_if (fun _ => (wp_throw _).mpr trivial) fun hused => ?_
  rw [wp_setBit, wp_logWrite]
  have hold := h.old b (by simpa using hused)
  have hfree : Frees lay i bitmap
      { t with fs := { t.fs with bitmap := update t.fs.bitmap b false } } := by
    refine ⟨h.nodup, fun c hc => ?_, fun x hx => ?_⟩
    · by_cases hcb : c = b
      · rwa [hcb]
      · exact h.old c (by simpa only [update_of_ne hcb] using hc)
    · rcases h.log x hx with hx | ⟨c, hx, hc, hfree⟩
      · exact .inl hx
      · exact .inr ⟨c, hx, hc, update_eq_of fun _ => hfree⟩
  exact hfree.logWrite (.inr ⟨b, rfl, hold, update_self _ _ _⟩)

theorem iupdate_frees : Preserves (Frees lay i bitmap) (Logged.iupdate lay i) :=
  (quiet_frees fun _ => wp_iupdate.mpr rfl).bind fun _ _ h => wp_logWrite.mpr (h.logWrite (.inl rfl))

theorem setCopy_frees (f : Dinode → Dinode) :
    Preserves (Frees lay i bitmap) (quiet (setCopy i f)) :=
  quiet_frees fun _ => wp_setCopy.mpr rfl

theorem get_frees : Preserves (Frees lay i bitmap) (quiet get) := quiet_frees fun _ => wp_get.mpr rfl

theorem itrunc_frees : Preserves (Frees lay i bitmap) (Logged.itrunc lay i) := by
  have hend : Preserves (Frees lay i bitmap) (do
      quiet (setCopy i fun d => { d with size := 0 }); Logged.iupdate lay i) :=
    (setCopy_frees _).bind fun _ => iupdate_frees
  refine .bind (.forM (fun k => get_frees.bind fun s => .ite ?_ (.pure _)) _) fun _ =>
    get_frees.bind fun s => .ite ?_ hend
  · exact (bfree_frees _).bind fun _ => setCopy_frees _
  · refine .bind (.forM (fun j => get_frees.bind fun s => .ite (bfree_frees _) (.pure _)) _) fun _ => ?_
    exact (bfree_frees _).bind fun _ => (setCopy_frees _).bind fun _ => hend

theorem iput_frees : Preserves (Frees lay i bitmap) (Logged.iput lay i) := by
  refine .bind (quiet_frees fun s => ?_) fun free => .ite (.bind ?_ fun _ => ?_) (.pure _)
  · simp only [iputBegin, dropRef, wp_bind, wp_get, wp_ite, wp_throw, wp_setInode, wp_pure,
      implies_true, and_self]
  · exact itrunc_frees.bind fun _ => (setCopy_frees _).bind fun _ => iupdate_frees.bind fun _ =>
      quiet_frees fun _ => wp_setInode.mpr rfl
  · exact quiet_frees fun _ => wp_setInode.mpr rfl

/-- The locks of an inode have nothing to do with the free map. -/
theorem reclaim_frees : Preserves (Frees lay i bitmap)
    (do quiet (ilock i); quiet (iunlock i); Logged.iput lay i) := by
  refine .bind (quiet_frees fun s => ?_) fun _ => .bind (quiet_frees fun s => ?_) fun _ => iput_frees
  · simp [ilock, wp_ite]
  · simp [iunlock, wp_ite]

end

/-! ## One orphan -/

/-- Allocated, and in no directory. -/
def Dinode.Orphan (d : Dinode) : Prop := d.type ≠ .none ∧ d.nlink = 0

instance (d : Dinode) : Decidable d.Orphan := inferInstanceAs (Decidable (_ ∧ _))

/-- A well-formed disk: inodes are numbered from 1, and every data block is either free or
has one owner. -/
structure Image (sb : Super) (s : St) : Prop where
  range : ∀ i, (s.dinode i).type ≠ .none → 0 < i ∧ i < sb.ninodes
  own : Owned sb.Data s.bitmap (Holds s.dinode s.block)

/-- The inode table at the call of `fsinit`: `userinit` has looked up the root directory. -/
def St.Booted (s : St) : Prop :=
  ∀ i, (s.inode i).ref = (if i = ROOTINO then 1 else 0) ∧ (s.inode i).locked = false

/-- The blocks that are logged when inode `i` is freed are fewer than `LOGBLOCKS`. -/
def St.FitsLog (lay : Superblock) (s : St) (i : Nat) : Prop :=
  ∃ l : List Nat, l.length < LOGBLOCKS ∧ IBLOCK i lay ∈ l ∧ ∀ k, slot (s.dinode i) s.block k ≠ 0 →
    BBLOCK (slot (s.dinode i) s.block k) lay ∈ l

/-- The scan that started in `s` has come to inode `n`. -/
structure Scanned (sb : Super) (s : St) (n : Nat) (t : St) : Prop where
  booted : t.Booted
  block : t.block = s.block
  freed : ∀ i, i < n → (s.dinode i).Orphan → (t.dinode i).type = .none
  kept : ∀ i, ¬ (i < n ∧ (s.dinode i).Orphan) → t.dinode i = s.dinode i
  own : Owned sb.Data t.bitmap (Holds t.dinode s.block)
  rest : ∀ b, ¬ sb.Data b → t.bitmap b = s.bitmap b

/-- Inode `i` was freed, and its reference dropped. -/
structure Reclaimed (sb : Super) (s : St) (i : Nat) (t : St) : Prop where
  booted : t.Booted
  block : t.block = s.block
  dinode : t.dinode = update s.dinode i { (s.dinode i).truncated with type := .none }
  own : Owned sb.Data t.bitmap (fun x b => Holds s.dinode s.block x b ∧ x.1 ≠ i)
  rest : ∀ b, ¬ sb.Data b → t.bitmap b = s.bitmap b

section
variable {lay : Superblock} {sb : Super} {s t : St} {E : Stop → Prop} {i n : Nat}

/-- One entry of the table is in use. -/
theorem St.Booted.used (h : s.Booted) : s.used sb ≤ 1 := by
  have hle : s.used sb ≤ (List.range sb.ninodes).count ROOTINO := by
    refine countP_mono_left fun i _ hi => ?_
    rw [(h i).1] at hi
    by_cases hroot : i = ROOTINO
    · exact beq_iff_eq.mpr hroot
    · simp [hroot] at hi
  exact hle.trans (nodup_iff_count_le_one.mp nodup_range ROOTINO)

/-- A reference that is taken and dropped again frees the inode, and leaves none behind. -/
theorem reclaim_orphan (hboot : s.Booted) (hroot : i ≠ ROOTINO)
    (hown : Owned sb.Data s.bitmap (Holds s.dinode s.block)) (ho : (s.dinode i).Orphan) :
    wp E (iget sb i) (fun _ u => u.bitmap = s.bitmap ∧
      wp E (do ilock i; iunlock i; iput i) (fun _ t => Reclaimed sb s i t) u) s := by
  rcases ho with ⟨htype, hlink⟩
  rcases hboot i with ⟨href, hlock⟩
  rw [if_neg hroot] at href
  have hfree : ¬ NINODE ≤ s.used sb := fun hge => absurd (hge.trans hboot.used) (by decide)
  rw [iget, wp_bind, wp_get, if_neg (by omega), if_neg hfree, wp_setInode]
  refine ⟨rfl, ?_⟩
  rw [wp_bind, ilock, wp_bind, wp_get]
  simp only [update_self, hlock, htype, update_idem, if_false, wp_bind,
    wp_setInode, wp_pure, lt_irrefl, Bool.false_eq_true]
  rw [iunlock, wp_bind, wp_get]
  simp only [update_self, update_idem, wp_setInode, lt_irrefl, or_false,
    Bool.true_eq_false, if_false]
  rw [iput, wp_bind, iputBegin, wp_bind, wp_get]
  -- the copy that was just read has no links, and this is its only reference
  simp only [update_self, update_idem, hlink, wp_setInode, and_self, if_true,
    Bool.false_eq_true, if_false, wp_bind, wp_pure]
  refine wp_mono (ifree_spec (v := s.dinode) hown (by simp only [update_self]) htype)
    fun _ t ht => ?_
  rcases ht with ⟨bitmap, rfl, hown', hrest⟩
  rw [dropRef, wp_setInode]
  refine ⟨fun j => ?_, rfl, rfl, hown', hrest⟩
  by_cases hj : j = i
  · subst hj
    simp only [update_self, if_neg hroot]
    exact ⟨trivial, trivial⟩
  · simp only [update_of_ne hj]
    exact hboot j

/-- What was logged for it fits in the log. -/
theorem Reclaimed.log_lt {u : LSt} (h : Reclaimed sb s i u.fs) (hu : Frees lay i s.bitmap u)
    (hown : Owned sb.Data s.bitmap (Holds s.dinode s.block)) (hfits : s.FitsLog lay i) :
    u.log.length < LOGBLOCKS := by
  rcases hfits with ⟨l, hlen, hinode, hbits⟩
  refine lt_of_le_of_lt (subperm_of_subset hu.nodup fun x hx => ?_).length_le hlen
  rcases hu.log x hx with rfl | ⟨b, rfl, hold, hnew⟩
  · exact hinode
  have hb : sb.Data b := by
    by_contra hout
    rw [h.rest b hout, hold] at hnew
    cases hnew
  rcases hown.complete b hb hold with ⟨x, hx⟩
  by_cases hxi : x.1 = i
  · have hslot := hx.2.1
    rw [hxi] at hslot
    have hmem := hbits x.2 (by rw [hslot]; exact hx.2.2)
    rwa [hslot] at hmem
  · rw [(h.own.sound x b ⟨hx, hxi⟩).2] at hnew
    cases hnew

/-- The transaction of one orphan. -/
theorem transaction_orphan {r : List Nat} (hboot : s.Booted) (hroot : i ≠ ROOTINO)
    (hown : Owned sb.Data s.bitmap (Holds s.dinode s.block)) (ho : (s.dinode i).Orphan)
    (hfits : s.FitsLog lay i) :
    wp (fun _ => False) (do
      quiet (iget sb i)
      Logged.transaction do
        quiet (ilock i)
        quiet (iunlock i)
        Logged.iput lay i) (fun _ u => Reclaimed sb s i u.fs) ⟨s, r⟩ := by
  rw [wp_bind, wp_quiet]
  refine wp_mono (reclaim_orphan hboot hroot hown ho) fun _ u hu => ?_
  rw [Logged.transaction, wp_bind, wp_modify]
  have herases : Erases LSt.fs (do quiet (ilock i); quiet (iunlock i); Logged.iput lay i)
      (do ilock i; iunlock i; iput i) :=
    (Logged.quiet_erases _).bind fun _ => (Logged.quiet_erases _).bind fun _ => Logged.iput_erases
  rcases wp_returns (herases.wp (t := ⟨u, []⟩) hu.2) with ⟨⟨⟩, v, hrun, hv⟩
  have hfreed : Frees lay i s.bitmap v := by
    have hstart : Frees lay i s.bitmap ⟨u, []⟩ :=
      ⟨nodup_nil, by rw [hu.1]; exact fun _ => id, nofun⟩
    exact (wp_of_eq hrun).mp (reclaim_frees _ hstart)
  rw [wp_bind, wp_of_eq hrun, wp_bind, wp_get,
    if_neg (Nat.not_le_of_lt (hv.log_lt hfreed hown hfits)), wp_modify]
  exact hv

/-! ## The scan -/

theorem Scanned.start (h : Image sb s) (hboot : s.Booted) : Scanned sb s 1 s := by
  refine ⟨hboot, rfl, fun i hi ho => ?_, fun _ _ => rfl, h.own, fun _ _ => rfl⟩
  have hpos := (h.range i ho.1).1
  omega

/-- An orphan was freed. -/
theorem Scanned.reclaim {u : St} (h : Scanned sb s n t) (ho : (s.dinode n).Orphan)
    (hu : Reclaimed sb t n u) : Scanned sb s (n + 1) u := by
  refine ⟨hu.booted, hu.block.trans h.block, fun i hi hio => ?_, fun i hi => ?_,
    hu.own.congr fun x b => ?_, fun b hb => (hu.rest b hb).trans (h.rest b hb)⟩
  · rw [hu.dinode]
    by_cases hin : i = n
    · rw [hin, update_self]
    · rw [update_of_ne hin]
      exact h.freed i (by omega) hio
  · have hin : i ≠ n := by
      rintro rfl
      exact hi ⟨Nat.lt_succ_self i, ho⟩
    rw [hu.dinode, update_of_ne hin]
    exact h.kept i fun hc => hi ⟨by omega, hc.2⟩
  · -- a free inode holds nothing
    unfold Holds
    rw [hu.dinode, h.block]
    by_cases hxn : x.1 = n
    · simp [hxn]
    · simp [hxn]

/-- There was nothing to free. -/
theorem Scanned.pass (h : Scanned sb s n t) (hn : ¬ (s.dinode n).Orphan) :
    Scanned sb s (n + 1) t := by
  have hlt : ∀ i, (s.dinode i).Orphan → (i < n + 1 ↔ i < n) := by
    intro i ho
    have hin : i ≠ n := by
      rintro rfl
      exact hn ho
    omega
  exact ⟨h.booted, h.block, fun i hi ho => h.freed i ((hlt i ho).mp hi) ho,
    fun i hi => h.kept i fun hc => hi ⟨(hlt i hc.2).mpr hc.1, hc.2⟩, h.own, h.rest⟩

theorem ireclaim_spec {r : List Nat} (h : Image sb s) (hboot : s.Booted)
    (hroot : ¬ (s.dinode ROOTINO).Orphan)
    (hfits : ∀ i, (s.dinode i).Orphan → s.FitsLog lay i) :
    wp (fun _ => False) (Logged.ireclaim lay sb)
      (fun _ u => Scanned sb s (1 + (sb.ninodes - 1)) u.fs) ⟨s, r⟩ := by
  refine wp_forM_range' (fun n (u : LSt) => Scanned sb s n u.fs) 1 (sb.ninodes - 1) _
    (Scanned.start h hboot) fun n u _ _ hu => ?_
  have hsame : u.fs.dinode n = s.dinode n := hu.kept n fun hc => lt_irrefl n hc.1
  rw [wp_bind, wp_quiet, wp_get, wp_ite, hsame]
  refine ⟨fun ho => ?_, fun hn => wp_ret (hu.pass hn)⟩
  have hne : n ≠ ROOTINO := fun he => hroot (he ▸ ho)
  have hown : Owned sb.Data u.fs.bitmap (Holds u.fs.dinode u.fs.block) := by
    rw [hu.block]
    exact hu.own
  have hfit : u.fs.FitsLog lay n := by
    unfold St.FitsLog
    rw [hsame, hu.block]
    exact hfits n ho
  exact wp_mono (transaction_orphan hu.booted hne hown (by rwa [hsame]) hfit)
    fun _ v hv => hu.reclaim ho hv

/-! ## What the scan leaves -/

variable (h : Scanned sb s (1 + (sb.ninodes - 1)) t) (hs : Image sb s)
include h hs

/-- All inodes have been visited. -/
theorem Scanned.orphan_free (ho : (s.dinode i).Orphan) :
    (t.dinode i).type = .none := by
  have hrange := (hs.range i ho.1).2
  exact h.freed i (by omega) ho

theorem Scanned.holds (x : Nat × Nat) (b : Nat) :
    Holds t.dinode s.block x b ↔ Holds s.dinode s.block x b ∧ ¬ (s.dinode x.1).Orphan := by
  by_cases ho : (s.dinode x.1).Orphan
  · refine ⟨fun hx => absurd (h.orphan_free hs ho) hx.1, fun hx => absurd ho hx.2⟩
  · unfold Holds
    rw [h.kept x.1 fun hc => ho hc.2]
    exact ⟨fun hx => ⟨hx, ho⟩, And.left⟩

/-- The blocks that became free are those of the orphans. -/
theorem Scanned.bitmap (b : Nat) :
    t.bitmap b = true ↔
      s.bitmap b = true ∧ ¬ ∃ i k, (s.dinode i).Orphan ∧ Holds s.dinode s.block (i, k) b := by
  by_cases hb : sb.Data b
  · constructor
    · intro hu
      rcases h.own.complete b hb hu with ⟨x, hx⟩
      rcases (h.holds hs x b).mp hx with ⟨hx, hno⟩
      refine ⟨(hs.own.sound x b hx).2, ?_⟩
      rintro ⟨i, k, ho, hi⟩
      rw [hs.own.unique x (i, k) b hx hi] at hno
      exact hno ho
    · rintro ⟨hu, hno⟩
      rcases hs.own.complete b hb hu with ⟨x, hx⟩
      have hxo : ¬ (s.dinode x.1).Orphan := fun ho => hno ⟨x.1, x.2, ho, hx⟩
      exact (h.own.sound x b ((h.holds hs x b).mpr ⟨hx, hxo⟩)).2
  · rw [h.rest b hb]
    refine ⟨fun hu => ⟨hu, ?_⟩, And.left⟩
    rintro ⟨i, k, -, hi⟩
    exact hb (hs.own.sound _ b hi).1

theorem Scanned.image : Image sb t := by
  refine ⟨fun i hi => hs.range i ?_, by rw [h.block]; exact h.own⟩
  by_cases ho : (s.dinode i).Orphan
  · exact absurd (h.orphan_free hs ho) hi
  · rwa [h.kept i fun hc => ho hc.2] at hi

end

/-- `ireclaim` of a well-formed disk frees the orphans with their blocks and changes nothing
else, and leaves no reference in the table, if the root is none of them and each fits in the
log. -/
theorem ireclaim_recovers (lay : Superblock) (sb : Super) (s : LSt) (hs : Image sb s.fs)
    (hboot : s.fs.Booted) (hroot : ¬ (s.fs.dinode ROOTINO).Orphan)
    (hfits : ∀ i, (s.fs.dinode i).Orphan → s.fs.FitsLog lay i) :
    ∃ t, Logged.ireclaim lay sb s = .ok ((), t) ∧
      (∀ i, ¬ (t.fs.dinode i).Orphan) ∧
      (∀ b, t.fs.bitmap b = true ↔ s.fs.bitmap b = true ∧
        ¬ ∃ i k, (s.fs.dinode i).Orphan ∧ Holds s.fs.dinode s.fs.block (i, k) b) ∧
      Image sb t.fs ∧
      (∀ i, ¬ (s.fs.dinode i).Orphan → t.fs.dinode i = s.fs.dinode i ∧
        ∀ off, content (t.fs.dinode i) t.fs.block off = content (s.fs.dinode i) s.fs.block off) ∧
      t.fs.Booted := by
  rcases wp_returns (ireclaim_spec hs hboot hroot hfits) with ⟨⟨⟩, t, hrun, hscan⟩
  refine ⟨t, hrun, fun i hi => ?_, hscan.bitmap hs, hscan.image hs, fun i hno => ?_, hscan.booted⟩
  · by_cases ho : (s.fs.dinode i).Orphan
    · exact hi.1 (hscan.orphan_free hs ho)
    · rw [hscan.kept i fun hc => ho hc.2] at hi
      exact ho hi
  · have hkept := hscan.kept i fun hc => hno hc.2
    refine ⟨hkept, fun off => ?_⟩
    rw [hkept, hscan.block]

/-! ## Disks with an orphan -/

/-- The root directory has block 4, and a file without links blocks 5 and 6. -/
def orphanDisk (links : BitVec 16) : St :=
  .small (· < 7) (fun _ _ => 0) [Dinode.zero,
    { Dinode.zero with
      type := .dir, nlink := links, size := BSIZE, addrs := fun k => if k = 0 then 4 else 0 },
    { Dinode.zero with
      type := .file, size := 2 * BSIZE, addrs := fun k => if k < 2 then 5 + k else 0 }]
    [absent, (1, false, false)]

def orphanSuper : Super := .checked 8 4 3 (by decide)

def orphanLayout : Superblock := ⟨FSMAGIC, 8, 4, 3, 0, 2, 2, 3⟩

theorem orphanDisk_booted (links : BitVec 16) : (orphanDisk links).Booted
  | 0 | 1 => ⟨rfl, rfl⟩
  | _ + 2 => ⟨rfl, rfl⟩

theorem ireclaim_recovers_orphanDisk :
    ((orphanDisk 1).dinode 2).Orphan ∧ (orphanDisk 1).bitmap 6 = true ∧
      ∃ t, Logged.ireclaim orphanLayout orphanSuper ⟨orphanDisk 1, []⟩ = .ok ((), t) ∧
        (∀ i, ¬ (t.fs.dinode i).Orphan) ∧ t.fs.bitmap 4 = true ∧ t.fs.bitmap 5 = false ∧
        t.fs.bitmap 6 = false := by
  have hinv : Inv orphanSuper (orphanDisk 1).dinode (orphanDisk 1) :=
    St.small_inv (by decide +kernel) (by decide) (by decide)
  have hfits : ∀ i, ((orphanDisk 1).dinode i).Orphan → (orphanDisk 1).FitsLog orphanLayout i := by
    have hinodes : ∀ i < 3, IBLOCK i orphanLayout ∈ [2, 3] := by decide
    have hbits : ∀ b < 8, BBLOCK b orphanLayout ∈ [2, 3] := by decide
    intro i ho
    refine ⟨[2, 3], by decide, hinodes i (hinv.range i ho.1).2, fun k hk => hbits _ ?_⟩
    exact (hinv.own.sound (i, k) _ (Holds.mk ho.1 hk)).1.2
  rcases ireclaim_recovers orphanLayout orphanSuper ⟨orphanDisk 1, []⟩ ⟨hinv.range, hinv.own⟩
    (orphanDisk_booted 1) (by decide) hfits with ⟨t, hrun, hno, -⟩
  have hmap : (Logged.ireclaim orphanLayout orphanSuper ⟨orphanDisk 1, []⟩).toOption.any (fun x =>
      decide (x.2.fs.bitmap 4 = true ∧ x.2.fs.bitmap 5 = false ∧ x.2.fs.bitmap 6 = false)) = true := by
    decide +kernel
  rw [hrun] at hmap
  exact ⟨by decide, rfl, t, hrun, hno, of_decide_eq_true hmap⟩

/-- If the root has no links either, it is found by the scan, but not freed: it has a second
reference. -/
theorem ireclaim_keeps_root :
    Image orphanSuper (orphanDisk 0) ∧ (orphanDisk 0).Booted ∧
      ∃ t, Logged.ireclaim orphanLayout orphanSuper ⟨orphanDisk 0, []⟩ = .ok ((), t) ∧
        (t.fs.dinode ROOTINO).Orphan := by
  have hinv : Inv orphanSuper (orphanDisk 0).dinode (orphanDisk 0) :=
    St.small_inv (by decide +kernel) (by decide) (by decide)
  have hrun : (Logged.ireclaim orphanLayout orphanSuper ⟨orphanDisk 0, []⟩).toOption.any (fun x =>
      decide (x.2.fs.dinode ROOTINO).Orphan) = true := by decide +kernel
  rcases exists_run hrun with ⟨⟨⟨⟩, t⟩, hrun, ho⟩
  exact ⟨⟨hinv.range, hinv.own⟩, orphanDisk_booted 0, t, hrun, of_decide_eq_true ho⟩

end Xv6.Fs
