import Xv6.Fs.Calls

/-!
# Xv6.Fs.Atomic — a call that fails changes nothing

`create`, `link` and `unlink` from the file system between calls. What is to be seen of it is
`St.tree`: the inodes that are allocated, with their fields and their bytes, those of the
directories included.
-/

namespace Xv6.Fs

open Lib

/-- What is to be seen of the file system. -/
def St.tree (s : St) : Tree := node s.view s.block

/-- How the calls may stop: the inode table is full, an entry names an inode that is not there,
another process holds a lock, or there is an entry for an inode without links. -/
inductive CallStop : Stop → Prop
  | noInodes : CallStop .noInodes
  | noType : CallStop .noType
  | asleep : CallStop .asleep
  | unlinkNlink : CallStop .unlinkNlink

section
variable {E : Stop → Prop} {sb : Super} {B : Nat → Prop} {r : Nat → Nat} {T : Tree} {s t : St}

theorem Rest.sees (h : Rest sb s.view s) (hE : E .asleep) :
    Sees E sb s.Busy s.refs 0 [] s.tree s :=
  ⟨s.view, h.ctx fun _ _ => hE, rfl⟩

/-- After a call the file system is between calls again. -/
theorem Sees.rest (h : Sees E sb B r 0 [] T t) : Rest sb t.view t ∧ t.tree = T ∧ t.refs = r := by
  obtain ⟨v, h, rfl⟩ := h
  have hr : t.refs = r := funext fun i => (h.ref i).trans (Nat.add_zero _)
  rw [St.tree, h.inv.view]
  refine ⟨⟨h.inv, fun i hi => h.held i ?_, fun i ht hn => ?_, h.dirs⟩, rfl, hr⟩
  · rwa [← hr]
  · rw [show (t.inode i).ref = r i from congrFun hr i]
    exact h.orphan i ht hn

end

/-- A call that fails leaves all inodes as they were, and no reference behind. -/
theorem failed_call_changes_nothing (sb : Super) (s : St) (cwd : Nat) (h : Rest sb s.view s)
    (hcwd : 0 < (s.inode cwd).ref) :
    (∀ path type major minor, type ≠ .none →
      wp CallStop (create sb cwd path type major minor)
        (fun x t => x = none → t.tree = s.tree ∧ t.refs = s.refs) s) ∧
    (∀ old new, wp CallStop (sysLink sb cwd old new)
      (fun x t => x = false → t.tree = s.tree ∧ t.refs = s.refs) s) ∧
    (∀ path, wp CallStop (sysUnlink sb cwd path)
      (fun x t => x = false → t.tree = s.tree ∧ t.refs = s.refs) s) := by
  have hsees : Sees CallStop sb s.Busy s.refs 0 [] s.tree s := h.sees .asleep
  refine ⟨fun path type major minor htype => ?_, fun old new => ?_, fun path => ?_⟩
  · refine wp_mono (create_ctx .noInodes .noType (h.ctx fun _ _ => .asleep) hcwd htype)
      fun x t ht hx => ?_
    cases ht with
    | failed hs _ => exact hs.rest.2
    | found | made => cases hx
  · refine wp_mono (sysLink_sees .noInodes .noType hsees hcwd) fun x t ht hx => ?_
    cases ht with
    | failed hs => exact hs.rest.2
    | done => cases hx
  · refine wp_mono (sysUnlink_sees .noInodes .noType .asleep .unlinkNlink hsees hcwd)
      fun x t ht hx => ?_
    cases ht with
    | failed hs => exact hs.rest.2
    | done => cases hx

/-! ## A full disk -/

/-- The file "a" has all blocks that the root directory has not. -/
def fullDisk : St :=
  .small (fun b => b < 10) (fun b => if b = 6 then blockOf rootBytes else fun _ => 0)
    [Dinode.zero, rootDir,
      { newFile with size := 3072, addrs := fun k => if k < 3 then 7 + k else 0 }]
    [absent, (1, false, false)]

theorem fullDisk_rest : Rest rootSuper fullDisk.dinode fullDisk :=
  St.small_rest (by decide +kernel) (by decide) (by decide) (by decide)

/-- The directory "/b" gets an inode, but no block for its entries. -/
theorem failed_call_fullDisk : ∃ t,
    create rootSuper 1 [47, 98] .dir 0 0 fullDisk = .ok (none, t) ∧ t.tree = fullDisk.tree := by
  have hrun : (create rootSuper 1 [47, 98] .dir 0 0 fullDisk).toOption.any
      (fun x => decide (x.1 = none)) = true := by decide +kernel
  obtain ⟨⟨x, t⟩, hrun, hx⟩ := exists_run hrun
  obtain rfl : x = none := of_decide_eq_true hx
  have hrest : Rest rootSuper fullDisk.view fullDisk := by
    rw [fullDisk_rest.inv.view]
    exact fullDisk_rest
  have hcreate := (failed_call_changes_nothing rootSuper fullDisk 1 hrest (by decide)).1
    [47, 98] .dir 0 0 (by decide)
  exact ⟨t, hrun, ((wp_of_eq hrun).mp hcreate rfl).1⟩

end Xv6.Fs
