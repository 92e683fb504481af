import Xv6.Fs.Atomic
import Xv6.Sysfile.Actions
import Xv6.Sysfile.Solo

/-!
# Xv6.Sysfile.Open — an open that fails

`sys_open` makes a new file before it takes an entry of the file table and a descriptor. When it
has to give up for want of one of these it drops the inode, but neither its entry nor its link;
`create` itself, when it fails after `ialloc`, sets `nlink` to 0 so that the inode is freed.
-/

namespace Xv6.Sysfile

open Lib Fs Multiset

variable {n : Nat}

/-- There is an unused `struct file`, and an unused descriptor of the process. -/
def HasDescriptor (s : St n) (p : Fin n) : Prop :=
  (∃ f, (s.file f).ref = 0) ∧ ∃ fd, (s.proc p).ofile fd = none

/-- `open` with this mode makes a new file at the path. -/
def Creates (sb : Super) (s : St n) (cwd : Nat) (path : List Byte) (omode : BitVec 32) : Prop :=
  omode &&& O_CREATE ≠ 0 ∧ s.fs.tree.Creatable sb (fun dp => EntryRoom sb (s.fs.view dp) s.fs)
    (startOf cwd path) (elements path)

/-- The state when process `p` in the directory `cwd` enters the call: the file system is between
calls, and the unused files have been closed. -/
structure Entry (sb : Super) (s : St n) (p : Fin n) (cwd : Nat) : Prop where
  rest : Rest sb s.fs.view s.fs
  dir : (s.proc p).cwd = some cwd
  held : 0 < (s.fs.inode cwd).ref
  closed : ∀ f, (s.file f).ref = 0 → (s.file f).type = .none

section
variable {sb : Super} {s t : St n} {p : Fin n} {cwd w : Nat} {path : List Byte} {α : Type}
  {omode : BitVec 32} {r : Nat → Nat} {T : Tree} {E : Halt → Prop}

/-- A program that is an operation of the file system. -/
theorem Lifts.wp {c : Sys n α} {m : F α} {Q : α → St n → Prop} (h : Lifts p cwd w c m)
    (hcwd : (s.proc p).cwd = some cwd)
    (hm : Lib.wp (fun e => E (.fs e)) m (fun a t => Q a { s with fs := t }) s.fs) :
    Lib.wp E (c.solo w) Q s :=
  (wp_congr (h s hcwd)).mpr (wp_onFs.mpr hm)

/-- Any way to stop. -/
abbrev Any {ε : Type} (_ : ε) : Prop := True

/-- How the first part of `open` ends: nothing is found, or there is an inode, which has been
made or not. -/
inductive Opened (sb : Super) (s : St n) (cwd : Nat) (path : List Byte) (omode : BitVec 32) :
    Option Nat → St n → Prop
  | failed {t : Fs.St} (h : Sees Any sb s.fs.Busy s.fs.refs 0 [] s.fs.tree t)
      (hno : ¬ Creates sb s cwd path omode) : Opened _ _ _ _ _ none { s with fs := t }
  | got {t : Fs.St} {ip : Nat} {T : Tree}
      (h : Sees Any sb s.fs.Busy s.fs.refs (ip ::ₘ 0) [ip] T t)
      (hT : T = s.fs.tree ∧ ¬ Creates sb s cwd path omode ∨
        Creates sb s cwd path omode ∧ s.fs.tree ip = none ∧
          ∃ m, T ip = some m ∧ m.type = .file) :
      Opened _ _ _ _ _ (some ip) { s with fs := t }

theorem make_self {dp ip : Nat} {name : Name} {major minor : BitVec 16} (hne : ip ≠ dp) :
    T.make r dp ip name .file major minor ip = some ⟨.file, major, minor, 1, []⟩ := by
  rw [Tree.make, if_neg (by decide), Tree.enter, if_neg (by decide), Tree.put,
    Tree.modify_of_ne hne, Tree.born, Function.update_self]

theorem openInode_opened (h : Entry sb s p cwd) :
    wp Any ((openInode sb p path omode).solo w) (Opened sb s cwd path omode) s := by
  unfold openInode
  by_cases hc : omode &&& O_CREATE ≠ 0
  · rw [if_pos hc]
    refine (create_lifts sb path .file 0 0).wp h.dir ?_
    refine wp_mono (create_ctx trivial trivial (h.rest.ctx fun _ _ => trivial) h.held (by decide))
      fun x t ht => ?_
    cases ht with
    | failed hs why => exact .failed hs fun hcr => why (by decide) hcr.2
    | found hfile hparent hchild hn hnode hs =>
      refine .got hs (.inl ⟨rfl, fun hcr => ?_⟩)
      obtain ⟨dp, name, hp, hnone, -⟩ := hcr.2
      have heq := Option.some.inj (hp.symm.trans hparent)
      cases heq
      exact Option.some_ne_none _ (hchild.symm.trans hnone)
    | @made _ ip dp _ hparent hchild hfree hroom hs =>
      have hne : ip ≠ dp := by
        rintro rfl
        exact ne_none_of_isDir (isDir_of_parentOf hparent) hfree
      exact .got hs (.inr ⟨⟨hc, hroom (by decide)⟩, hfree, _, make_self hne, rfl⟩)
  · have hno : ¬ Creates sb s cwd path omode := fun hcr => hc hcr.1
    rw [if_neg hc, Prog.solo_bind, wp_bind]
    refine (namei_lifts sb path).wp h.dir ?_
    refine wp_mono (namei_sees (h.rest.sees trivial) h.held trivial trivial) fun x t ht => ?_
    obtain ⟨-, ht⟩ := ht
    cases x with
    | none => exact wp_ret (.failed ht hno)
    | some ip =>
      have ht : Sees Any sb s.fs.Busy s.fs.refs (ip ::ₘ 0) [] s.fs.tree t := ht
      show wp Any ((fs (ilock ip) >>= _).solo w) _ _
      rw [Prog.solo_bind, solo_fs, wp_bind, wp_onFs]
      refine wp_mono (ilock_sees ht (by rw [count_cons_self]; omega) List.not_mem_nil
        (.inr trivial)) fun _ t₁ h₁ => ?_
      rw [Prog.solo_bind, solo_fs, wp_bind, wp_onFs, copyOf, wp_bind, wp_get, wp_pure]
      split
      · rw [Prog.solo_bind, wp_bind]
        refine (iunlockput_lifts ip).wp h.dir ?_
        refine wp_mono (iunlockput_sees h₁.1 (mem_cons_self ip 0) List.not_mem_nil)
          fun _ t₂ h₂ => ?_
        rw [erase_cons_head] at h₂
        exact wp_ret (.failed h₂ hno)
      · exact wp_ret (.got h₁.1 (.inl ⟨rfl, hno⟩))

/-- How `open` ends: with a descriptor, with the file system as it was, or with a new file that
nobody has asked to keep. -/
inductive OpenEnd (sb : Super) (s : St n) (p : Fin n) (cwd : Nat) (path : List Byte)
    (omode : BitVec 32) : Bool → St n → Prop
  | ok {t : St n} (hroom : HasDescriptor s p) : OpenEnd _ _ _ _ _ _ true t
  | failed {t : St n} (h : t.fs.tree = s.fs.tree) (hno : ¬ Creates sb s cwd path omode) :
      OpenEnd _ _ _ _ _ _ false t
  | left {t : St n} (h : t.fs.tree ≠ s.fs.tree) (hyes : Creates sb s cwd path omode)
      (hfull : ¬ HasDescriptor s p) : OpenEnd _ _ _ _ _ _ false t

theorem sysOpen_ends (h : Entry sb s p cwd) :
    wp Any ((sysOpen sb p path omode).solo w) (OpenEnd sb s p cwd path omode) s := by
  unfold sysOpen
  rw [Prog.solo_bind]
  refine wp_call (openInode_opened h) fun x t ht => ?_
  cases ht with
  | failed hs hno => exact wp_ret (.failed hs.rest.2.1 hno)
  | @got t ip T hs hT =>
    obtain ⟨m, hm, htype, -, hmajor⟩ := hs.copy List.mem_cons_self
    -- the ways to fail, all of which drop the inode
    have hfail : ∀ u : St n, u.fs = t → (u.proc p).cwd = some cwd →
        (m.type ≠ .device → ¬ HasDescriptor s p) →
        wp Any ((do iunlockput ip; return false : Sys n Bool).solo w)
          (OpenEnd sb s p cwd path omode) u := by
      intro u hu hcwd hfull
      rw [Prog.solo_bind, wp_bind]
      refine (iunlockput_lifts ip).wp hcwd ?_
      rw [hu]
      refine wp_mono (iunlockput_sees hs (mem_cons_self ip 0) List.not_mem_nil)
        fun _ t₁ h₁ => ?_
      rw [erase_cons_head] at h₁
      have htree : t₁.tree = T := h₁.rest.2.1
      obtain ⟨rfl, hno⟩ | ⟨hyes, hfree, m', hm', hfile⟩ := hT
      · exact wp_ret (.failed htree hno)
      · have hmm : m' = m := Option.some.inj (hm'.symm.trans hm)
        refine wp_ret (.left (fun heq => ?_) hyes (hfull (by rw [← hmm, hfile]; decide)))
        have hsame : t₁.tree = s.fs.tree := heq
        rw [← hsame, htree, hm] at hfree
        cases hfree
    show wp Any ((fs (copyOf ip) >>= _).solo w) _ _
    rw [Prog.solo_bind, solo_fs, wp_bind, wp_onFs, copyOf, wp_bind, wp_get, wp_pure]
    split
    case isTrue hdev =>
      exact hfail _ rfl h.dir fun hnd => absurd (htype.symm.trans hdev.1) hnd
    case isFalse =>
      rw [Prog.solo_bind, Prog.solo_atomic, wp_bind, filealloc, wp_bind, wp_get]
      cases hfile : (List.finRange NFILE).find? fun f => (s.file f).ref = 0 with
      | none =>
        rw [wp_pure]
        refine hfail _ rfl h.dir fun _ hroom => ?_
        obtain ⟨⟨f, hf⟩, -⟩ := hroom
        exact List.find?_eq_none.mp hfile f (List.mem_finRange f) (decide_eq_true hf)
      | some f =>
        have hf : (s.file f).ref = 0 := by simpa using List.find?_some hfile
        rw [wp_bind, wp_setFile, wp_pure]
        show wp Any ((Prog.atomic (openFile p f ip _) >>= _).solo w) _ _
        rw [Prog.solo_bind, Prog.solo_atomic, wp_bind, openFile, wp_bind, fdalloc, wp_bind, wp_get]
        cases hfd : (List.finRange NOFILE).find? fun fd => (s.proc p).ofile fd = none with
        | none =>
          rw [wp_pure, wp_pure, if_neg Bool.false_ne_true, Prog.solo_bind, wp_bind]
          -- the file is closed again
          rw [fileclose, Prog.solo_bind, Prog.solo_atomic, wp_bind, dropFile, wp_bind, wp_get]
          simp only [Function.update_self]
          rw [if_neg (by decide), if_neg (by decide), wp_bind, wp_setFile, wp_pure, h.closed f hf]
          refine wp_ret (hfail _ rfl h.dir fun _ hroom => ?_)
          obtain ⟨-, fd, hfd'⟩ := hroom
          exact List.find?_eq_none.mp hfd fd (List.mem_finRange fd) (decide_eq_true hfd')
        | some fd =>
          have hfd' : (s.proc p).ofile fd = none := by simpa using List.find?_some hfd
          have hroom : HasDescriptor s p := ⟨⟨f, hf⟩, fd, hfd'⟩
          rw [wp_bind, wp_setOfile, wp_pure, wp_bind, wp_setFile, wp_pure, if_pos rfl]
          split
          · simp only [Prog.solo_bind, wp_bind]
            exact wp_trivial (fun _ => trivial) fun _ _ => wp_trivial (fun _ => trivial) fun _ _ =>
              wp_ret (.ok hroom)
          · simp only [Prog.solo_bind, wp_bind]
            exact wp_trivial (fun _ => trivial) fun _ _ => wp_ret (.ok hroom)

end

/-- An `open` that fails leaves the file system as it was, except where it makes a new file and
there is no `struct file` or no descriptor left. -/
theorem open_creates_nothing_iff (sb : Super) (s t : St n) (p : Fin n) (cwd w : Nat)
    (path : List Byte) (omode : BitVec 32) (x : Bool) (h : Entry sb s p cwd)
    (hrun : (sysOpen sb p path omode).solo w s = .ok (x, t)) :
    (x = false → t.fs.tree = s.fs.tree) ↔
      (Creates sb s cwd path omode → HasDescriptor s p) := by
  have hend := (wp_of_eq hrun).mp (sysOpen_ends (w := w) h)
  cases hend with
  | ok hroom => exact ⟨fun _ _ => hroom, fun _ hx => Bool.noConfusion hx⟩
  | failed htree hno => exact ⟨fun _ hyes => absurd hyes hno, fun _ _ => htree⟩
  | left htree hyes hfull =>
    exact ⟨fun hsame => absurd (hsame rfl) htree, fun hroom => absurd (hroom hyes) hfull⟩

/-! ## A process with all its descriptors open -/

/-- The file "/a" is open, and all descriptors of the process refer to it. -/
def fullTable : St 1 where
  fs := .small (fun b => b < 7) (fun b => if b = 6 then blockOf rootBytes else fun _ => 0)
    [Dinode.zero, rootDir, newFile] [absent, (1, false, false), (1, false, false)]
  proc := fun _ => ⟨.live, true, none, fun _ => some ⟨0, by decide⟩, some 1⟩
  file := fun f => if f.val = 0 then ⟨16, .inode 2⟩ else ⟨0, .none⟩
  pipe := fun _ => none

theorem fullTable_rest : Rest rootSuper fullTable.fs.dinode fullTable.fs :=
  St.small_rest (by decide +kernel) (by decide) (by decide) (by decide)

theorem fullTable_entry : Entry rootSuper fullTable 0 1 := by
  refine ⟨?_, rfl, by decide, fun f hf => ?_⟩
  · rw [fullTable_rest.inv.view]
    exact fullTable_rest
  · have hfile : fullTable.file f = if f.val = 0 then ⟨16, .inode 2⟩ else ⟨0, .none⟩ := rfl
    rw [hfile] at hf ⊢
    split at hf
    · cases hf
    · next h0 => rw [if_neg h0]

/-- `open("/b", O_CREATE | O_RDWR)` returns -1, and there is a new inode with its entry. -/
theorem open_leaves_new_file : Entry rootSuper fullTable 0 1 ∧
    ∃ t, (sysOpen rootSuper 0 [47, 98] 0x202).solo 0 fullTable = .ok (false, t) ∧
      fullTable.fs.tree 3 = none ∧ t.fs.tree 3 = some ⟨.file, 0, 0, 1, []⟩ ∧
      t.fs.tree.child 1 [98] = some 3 := by
  have hrun : ((sysOpen rootSuper 0 [47, 98] 0x202).solo 0 fullTable).toOption.any
      (fun x => decide (x.1 = false ∧ x.2.fs.tree 3 = some ⟨.file, 0, 0, 1, []⟩ ∧
        x.2.fs.tree.child 1 [98] = some 3)) = true := by decide +kernel
  obtain ⟨⟨x, t⟩, hrun, hres⟩ := exists_run hrun
  obtain ⟨rfl, hnode, hchild⟩ := of_decide_eq_true hres
  exact ⟨fullTable_entry, t, hrun, by decide +kernel, hnode, hchild⟩

/-- `open("/b", O_RDONLY)` returns -1, and nothing has changed. -/
theorem open_creates_nothing_missing : ∃ t,
    (sysOpen rootSuper 0 [47, 98] O_RDONLY).solo 0 fullTable = .ok (false, t) ∧
      t.fs.tree = fullTable.fs.tree := by
  have hrun : ((sysOpen rootSuper 0 [47, 98] O_RDONLY).solo 0 fullTable).toOption.any
      (fun x => decide (x.1 = false)) = true := by decide +kernel
  obtain ⟨⟨x, t⟩, hrun, hres⟩ := exists_run hrun
  obtain rfl : x = false := of_decide_eq_true hres
  refine ⟨t, hrun, (open_creates_nothing_iff rootSuper fullTable t 0 1 0 _ _ false fullTable_entry
    hrun).mpr (fun hcr => absurd ?_ hcr.1) rfl⟩
  decide

end Xv6.Sysfile
