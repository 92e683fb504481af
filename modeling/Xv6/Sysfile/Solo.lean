import Xv6.Sysfile.Calls

/-!
# Xv6.Sysfile.Solo — calls that are not interrupted

The calls as programs of atomic actions, and the same code as one operation of the file system:
run alone, the programs do what the operations of `Xv6.Fs.Path` do from the current directory of
the process.
-/

namespace Xv6.Sysfile

open Lib Fs

section
variable {n : Nat} {p : Fin n} {cwd w : Nat} {α β : Type}

/-- Run alone in the directory `cwd`, the program `c` is the operation `m`. -/
def Lifts (p : Fin n) (cwd w : Nat) (c : Sys n α) (m : F α) : Prop :=
  ∀ s, (s.proc p).cwd = some cwd → c.solo w s = onFs m s

@[simp] theorem solo_fs (m : F α) : (fs m : Sys n α).solo w = onFs m := Prog.solo_atomic w (onFs m)

namespace Lifts

theorem pure (a : α) : Lifts p cwd w (Pure.pure a) (Pure.pure a) := fun _ _ => rfl

theorem fs (m : F α) : Lifts p cwd w (fs m) m := fun s _ => by
  rw [solo_fs]

/-- The second part starts where the first has come, in the same current directory. -/
theorem bind {c : Sys n α} {m : F α} {f : α → Sys n β} {g : α → F β} (hc : Lifts p cwd w c m)
    (hf : ∀ a, Lifts p cwd w (f a) (g a)) : Lifts p cwd w (c >>= f) (m >>= g) := by
  intro s hs
  have hbind : (m >>= g) s.fs = (m s.fs).bind fun x => g x.1 x.2 := rfl
  rw [Prog.solo_bind]
  show (c.solo w s).bind (fun x => (f x.1).solo w x.2) = onFs (m >>= g) s
  rw [hc s hs]
  unfold onFs
  rw [hbind]
  cases m s.fs with
  | error e => rfl
  | ok x => exact hf x.1 { s with fs := x.2 } hs

theorem ite {c : Prop} [Decidable c] {c₁ c₂ : Sys n α} {m₁ m₂ : F α} (h₁ : Lifts p cwd w c₁ m₁)
    (h₂ : Lifts p cwd w c₂ m₂) : Lifts p cwd w (if c then c₁ else c₂) (if c then m₁ else m₂) := by
  split
  · exact h₁
  · exact h₂

/-- The copy of an inode is read. -/
theorem copy {ip : Nat} {f : Dinode → Sys n β} {g : Dinode → F β}
    (hf : ∀ d, Lifts p cwd w (f d) (g d)) :
    Lifts p cwd w (Sysfile.fs (copyOf ip) >>= f) (get >>= fun s => g (s.inode ip).d) := by
  intro s hs
  rw [((fs (copyOf ip)).bind hf) s hs]
  rfl

end Lifts

/-- The actions of `iput`, one after the other, are `iput` of the file system. -/
theorem iput_lifts (ip : Nat) : Lifts p cwd w (iput ip) (Fs.iput ip) :=
  .bind (.fs _) fun _ => .ite (.bind (.fs _) fun _ => .fs _) (.pure ())

theorem iunlockput_lifts (ip : Nat) : Lifts p cwd w (iunlockput ip) (Fs.iunlockput ip) :=
  .bind (.fs _) fun _ => iput_lifts ip

/-- Between two elements of the path nobody else has moved. -/
theorem namex_loop_lifts (sb : Super) (parent : Bool) (fuel ip : Nat) (path : List Byte) :
    Lifts p cwd w (namex.loop sb parent fuel ip path) (Fs.namex.loop sb parent fuel ip path) := by
  induction fuel generalizing ip path with
  | zero => exact .pure none
  | succ fuel ih =>
    rw [namex.loop, Fs.namex.loop]
    cases skipelem path with
    | none => exact .ite (.bind (iput_lifts ip) fun _ => .pure none) (.pure _)
    | some x =>
      refine .bind (.fs _) fun _ => .copy fun d => .ite ?_ (.ite ?_ ?_)
      · exact .bind (iunlockput_lifts ip) fun _ => .pure none
      · exact .bind (.fs _) fun _ => .pure _
      · refine .bind (.fs _) fun y => ?_
        cases y with
        | none => exact .bind (iunlockput_lifts ip) fun _ => .pure none
        | some y => exact .bind (iunlockput_lifts ip) fun _ => ih y.1 x.2

/-- A relative path starts with a reference to the current directory. -/
theorem dupCwd_lifts : Lifts p cwd w (.atomic (dupCwd p)) (do idup cwd; return cwd) := by
  intro s hs
  rw [Prog.solo_atomic]
  simp only [dupCwd, bind, StateT.bind, get, getThe, MonadStateOf.get, StateT.get, Except.bind, pure,
    Except.pure, hs]
  rfl

variable (sb : Super)

theorem namex_lifts (path : List Byte) (parent : Bool) :
    Lifts p cwd w (namex sb p path parent) (Fs.namex sb cwd path parent) := by
  refine .ite (.bind (.fs _) fun _ => namex_loop_lifts sb parent _ ROOTINO path) ?_
  intro s hs
  have hrun := (dupCwd_lifts.bind fun ip =>
    namex_loop_lifts (w := w) sb parent (path.length + 1) ip path) s hs
  rw [hrun]
  rfl

theorem namei_lifts (path : List Byte) :
    Lifts p cwd w (namei sb p path) (Fs.namei sb cwd path) :=
  .bind (namex_lifts sb path false) fun _ => .pure _

theorem createEntries_lifts (dp ip : Nat) (name : Name) (type : FType) :
    Lifts p cwd w (createEntries sb dp ip name type) (Fs.createEntries sb dp ip name type) :=
  .ite (.bind (.fs _) fun _ => .ite (.bind (.fs _) fun _ => .ite (.fs _) (.pure false)) (.pure false))
    (.fs _)

/-- `create` once the name is known to be new. -/
theorem createNew_lifts (dp ip : Nat) (name : Name) (type : FType) (major minor : BitVec 16) :
    Lifts p cwd w (createNew sb dp ip name type major minor)
      (Fs.createNew sb dp ip name type major minor) := by
  refine .bind (.fs _) fun _ => .bind (.fs _) fun _ => .bind (.fs _) fun _ =>
    .bind (createEntries_lifts sb dp ip name type) fun _ => .ite (.ite ?_ ?_) ?_
  · exact .bind (.fs _) fun _ => .bind (.fs _) fun _ => .bind (iunlockput_lifts dp) fun _ => .pure _
  · exact .bind (iunlockput_lifts dp) fun _ => .pure _
  · exact .bind (.fs _) fun _ => .bind (.fs _) fun _ => .bind (iunlockput_lifts ip) fun _ =>
      .bind (iunlockput_lifts dp) fun _ => .pure _

/-- `create`, and with it `open` and `mknod`, as one process alone sees it. -/
theorem create_lifts (path : List Byte) (type : FType) (major minor : BitVec 16) :
    Lifts p cwd w (create sb p path type major minor)
      (Fs.create sb cwd path type major minor) := by
  refine .bind (namex_lifts sb path true) fun x => ?_
  cases x with
  | none => exact .pure none
  | some y =>
    refine .bind (.fs _) fun _ => .bind (.fs _) fun z => ?_
    cases z with
    | some ip =>
      refine .bind (iunlockput_lifts y.1) fun _ => .bind (.fs _) fun _ => ?_
      exact .copy (g := fun d =>
          if type = .file ∧ (d.type = .file ∨ d.type = .device) then pure (some ip.1)
          else do
            Fs.iunlockput ip.1
            return none)
        fun _ => .ite (.pure _) (.bind (iunlockput_lifts ip.1) fun _ => .pure _)
    | none =>
      refine .bind (.fs _) fun x => ?_
      cases x with
      | none => exact .bind (iunlockput_lifts y.1) fun _ => .pure _
      | some ip => exact createNew_lifts sb y.1 ip y.2 type major minor

end

end Xv6.Sysfile
