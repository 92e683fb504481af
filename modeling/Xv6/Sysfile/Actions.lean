import Xv6.Sysfile.Account

/-!
# Xv6.Sysfile.Actions — what the actions do to the tokens

One specification for each action of a system call: `Does m h Q` says that `m`, run by a call
that has the tokens `h` in hand, keeps all counts exact and ends with a result and tokens in
`Q`. It may wait or stop in the file system, but it does not follow a null or dangling pointer
and does not find a reference count below one, neither in `filedup` and `fileclose` nor in `ilock`.
-/

namespace Xv6.Sysfile

open Lib Function Multiset

variable {n : Nat}

/-- The ways in which an action may fail. -/
def Admitted : Halt → Prop
  | .fs e => e ≠ .ilock
  | .initExiting | .wait => True
  | .filedup | .fileclose | .wild => False

def Does {α : Type} (m : M n α) (h : Multiset (Tok n)) (Q : α → Multiset (Tok n) → Prop) : Prop :=
  ∀ s r, Inv s (h + r) → wp Admitted m (fun a t => ∃ h', Inv t (h' + r) ∧ Q a h') s

section
variable {α β : Type} {s t : St n} {r h : Multiset (Tok n)} {p q np : Fin n} {b : Bool}
  {o o' : Fin NOFILE → Option (Fin NFILE)} {c c' : Option Nat} {f f0 f1 : Fin NFILE}
  {E : Halt → Prop} {Q : α → Multiset (Tok n) → Prop} {m : M n α}

theorem Does.atomic (hm : Does m h Q) :
    (Prog.atomic m : Sys n α).wp Admitted Inv h Q :=
  Prog.wp_atomic.mpr hm

theorem Does.choose {m : Nat → M n α} (hm : ∀ w, Does (m w) h Q) :
    (Prog.choose m : Sys n α).wp Admitted Inv h Q :=
  Prog.wp_choose.mpr hm

theorem Does.bind {k : α → M n β} {R : β → Multiset (Tok n) → Prop} (hm : Does m h Q)
    (hk : ∀ a h', Q a h' → Does (k a) h' R) :
    Does (m >>= k) h R := by
  intro s r hs
  refine wp_call (hm s r hs) ?_
  rintro a t ⟨h', hinv, hq⟩
  exact hk a h' hq t r hinv

theorem Does.pure (a : α) (hq : Q a h) :
    Does (pure a : M n α) h Q := by
  intro s r hs
  exact wp_ret ⟨h, hs, hq⟩

theorem Does.throw {e : Halt} (he : Admitted e) :
    Does (throw e : M n α) h Q := by
  intro s r _
  rw [wp_throw]
  exact he

/-- What is not used stays in hand. -/
theorem Does.frame (hm : Does m h Q) (g : Multiset (Tok n)) :
    Does m (h + g) fun a h' => ∃ h₁, h' = h₁ + g ∧ Q a h₁ := by
  intro s r hs
  rw [add_assoc] at hs
  refine wp_mono (hm s (g + r) hs) ?_
  rintro a t ⟨h', hinv, hq⟩
  exact ⟨h' + g, by rwa [add_assoc], h', rfl, hq⟩

/-! ## Primitive state changes -/

@[simp] theorem wp_setProc {Q : Unit → St n → Prop} {g : Proc n → Proc n} :
    wp E (setProc p g) Q s ↔ Q () { s with proc := update s.proc p (g (s.proc p)) } := by
  rw [setProc, wp_modify]

variable {fd : Fin NOFILE}

@[simp] theorem wp_setOfile {Q : Unit → St n → Prop} {x : Option (Fin NFILE)} :
    wp E (setOfile p fd x) Q s ↔ Q () { s with
      proc := update s.proc p
        { s.proc p with ofile := update (s.proc p).ofile fd x } } := by
  rw [setOfile, wp_setProc]

variable {x : Option Nat}

@[simp] theorem wp_setCwd {Q : Unit → St n → Prop} :
    wp E (setCwd p x) Q s ↔
      Q () { s with proc := update s.proc p { s.proc p with cwd := x } } := by
  rw [setCwd, wp_setProc]

@[simp] theorem wp_setFile {Q : Unit → St n → Prop} {g : File → File} :
    wp E (setFile f g) Q s ↔ Q () { s with file := update s.file f (g (s.file f)) } := by
  rw [setFile, wp_modify]

@[simp] theorem wp_setPipe {Q : Unit → St n → Prop} {pi : Nat} {x : Option Pipe} :
    wp E (setPipe pi x) Q s ↔ Q () { s with pipe := update s.pipe pi x } := by
  rw [setPipe, wp_modify]

theorem wp_onFs {m : Fs.F α} {Q : α → St n → Prop} :
    wp E (onFs m) Q s ↔
      wp (fun e => E (.fs e)) m (fun a t => Q a { s with fs := t }) s.fs := by
  cases hm : m s.fs with
  | ok x =>
    have hon : onFs m s = .ok (x.1, { s with fs := x.2 }) := by simp only [onFs, hm]
    rw [wp_of_eq (a := x.1) (t := x.2) hm, wp_of_eq hon]
  | error e =>
    have hon : onFs m s = .error (.fs e) := by simp only [onFs, hm]
    rw [wp_of_error hm, wp_of_error hon]

/-! ## Inodes -/

theorem onFs_does {m : Fs.F α} {I : Multiset Nat} {O : α → Multiset Nat} (hm : Fs.Moves m I O) :
    Does (onFs m : M n α) (inos I) fun a h' => h' = inos (O a) := by
  intro s r hs
  rw [wp_onFs]
  refine wp_mono (hm s.fs hs.inodes_le) fun a t ht => ?_
  exact ⟨_, hs.move ht, rfl⟩

variable {i : Nat}

theorem dupCwd_does : Does (dupCwd p) {.slots p b o (some i)} fun ip h' =>
    h' = {.slots p b o (some i)} + inos {ip} := by
  intro s r hs
  rw [dupCwd, wp_bind, wp_get, hs.procs.has.cwd]
  have hs' : Inv s (inos 0 + ({.slots p b o (some i)} + r)) := by
    rw [inos_zero, zero_add]
    exact hs
  refine wp_call (onFs_does (Fs.idup_moves i) s _ hs') ?_
  rintro - t ⟨h', hinv, rfl⟩
  exact wp_ret ⟨_, by rwa [add_comm {Tok.slots p b o (some i)}, add_assoc], rfl⟩

/-! ## Open files -/

/-- A file from the table is for nothing yet. -/
theorem filealloc_does : Does (filealloc : M n _) 0 fun x h' => h' = held .fresh x := by
  intro s r hs
  rw [zero_add] at hs
  rw [filealloc, wp_bind, wp_get]
  cases hfind : (List.finRange NFILE).find? fun f => (s.file f).ref = 0 with
  | none =>
    exact wp_ret ⟨0, by rwa [zero_add], rfl⟩
  | some f =>
    have hzero : (s.file f).ref = 0 := by simpa using List.find?_some hfind
    have hcount := hs.files.count f
    rw [wp_bind, wp_setFile, wp_pure]
    refine ⟨{.fresh f}, ?_, rfl⟩
    rw [← zero_add r] at hs
    refine hs.set_file Plain.zero (Plain.singleton fun _ => rfl) ?_ ?_ ?_ ?_ ?_ ?_
    · simp
    · simp
    · intro g hg
      simp [hg]
    · simp [hzero]
    · nofun
    · exact fun _ => ⟨rfl, hs.files.free f hzero⟩

/-- A file that is in a slot, or in the hands of somebody else, is not a fresh one. -/
theorem Files.not_fresh {T : Multiset (Tok n)} (hs : Files s T)
    (hf : 0 < uses s.fileOf f + T.count (.file f)) : T.count (.fresh f) = 0 := by
  by_contra hne
  have hone := (hs.fresh f (Nat.pos_of_ne_zero hne)).1
  have hcount := hs.count f
  omega

/-- One more reference to a file that is in a slot. -/
theorem Inv.dup_file {x : Fin n × Fin NOFILE} (hs : Inv s r) (hx : s.fileOf x = some f) :
    Inv { s with file := update s.file f { s.file f with ref := (s.file f).ref + 1 } }
      ({.file f} + r) := by
  have hfresh := hs.files.not_fresh (Nat.add_pos_left (uses_pos hx) _)
  rw [← zero_add r] at hs
  refine hs.set_file Plain.zero (Plain.singleton fun _ => rfl) ?_ ?_ ?_ ?_ ?_ ?_
  · simp
  · simp
  · intro g hg
    simp [hg]
  · simp
    omega
  · nofun
  · simp [hfresh]

/-- Such a file has been opened. -/
theorem Inv.ref_pos {x : Fin n × Fin NOFILE} (hs : Inv s r) (hx : s.fileOf x = some f) :
    0 < (s.file f).ref := by
  have hcount := hs.files.count f
  have hpos := uses_pos hx
  omega

/-- The reference goes; what the file refers to comes into hand if it was the last one. -/
theorem dropFile_does {x : Tok n} (hx : x = .file f ∨ x = .fresh f) :
    Does (dropFile f : M n FileType) {x} fun ty h' => h' = ty.toks := by
  intro s r hs
  have hplain : Plain ({x} : Multiset (Tok n)) := by
    rcases hx with rfl | rfl <;> exact Plain.singleton fun _ => rfl
  have hcount := hs.files.count f
  have hone : Multiset.count (.file f) {x} +
      Multiset.count (.fresh f) ({x} : Multiset (Tok n)) = 1 := by
    rcases hx with rfl | rfl <;> simp
  have hnode : ∀ i, .inode i ≠ x := by
    rcases hx with rfl | rfl <;> nofun
  have hend : ∀ a w, .pend a w ≠ x := by
    rcases hx with rfl | rfl <;> nofun
  have hother : ∀ g ≠ f, Multiset.count (.file g) ({x} : Multiset (Tok n)) = 0 ∧
      Multiset.count (.fresh g) ({x} : Multiset (Tok n)) = 0 := by
    intro g hg
    rcases hx with rfl | rfl <;> simp [hg]
  rw [count_add, count_add] at hcount
  rw [dropFile, wp_bind, wp_get, if_neg (by omega), wp_ite]
  constructor
  · -- somebody else refers to it, so it was not a fresh one
    intro hmany
    rw [wp_bind, wp_setFile, wp_pure]
    refine ⟨_, ?_, rfl⟩
    have hfresh : Multiset.count (.fresh f) ({x} + r) = 0 := by
      by_contra hne
      have := (hs.files.fresh f (Nat.pos_of_ne_zero hne)).1
      omega
    rw [count_add] at hfresh
    refine hs.set_file hplain (Plain.toks _) ?_ ?_ ?_ ?_ ?_ ?_
    · simp [hnode]
    · simp [hend]
    · intro g hg
      simp [hother g hg]
    · simp only [FileType.toks_none, count_zero]
      omega
    · intro (hzero : (s.file f).ref - 1 = 0)
      omega
    · intro hf
      simp only [FileType.toks_none, count_zero] at hf
      omega
  · intro hlast
    rw [wp_bind, wp_setFile, wp_pure]
    refine ⟨_, ?_, rfl⟩
    refine hs.set_file hplain (Plain.toks _) ?_ ?_ ?_ ?_ (fun _ => rfl) ?_
    · simp [hnode]
    · simp [hend]
    · intro g hg
      simp [hother g hg]
    · rw [count_file_toks, count_fresh_toks]
      show 0 + 0 + (s.file f).ref = _ + 0
      omega
    · intro hf
      rw [count_fresh_toks] at hf
      omega

/-- A fresh file gets its type, and takes over what it refers to. -/
theorem Inv.set_type {ty : FileType} (hs : Inv s ({.fresh f} + ty.toks + r)) :
    Inv { s with file := update s.file f { s.file f with type := ty } } ({.file f} + r) := by
  have hfresh := hs.files.fresh f (by simp)
  have hcount := hs.files.count f
  refine hs.set_file ((Plain.singleton fun _ => rfl).add (Plain.toks ty))
    (Plain.singleton fun _ => rfl) ?_ ?_ ?_ ?_ ?_ ?_
  · simp [hfresh.2]
  · simp [hfresh.2]
  · intro g hg
    simp [hg]
  · simp
  · simp [hfresh.1]
  · intro hf
    rw [hfresh.1] at hcount
    simp only [count_add, count_singleton_self, count_fresh_toks] at hcount
    simp only [count_singleton, reduceCtorEq, if_false] at hf
    omega

/-! ## Pipes -/

/-- A page with two open ends. -/
theorem Inv.open_pipe {a : Nat} (hs : Inv s r) (ha : s.pipe a = none) :
    Inv { s with pipe := update s.pipe a (some ⟨true, true⟩) }
      ({.pend a false} + {.pend a true} + r) := by
  rw [← zero_add r] at hs
  refine hs.set_pipe Plain.zero ((Plain.singleton fun _ => rfl).add (Plain.singleton fun _ => rfl))
    ?_ nofun ?_
  · intro w
    rw [St.isOpen, ha]
    cases w <;> simp [openEnd]
  · intro y hy
    simp [hy false, hy true]

theorem pipeinit_does (f0 f1 : Fin NFILE) (page : Nat) :
    Does (pipeinit f0 f1 page : M n Bool) ({.fresh f0} + {.fresh f1}) fun ok h' =>
      h' = if ok then {.file f0} + {.file f1} else {.fresh f0} + {.fresh f1} := by
  intro s r hs
  rw [pipeinit, wp_bind, wp_get]
  refine wp_if (fun _ => ?_) fun _ => ?_
  · exact wp_ret ⟨_, hs, rfl⟩
  refine wp_if (fun _ => by rw [wp_throw]; trivial) fun hfree => ?_
  have hfree : s.pipe page = none := not_not.mp hfree
  rw [wp_bind, wp_setPipe, wp_bind, wp_setFile, wp_bind, wp_setFile, wp_pure]
  refine ⟨_, ?_, rfl⟩
  have h1 : Inv { s with pipe := update s.pipe page (some ⟨true, true⟩) }
      ({.fresh f0} + (FileType.pipe page false).toks + ({.pend page true} + {.fresh f1} + r)) := by
    refine Inv.of_eq (hs.open_pipe hfree) ?_
    rw [FileType.toks_pipe]
    abel
  have h2 : Inv { s with
        pipe := update s.pipe page (some ⟨true, true⟩)
        file := update s.file f0 { s.file f0 with type := .pipe page false } }
      ({.fresh f1} + (FileType.pipe page true).toks + ({.file f0} + r)) := by
    refine Inv.of_eq h1.set_type ?_
    rw [FileType.toks_pipe]
    abel
  refine Inv.of_eq h2.set_type ?_
  rw [if_pos rfl]
  abel

/-- An end is closed, and with the second one the page is freed. -/
theorem pipeclose_does {a : Nat} {w : Bool} :
    Does (pipeclose a w : M n Unit) {.pend a w} fun _ h' => h' = 0 := by
  intro s r hs
  -- the end is open, and this is the only reference to it
  have hcount := hs.ends.count a w
  rw [count_add, count_singleton_self] at hcount
  rw [pipeclose, wp_bind, wp_get]
  cases ha : s.pipe a with
  | none =>
    simp only [St.isOpen, ha, openEnd] at hcount
    omega
  | some x =>
    have hopen : (if w then x.writeopen else x.readopen) = true := by
      simp only [St.isOpen, ha, openEnd] at hcount
      by_contra hne
      rw [Bool.not_eq_true] at hne
      rw [hne, Bool.toNat_false] at hcount
      omega
    have hset : ∀ y, (∀ w', openEnd y w' + (if w' = w then 1 else 0) = openEnd (some x) w') →
        y ≠ some ⟨false, false⟩ → Inv { s with pipe := update s.pipe a y } (0 + r) := by
      intro y hy hne
      refine hs.set_pipe (Plain.singleton fun _ => rfl) Plain.zero (fun w' => ?_) hne fun y hy => ?_
      · rw [St.isOpen, ha, ← hy w']
        simp [count_singleton]
      · simp [hy w]
    rcases x with ⟨ro, wo⟩
    cases w with
    | false =>
      obtain rfl : ro = true := hopen
      cases wo with
      | false => exact wp_setPipe.mpr ⟨0, hset none (by decide) (by simp), rfl⟩
      | true => exact wp_setPipe.mpr ⟨0, hset (some ⟨false, true⟩) (by decide) (by simp), rfl⟩
    | true =>
      obtain rfl : wo = true := hopen
      cases ro with
      | false => exact wp_setPipe.mpr ⟨0, hset none (by decide) (by simp), rfl⟩
      | true => exact wp_setPipe.mpr ⟨0, hset (some ⟨true, false⟩) (by decide) (by simp), rfl⟩

/-! ## Slots -/

theorem setOfile_does (fd : Fin NOFILE) {x : Option (Fin NFILE)} :
    Does (setOfile p fd x) ({.slots p b o c} + fileTok x) fun _ h' =>
      h' = {.slots p b (update o fd x) c} + fileTok (o fd) := by
  intro s r hs
  rw [wp_setOfile]
  exact ⟨_, hs.set_ofile fd, rfl⟩

theorem setCwd_does :
    Does (setCwd p x) ({.slots p b o c} + inodeTok x) fun _ h' =>
      h' = {.slots p b o x} + inodeTok c := by
  intro s r hs
  rw [wp_setCwd]
  exact ⟨_, hs.set_cwd, rfl⟩

/-- A look at slots that the call has. -/
theorem Does.get_slots {k : St n → M n β} {Q : β → Multiset (Tok n) → Prop}
    (hk : ∀ s, (s.proc p).Has b o c → Does (k s) ({.slots p b o c} + h) Q) :
    Does (get >>= k) ({.slots p b o c} + h) Q := by
  intro s r hs
  rw [wp_bind, wp_get]
  exact hk s (hs.procs.slots p b o c (by simp)) s r hs

/-- The descriptor is cleared, and its reference is in hand. -/
theorem takeFd_does : Does (takeFd p fd) {.slots p b o c} fun x h' =>
    x = o fd ∧ h' = {.slots p b (update o fd none) c} + fileTok (o fd) := by
  rw [← add_zero {Tok.slots p b o c}]
  refine Does.get_slots fun s hs => Does.bind (setOfile_does _ (x := none)) ?_
  rintro - h' rfl
  exact Does.pure _ ⟨congrFun hs.ofile fd, rfl⟩

theorem swapCwd_does :
    Does (do
      let s ← get
      setCwd p x
      return (s.proc p).cwd) ({.slots p b o c} + inodeTok x) fun y h' =>
      y = c ∧ h' = {.slots p b o x} + inodeTok c := by
  refine Does.get_slots fun s hs => Does.bind setCwd_does ?_
  rintro - h' rfl
  exact Does.pure _ ⟨hs.cwd, rfl⟩

theorem argfd_does (fd : Int) : Does (argfd p fd) {.slots p b o c} fun x h' =>
    (∀ y ∈ x, o y.1 = some y.2) ∧ h' = {.slots p b o c} := by
  rw [← add_zero {Tok.slots p b o c}]
  refine Does.get_slots fun s hs => ?_
  split
  case isTrue hfd =>
    refine Does.pure _ ⟨?_, rfl⟩
    intro y hy
    rcases Option.map_eq_some_iff.mp hy with ⟨f, hf, rfl⟩
    rw [← hs.ofile]
    exact hf
  case isFalse => exact Does.pure _ ⟨by nofun, rfl⟩

/-- `fdalloc` sets a free descriptor, if there is one. -/
theorem wp_fdalloc {Q : Option (Fin NOFILE) → St n → Prop} (hs : (s.proc p).Has b o c)
    (hnone : Q none s) (hsome : ∀ fd, o fd = none → Q (some fd) { s with
      proc := update s.proc p { s.proc p with ofile := update (s.proc p).ofile fd (some f) } }) :
    wp E (fdalloc p f) Q s := by
  rw [fdalloc, wp_bind, wp_get]
  cases hfind : (List.finRange NOFILE).find? fun fd => (s.proc p).ofile fd = none with
  | none => exact wp_ret hnone
  | some fd =>
    rw [wp_bind, wp_setOfile]
    refine wp_ret (hsome fd ?_)
    rw [← hs.ofile]
    simpa using List.find?_some hfind

/-- The descriptor takes over a reference to the file. -/
theorem Inv.set_fd (hs : Inv s ({.slots p b o c} + {.file f} + r)) (hfd : o fd = none) :
    Inv { s with
      proc := update s.proc p { s.proc p with ofile := update (s.proc p).ofile fd (some f) } }
      ({.slots p b (update o fd (some f)) c} + r) := by
  have hset := Inv.set_ofile (x := some f) fd hs
  rw [hfd] at hset
  exact hset.of_eq (congrArg (· + r) (add_zero _).symm)

/-- The reference to the file goes into a free descriptor. -/
theorem fdalloc_does : Does (fdalloc p f) ({.slots p b o c} + {.file f}) fun x h' =>
    match x with
    | none => h' = {.slots p b o c} + {.file f}
    | some fd => o fd = none ∧ h' = {.slots p b (update o fd (some f)) c} := by
  intro s r hs
  refine wp_fdalloc (hs.procs.slots p b o c (by simp)) ⟨_, hs, rfl⟩ fun fd hfd => ?_
  exact ⟨_, hs.set_fd hfd, hfd, rfl⟩

theorem openFile_does {ip : Nat} {d : Fs.Dinode} :
    Does (openFile p f ip d) ({.slots p b o c} + {.fresh f} + {.inode ip}) fun ok h' =>
      if ok then ∃ o', h' = {.slots p b o' c}
      else h' = {.slots p b o c} + {.fresh f} + {.inode ip} := by
  intro s r hs
  rw [openFile, wp_bind]
  refine wp_fdalloc (hs.procs.slots p b o c (by simp)) (wp_ret ⟨_, hs, rfl⟩) fun fd hfd => ?_
  dsimp only
  rw [wp_bind, wp_setFile, wp_pure]
  refine ⟨_, ?_, ⟨update o fd (some f), rfl⟩⟩
  -- the same as giving the file its type before its descriptor
  have htoks : (if d.type = .device then FileType.device ip d.major else .inode ip).toks =
      ({.inode ip} : Multiset (Tok n)) := by
    split <;> rfl
  have htype : Inv { s with
        file := update s.file f { s.file f with
          type := if d.type = .device then .device ip d.major else .inode ip } }
      ({.slots p b o c} + {.file f} + r) := by
    refine Inv.of_eq (Inv.set_type (s := s) (r := {.slots p b o c} + r) (hs.of_eq ?_)) ?_
    · rw [htoks]
      abel
    · abel
  exact htype.set_fd hfd

/-- The body of `sys_dup`, which sets the descriptor before it takes the reference for it. -/
theorem dup_does (fd : Int) :
    Does (do
      match ← argfd p fd with
      | none => return false
      | some (_, f) =>
        match ← fdalloc p f with
        | none => return false
        | some _ =>
          filedup f
          return true) {.slots p b o c} fun _ h' => ∃ o', h' = {.slots p b o' c} := by
  refine Does.bind (argfd_does fd) ?_
  rintro x h' ⟨hx, rfl⟩
  rcases x with _ | ⟨fd₀, f⟩
  · exact Does.pure _ ⟨o, rfl⟩
  have hf : o fd₀ = some f := hx _ rfl
  intro s r hs
  have hslot : s.fileOf (p, fd₀) = some f := (congrFun hs.procs.has.ofile fd₀).trans hf
  have hpos := hs.ref_pos hslot
  dsimp only
  rw [wp_bind]
  refine wp_fdalloc hs.procs.has (wp_ret ⟨_, hs, o, rfl⟩) fun fd₁ hfd => ?_
  dsimp only
  rw [wp_bind, filedup, wp_bind, wp_get, if_neg (by show ¬ (s.file f).ref < 1; omega), wp_setFile,
    wp_pure]
  refine ⟨_, ?_, update o fd₁ (some f), rfl⟩
  have hdup : Inv { s with
        file := update s.file f { s.file f with ref := (s.file f).ref + 1 } }
      ({.slots p b o c} + {.file f} + r) := by
    refine Inv.of_eq (hs.dup_file hslot) ?_
    abel
  exact hdup.set_fd hfd

/-- Both ends of a pipe get a descriptor, or neither. -/
theorem fdallocBoth_does :
    Does (fdallocBoth p f0 f1) ({.slots p b o c} + {.file f0} + {.file f1}) fun x h' =>
      match x with
      | none => ∃ o', h' = {.slots p b o' c} + {.file f0} + {.file f1}
      | some (fd0, fd1) => fd0 ≠ fd1 ∧ ∃ o', o' fd0 = some f0 ∧ o' fd1 = some f1 ∧
          h' = {.slots p b o' c} := by
  refine Does.bind (fdalloc_does.frame {.file f1}) ?_
  rintro x h' ⟨h₁, rfl, hx⟩
  rcases x with _ | fd0
  · exact Does.pure _ ⟨o, by rw [hx]⟩
  rcases hx with ⟨hfd0, rfl⟩
  refine Does.bind fdalloc_does ?_
  rintro y h' hy
  rcases y with _ | fd1
  · -- the first descriptor is given up again
    subst hy
    have hset := (setOfile_does (p := p) (b := b) (o := update o fd0 (some f0)) (c := c) fd0
      (x := none)).frame {.file f1}
    refine Does.bind (h := {.slots p b (update o fd0 (some f0)) c} + {.file f1}) hset ?_
    rintro - h' ⟨h₁, rfl, rfl⟩
    refine Does.pure _ ⟨update (update o fd0 (some f0)) fd0 none, ?_⟩
    rw [update_self]
    rfl
  · rcases hy with ⟨hfd1, rfl⟩
    have hne : fd0 ≠ fd1 := by
      rintro rfl
      rw [update_self] at hfd1
      cases hfd1
    refine Does.pure _ ⟨hne, _, ?_, update_self .., rfl⟩
    rw [update_of_ne hne, update_self]

/-- Two descriptors are given up. -/
theorem clearBoth_does {fd0 fd1 : Fin NOFILE} (hne : fd0 ≠ fd1) (h0 : o fd0 = some f0)
    (h1 : o fd1 = some f1) :
    Does (do
      setOfile p fd0 none
      setOfile p fd1 none) {.slots p b o c} fun _ h' =>
      ∃ o', h' = {.slots p b o' c} + {.file f0} + {.file f1} := by
  rw [← add_zero {Tok.slots p b o c}]
  refine Does.bind (setOfile_does _ (x := none)) ?_
  rintro - h' rfl
  rw [h0]
  have hset := (setOfile_does (p := p) (b := b) (o := update o fd0 none) (c := c) fd1
    (x := none)).frame {.file f0}
  rw [update_of_ne hne.symm, h1] at hset
  refine fun s r hs => wp_mono (hset s r hs) ?_
  rintro - t ⟨h', hinv, h₁, rfl, rfl⟩
  exact ⟨_, hinv, update (update o fd0 none) fd1 none, add_right_comm _ _ _⟩

/-! ## Processes -/

variable {pr : Proc n}

theorem update_same (hq : q ≠ p) : (s.proc q).Same (update s.proc p pr q) := by
  rw [update_of_ne hq]
  exact .refl _

/-- One process gives its slots. -/
theorem Inv.gain_set (hs : Inv s r) (hidle : ¬ ((s.proc p).state = .used ∨ (s.proc p).insys = true))
    (hpr : pr.Has b (s.proc p).ofile (s.proc p).cwd) :
    Inv { s with proc := update s.proc p pr }
      ({.slots p b (s.proc p).ofile (s.proc p).cwd} + r) :=
  hs.gain hidle (by rwa [update_self]) fun _ => update_same

/-- One process takes its slots back. -/
theorem Inv.lose_set (hs : Inv s ({.slots p b o c} + r)) (hin : pr.insys = false)
    (hend : pr.state = .live ∧ c ≠ none ∨
      (pr.state = .unused ∨ pr.state = .zombie) ∧ o = (fun _ => none) ∧ c = none)
    (hofile : pr.ofile = (s.proc p).ofile) (hcwd : pr.cwd = (s.proc p).cwd) :
    Inv { s with proc := update s.proc p pr } (0 + r) := by
  rw [zero_add]
  refine hs.lose ?_ ?_ ?_ ?_ fun _ => update_same
  · rwa [update_self]
  · rwa [update_self]
  · rwa [update_self]
  · rwa [update_self]

/-- A call begins with the slots of its process in hand. -/
theorem enter_does : Does (enter p) 0 fun _ h' => ∃ o i, h' = {.slots p false o (some i)} := by
  intro s r hs
  rw [zero_add] at hs
  rw [enter, wp_bind, wp_get, wp_ite]
  refine ⟨?_, fun _ => by rw [wp_throw]; trivial⟩
  rintro ⟨hlive, hidle⟩
  rcases Option.ne_none_iff_exists'.mp (hs.procs.live p hlive hidle) with ⟨i, hi⟩
  rw [wp_setProc]
  refine ⟨_, hs.gain_set (b := false) ?_ ⟨rfl, rfl, hlive, rfl⟩, (s.proc p).ofile, i, by rw [hi]⟩
  rw [hlive, hidle]
  simp

theorem leave_does : Does (leave p) {.slots p false o (some i)} fun _ h' => h' = 0 := by
  intro s r hs
  rw [leave, wp_setProc]
  exact ⟨0, hs.lose_set rfl (.inl ⟨hs.procs.has.state, by nofun⟩) rfl rfl, rfl⟩

theorem freeproc_does : Does (freeproc np) {.slots np true (fun _ => none) none}
    fun _ h' => h' = 0 := by
  intro s r hs
  rw [freeproc, wp_setProc]
  exact ⟨0, hs.lose_set hs.procs.has.insys (.inr ⟨.inl rfl, rfl, rfl⟩) rfl rfl, rfl⟩

theorem allocproc_does (mem : Nat) : Does (allocproc mem : M n _) 0 fun x h' =>
    h' = x.elim 0 fun np => {.slots np true (fun _ => none) none} := by
  intro s r hs
  rw [allocproc, wp_bind, wp_get]
  cases hfind : (List.finRange n).find? fun p => (s.proc p).state = .unused with
  | none =>
    exact wp_ret ⟨0, hs, rfl⟩
  | some np =>
    have hun : (s.proc np).state = .unused := by simpa using List.find?_some hfind
    have hdead := hs.procs.dead np (.inl hun)
    rw [zero_add] at hs
    have hgain : Inv { s with proc := update s.proc np { s.proc np with state := .used } }
        ({.slots np true (fun _ => none) none} + r) := by
      rw [← hdead.2.1, ← hdead.2.2]
      refine hs.gain_set ?_ ⟨rfl, rfl, rfl, hdead.1⟩
      rw [hun, hdead.1]
      simp
    rw [wp_bind, wp_setProc, wp_ite]
    constructor
    · intro _
      refine wp_call (freeproc_does _ r hgain) ?_
      rintro - t ⟨h', hinv, rfl⟩
      exact wp_ret ⟨0, hinv, rfl⟩
    · intro _
      exact wp_ret ⟨_, hgain, rfl⟩

/-- The child can run. -/
theorem setLive_does :
    Does (setProc np fun pr => { pr with state := .live }) {.slots np true o (some i)}
      fun _ h' => h' = 0 := by
  intro s r hs
  rw [wp_setProc]
  exact ⟨0, hs.lose_set hs.procs.has.insys (.inl ⟨rfl, by nofun⟩) rfl rfl, rfl⟩

/-- One descriptor of the child. -/
theorem dupFd_does (hfd : o' fd = none) :
    Does (dupFd p np fd) ({.slots p b o c} + {.slots np true o' c'}) fun _ h' =>
      h' = {.slots p b o c} + {.slots np true (update o' fd (o fd)) c'} := by
  refine Does.get_slots fun s hs => ?_
  rw [hs.ofile]
  cases hof : o fd with
  | none =>
    refine Does.pure _ ?_
    rw [← hfd, update_eq_self]
  | some f =>
    intro s r hs
    have hhas := hs.procs.slots p b o c (by simp)
    have hslot : s.fileOf (p, fd) = some f := (congrFun hhas.ofile fd).trans hof
    have hpos := hs.ref_pos hslot
    dsimp only
    rw [wp_bind, filedup, wp_bind, wp_get, if_neg (by omega), wp_setFile, wp_setOfile]
    refine ⟨_, ?_, rfl⟩
    have h1 : Inv { s with
          file := update s.file f { s.file f with ref := (s.file f).ref + 1 } }
        ({.slots np true o' c'} + fileTok (some f) + ({.slots p b o c} + r)) := by
      refine Inv.of_eq (hs.dup_file hslot) ?_
      show {Tok.slots np true o' c'} + {Tok.file f} + ({.slots p b o c} + r) = _
      abel
    refine Inv.of_eq (h1.set_ofile fd) ?_
    rw [hfd]
    show _ = {Tok.slots np true (update o' fd (some f)) c'} + 0 + _
    abel

/-- The current directory of the child. -/
theorem dupCwdTo_does :
    Does (do
      let ip ← dupCwd p
      setCwd np (some ip)) ({.slots p b o (some i)} + {.slots np true o' none}) fun _ h' =>
      ∃ ip, h' = {.slots p b o (some i)} + {.slots np true o' (some ip)} := by
  refine Does.bind (dupCwd_does.frame {.slots np true o' none}) ?_
  rintro ip h' ⟨h₁, rfl, rfl⟩
  have hset := (setCwd_does (p := np) (b := true) (o := o') (c := none) (x := some ip)).frame
    {.slots p b o (some i)}
  intro s r hs
  refine wp_mono (hset s r (hs.of_eq ?_)) ?_
  · show {Tok.slots np true o' none} + {Tok.inode ip} + {.slots p b o (some i)} + r =
      {Tok.slots p b o (some i)} + {Tok.inode ip} + {.slots np true o' none} + r
    abel
  · rintro - t ⟨h', hinv, h₁, rfl, rfl⟩
    refine ⟨_, hinv, ip, ?_⟩
    show {Tok.slots np true o' (some ip)} + 0 + _ = _
    abel

/-- The parent of the child, which no count depends on. -/
theorem setParent_does {x : Option (Fin n)} :
    Does (setProc np fun pr => { pr with parent := x }) h fun _ h' => h' = h := by
  intro s r hs
  rw [wp_setProc]
  have hsame : ∀ q, (s.proc q).Same (update s.proc np { s.proc np with parent := x } q) := fun q =>
    ⟨update_field Proc.state (by rfl) q, update_field Proc.insys (by rfl) q,
      update_field Proc.ofile (by rfl) q,
      update_field Proc.cwd (by rfl) q⟩
  exact ⟨h, hs.reproc (fun q => ⟨(hsame q).ofile, (hsame q).cwd⟩) (fun _ _ => rfl)
    (hs.procs.same hsame), rfl⟩

theorem endExit_does {init : Fin n} :
    Does (endExit init p) {.slots p false (fun _ => none) none} fun _ h' => h' = 0 := by
  intro s r hs
  rw [endExit, wp_modify]
  refine ⟨0, ?_, rfl⟩
  rw [zero_add]
  refine hs.lose ?_ (.inr ⟨.inr ?_, rfl, rfl⟩) ?_ ?_ ?_
  · simp
  · simp
  · simp
  · simp
  · intro q hq
    simp only [if_neg hq]
    exact ⟨rfl, rfl, rfl, rfl⟩

/-- A zombie has no references left to drop. -/
theorem kwait_does (w : Nat) : Does (kwait p w) 0 fun _ h' => h' = 0 := by
  intro s r hs
  rw [kwait, wp_bind, wp_get]
  refine wp_if (fun _ => by rw [wp_pure]; exact ⟨0, hs, rfl⟩) fun _ => ?_
  cases hfind : (List.finRange n).find? fun q =>
      (s.proc q).parent = some p ∧ (s.proc q).state = .zombie with
  | none =>
    dsimp only
    rw [wp_ite]
    exact ⟨fun _ => by rw [wp_throw]; trivial, fun _ => by rw [wp_pure]; exact ⟨0, hs, rfl⟩⟩
  | some q =>
    have hz : (s.proc q).state = .zombie := by
      have hq := List.find?_some hfind
      simp only [decide_eq_true_eq] at hq
      exact hq.2
    dsimp only
    rw [wp_bind, freeproc, wp_setProc, wp_pure]
    exact ⟨0, hs.reproc (fun q' => ⟨update_field Proc.ofile (by rfl) q',
      update_field Proc.cwd (by rfl) q'⟩)
      (fun _ _ => rfl) (hs.procs.bury hz (update_self ..) fun q' hq => update_of_ne hq ..), rfl⟩

end

end Xv6.Sysfile
