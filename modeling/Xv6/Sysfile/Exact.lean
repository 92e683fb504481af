import Xv6.Sysfile.Actions

/-!
# Xv6.Sysfile.Exact — reference counts are exact

Every system call, whichever way it goes, ends with nothing in hand but its own slots. So
between system calls all references are in the tables, and the counts are exact.

`Trades` is the specification of the code that works with inodes only. It leaves the slots of
the process alone, and what it has in hand is a multiset of inodes.
-/

namespace Xv6.Sysfile

open Lib Fs Function Multiset

variable {n : Nat} {α β : Type} {p : Fin n} {I R : Multiset Nat} {O : α → Multiset Nat}

/-! ## Code that works with inodes -/

/-- Started with the references `I`, the code ends with the references `O a`. -/
def Trades (p : Fin n) (c : Sys n α) (I : Multiset Nat) (O : α → Multiset Nat) : Prop :=
  ∀ o i, c.wp Admitted Inv ({.slots p false o (some i)} + inos I) fun a h =>
    h = {.slots p false o (some i)} + inos (O a)

theorem inos_add (I R : Multiset Nat) : (inos (I + R) : Multiset (Tok n)) = inos I + inos R :=
  map_add ..

theorem Trades.pure (a : α) (h : I = O a) : Trades p (pure a : Sys n α) I O := by
  intro o i
  rw [Prog.wp_pure, h]

variable {c : Sys n α} {k : α → Sys n β} {O' : β → Multiset Nat}

theorem Trades.bind (hc : Trades p c I O) (hk : ∀ a, Trades p (k a) (O a) O') :
    Trades p (c >>= k) I O' := by
  intro o i
  refine Prog.wp_call (hc o i) ?_
  rintro a h rfl
  exact hk a o i

/-- What is not needed stays in hand. -/
theorem Trades.frame (hc : Trades p c I O) (R : Multiset Nat) :
    Trades p c (I + R) fun a => O a + R := by
  intro o i
  refine Prog.wp_use (hc o i) (inos R) (by rw [inos_add, add_assoc]) ?_
  rintro a h rfl
  rw [inos_add, add_assoc]

/-- A call with the references `J` out of `I`. -/
theorem Trades.step {J : Multiset Nat} (hc : Trades p c J O) (R : Multiset Nat) (hI : I = J + R)
    (hk : ∀ a, Trades p (k a) (O a + R) O') :
    Trades p (c >>= k) I O' := by
  subst hI
  exact (hc.frame R).bind hk

/-- A call that needs no references and takes none. -/
theorem Trades.skip (hc : Trades p c 0 fun _ => 0) (hk : ∀ a, Trades p (k a) I O') :
    Trades p (c >>= k) I O' :=
  hc.step I (zero_add I).symm fun a => by rw [zero_add]; exact hk a

/-- An operation of the file system is one action. -/
theorem fs_trades {m : F α} (hm : Moves m I O) : Trades p (fs m) I O := by
  intro o i
  refine Prog.wp_use (onFs_does hm).atomic {.slots p false o (some i)} (add_comm _ _) ?_
  rintro a h rfl
  exact add_comm _ _

theorem fs_skip {m : F α} {k : α → Sys n β} (hm : Moves m 0 fun _ => 0)
    (hk : ∀ a, Trades p (k a) I O') : Trades p (fs m >>= k) I O' :=
  (fs_trades hm).skip hk

/-- `ilock` of an inode that the call has a reference to. -/
theorem fs_lock {ip : Nat} {k : Unit → Sys n β} (hip : ip ∈ I) (hk : Trades p (k ()) I O') :
    Trades p (fs (ilock ip) >>= k) I O' := by
  rcases exists_cons_of_mem hip with ⟨R, rfl⟩
  exact (fs_trades (ilock_moves ip)).step R (singleton_add ip R).symm fun _ => hk

theorem succeeds_trades : Trades p succeeds 0 fun _ => 0 :=
  fun _ _ => Does.choose fun _ => Does.pure _ rfl

theorem copyOf_moves (ip : Nat) : Moves (copyOf ip) 0 fun _ => 0 :=
  Moves.get_bind fun _ => Moves.pure _ rfl

/-- The reference is in hand until the last action of `iput`. -/
theorem iput_wp (ip : Nat) : (iput ip : Sys n Unit).wp Admitted Inv (inos {ip}) fun _ h => h = 0 := by
  unfold iput
  refine Prog.wp_call (onFs_does (iputBegin_moves ip)).atomic ?_
  rintro free h rfl
  cases free with
  | true =>
    refine Prog.wp_step (onFs_does (ifree_moves ip)).atomic (inos {ip}) (zero_add _).symm ?_
    rintro - h rfl
    rw [inos_zero, zero_add]
    exact (onFs_does (dropRef_moves ip)).atomic
  | false => exact rfl

theorem iput_trades (ip : Nat) : Trades p (iput ip) {ip} fun _ => 0 := by
  intro o i
  refine Prog.wp_use (iput_wp ip) {.slots p false o (some i)} (add_comm _ _) ?_
  rintro - h rfl
  exact add_comm _ _

theorem iunlockput_trades (ip : Nat) : Trades p (iunlockput ip) {ip} fun _ => 0 :=
  fs_skip (iunlock_moves ip) fun _ => iput_trades ip

/-- The last reference is put back, and the call returns. -/
theorem iunlockput_returns {ip : Nat} {a : α} (hI : I = {ip}) (h : 0 = O a) :
    Trades p (do iunlockput ip; return a) I O := by
  rw [hI]
  exact (iunlockput_trades ip).bind fun _ => Trades.pure a h

/-! ## Paths -/

/-- What a path lookup returns it has taken a reference to. -/
def found (r : Option (Nat × Name)) : Multiset Nat := r.elim 0 fun x => {x.1}

section
variable (sb : Super)

/-- The walk has a reference to where it is, and to nothing else. -/
theorem namex_loop_trades (parent : Bool) : ∀ fuel ip path, path.length < fuel →
    Trades p (namex.loop sb parent fuel ip path) {ip} found := by
  intro fuel
  induction fuel with
  | zero => exact fun _ _ h => absurd h (Nat.not_lt_zero _)
  | succ fuel ih =>
    intro ip path hlen
    unfold namex.loop
    split
    case h_1 =>
      split
      · exact (iput_trades ip).bind fun _ => Trades.pure _ rfl
      · exact Trades.pure _ rfl
    case h_2 name rest hskip =>
      refine fs_lock (mem_singleton_self ip) (fs_skip (copyOf_moves ip) fun d => ?_)
      split
      · exact iunlockput_returns rfl rfl
      split
      · exact fs_skip (iunlock_moves ip) fun _ => Trades.pure _ rfl
      refine (fs_trades (dirlookup_moves sb ip name)).step {ip} (zero_add _).symm fun r => ?_
      rcases r with _ | ⟨next, off⟩
      · exact (iunlockput_trades ip).step 0 (by rw [add_zero]; exact zero_add _) fun _ =>
          Trades.pure _ rfl
      · -- from here on with the reference to the next inode only
        refine (iunlockput_trades ip).step {next} (add_comm _ _) fun _ => ?_
        rw [zero_add]
        exact ih next rest (by have := skipelem_length hskip; omega)

theorem namex_trades (path : List Byte) (parent : Bool) :
    Trades p (namex sb p path parent) 0 found := by
  unfold namex
  split
  · exact (fs_trades (iget_moves sb ROOTINO)).bind fun _ =>
      namex_loop_trades sb parent _ _ _ (Nat.lt_succ_self _)
  · refine Trades.bind (O := fun ip => {ip}) ?_ fun ip =>
      namex_loop_trades sb parent _ _ _ (Nat.lt_succ_self _)
    intro o i
    rw [inos_zero, add_zero]
    exact dupCwd_does.atomic

theorem namei_trades (path : List Byte) :
    Trades p (namei sb p path) 0 fun r => r.elim 0 fun i => {i} := by
  refine (namex_trades sb path false).bind fun r => ?_
  cases r with
  | none => exact Trades.pure _ rfl
  | some x => exact Trades.pure _ rfl

/-! ## `create`, `link` and `unlink` -/

theorem createEntries_trades (dp ip : Nat) (name : Name) (type : FType) :
    Trades p (createEntries sb dp ip name type) 0 fun _ => 0 := by
  unfold createEntries
  split
  · refine fs_skip (dirlink_moves sb ip dot ip) fun ok => ?_
    split
    · refine fs_skip (dirlink_moves sb ip dotdot dp) fun ok => ?_
      split
      · exact fs_trades (dirlink_moves sb dp name ip)
      · exact Trades.pure _ rfl
    · exact Trades.pure _ rfl
  · exact fs_trades (dirlink_moves sb dp name ip)

/-- `dp` is put back, and `ip` is what `create` returns or is put back too. -/
theorem createNew_trades (dp ip : Nat) (name : Name) (type : FType) (major minor : BitVec 16) :
    Trades p (createNew sb dp ip name type major minor) {dp, ip} fun r => r.elim 0 fun i => {i} := by
  have hdp : ({dp, ip} : Multiset Nat) = {dp} + {ip} := rfl
  unfold createNew
  refine fs_lock (by simp) (fs_skip (setCopy_moves _) fun _ => fs_skip (iupdate_moves ip) fun _ =>
    (createEntries_trades sb dp ip name type).skip fun ok => ?_)
  split
  · split
    · refine fs_skip (setCopy_moves _) fun _ => fs_skip (iupdate_moves dp) fun _ => ?_
      exact (iunlockput_trades dp).step {ip} hdp fun _ => Trades.pure _ (zero_add _)
    · exact (iunlockput_trades dp).step {ip} hdp fun _ => Trades.pure _ (zero_add _)
  · refine fs_skip (setCopy_moves _) fun _ => fs_skip (iupdate_moves ip) fun _ => ?_
    refine (iunlockput_trades ip).step {dp} (hdp.trans (add_comm _ _)) fun _ => ?_
    exact iunlockput_returns (zero_add _) rfl

theorem create_trades (path : List Byte) (type : FType) (major minor : BitVec 16) :
    Trades p (create sb p path type major minor) 0 fun r => r.elim 0 fun i => {i} := by
  unfold create
  refine (namex_trades sb path true).bind fun r => ?_
  rcases r with _ | ⟨dp, name⟩
  · exact Trades.pure _ rfl
  refine fs_lock (mem_singleton_self dp) ?_
  refine (fs_trades (dirlookup_moves sb dp name)).step {dp} (zero_add _).symm fun r => ?_
  rcases r with _ | ⟨ip, off⟩
  · refine (fs_trades (ialloc_moves sb type)).step {dp} rfl fun r => ?_
    rcases r with _ | ip
    · exact iunlockput_returns (zero_add _) rfl
    · have h := createNew_trades (p := p) sb dp ip name type major minor
      rwa [show ({dp, ip} : Multiset Nat) = {ip} + {dp} from add_comm {dp} {ip}] at h
  · refine (iunlockput_trades dp).step {ip} (add_comm _ _) fun _ => ?_
    rw [zero_add]
    refine fs_lock (mem_singleton_self ip) (fs_skip (copyOf_moves ip) fun d => ?_)
    dsimp only
    split
    · exact Trades.pure _ rfl
    · exact iunlockput_returns rfl rfl

end

theorem linkBad_trades (ip : Nat) : Trades p (linkBad ip) {ip} fun _ => 0 :=
  fs_lock (mem_singleton_self ip) (fs_skip (setCopy_moves _) fun _ =>
    fs_skip (iupdate_moves ip) fun _ => iunlockput_returns rfl rfl)

section
variable (sb : Super)

/-- On each of its ways out `link` has put back both inodes. -/
theorem sysLink_trades (old new : List Byte) :
    Trades p (sysLink sb p old new) 0 fun _ => 0 := by
  unfold sysLink
  refine (namei_trades sb old).bind fun r => ?_
  rcases r with _ | ip
  · exact Trades.pure _ rfl
  refine fs_lock (mem_singleton_self ip) (fs_skip (copyOf_moves ip) fun d => ?_)
  split
  · exact iunlockput_returns rfl rfl
  refine fs_skip (setCopy_moves _) fun _ => fs_skip (iupdate_moves ip) fun _ =>
    fs_skip (iunlock_moves ip) fun _ => ?_
  refine (namex_trades sb new true).step {ip} (zero_add _).symm fun r => ?_
  rcases r with _ | ⟨dp, name⟩
  · have h := linkBad_trades (p := p) ip
    rwa [← zero_add ({ip} : Multiset Nat)] at h
  refine fs_lock (by simp [found]) (fs_skip (dirlink_moves sb dp name ip) fun ok => ?_)
  split
  · refine (iunlockput_trades dp).step {ip} rfl fun _ => ?_
    exact (iput_trades ip).step 0 (add_comm _ _) fun _ => Trades.pure _ rfl
  · refine (iunlockput_trades dp).step {ip} rfl fun _ => ?_
    rw [zero_add]
    exact linkBad_trades ip

/-- The end of `unlink`, with both inodes locked. -/
theorem unlinkEntry_trades (dp ip off : Nat) :
    Trades p (unlinkEntry sb dp ip off) ({ip} + {dp}) fun _ => 0 := by
  have hend : Trades p (do
      iunlockput dp
      fs (setCopy ip fun d => { d with nlink := d.nlink - 1 })
      fs (iupdate ip)
      iunlockput ip
      return true) ({ip} + {dp}) fun _ => 0 := by
    refine (iunlockput_trades dp).step {ip} (add_comm _ _) fun _ => ?_
    refine fs_skip (setCopy_moves _) fun _ => fs_skip (iupdate_moves ip) fun _ => ?_
    exact iunlockput_returns (zero_add _) rfl
  unfold unlinkEntry
  refine fs_skip (writeDirent_moves sb dp off _) fun ok => ?_
  split
  · exact fs_trades (Moves.throw nofun)
  refine fs_skip (copyOf_moves ip) fun d => ?_
  split
  · exact fs_skip (setCopy_moves _) fun _ => fs_skip (iupdate_moves dp) fun _ => hend
  · exact hend

section
variable (path : List Byte)

theorem sysUnlink_trades :
    Trades p (sysUnlink sb p path) 0 fun _ => 0 := by
  unfold sysUnlink
  refine (namex_trades sb path true).bind fun r => ?_
  rcases r with _ | ⟨dp, name⟩
  · exact Trades.pure _ rfl
  refine fs_lock (mem_singleton_self dp) ?_
  split
  · exact iunlockput_returns rfl rfl
  refine (fs_trades (dirlookup_moves sb dp name)).step {dp} (zero_add _).symm fun r => ?_
  rcases r with _ | ⟨ip, off⟩
  · exact iunlockput_returns (zero_add _) rfl
  refine fs_lock (by simp) (fs_skip (copyOf_moves ip) fun d => ?_)
  split
  · exact fs_trades (Moves.throw nofun)
  split
  · refine fs_skip (isdirempty_moves sb ip) fun ok => ?_
    split
    · exact unlinkEntry_trades sb dp ip off
    · refine (iunlockput_trades ip).step {dp} rfl fun _ => ?_
      exact iunlockput_returns (zero_add _) rfl
  · exact unlinkEntry_trades sb dp ip off

theorem sysMknod_trades (type : FType) (major minor : BitVec 16) :
    Trades p (sysMknod sb p path type major minor) 0 fun _ => 0 := by
  unfold sysMknod
  refine (create_trades sb path type major minor).bind fun r => ?_
  rcases r with _ | ip
  · exact Trades.pure _ rfl
  · exact iunlockput_returns rfl rfl

/-- The inode that goes into the file of `open`. -/
theorem openInode_trades (omode : BitVec 32) :
    Trades p (openInode sb p path omode) 0 fun r => r.elim 0 fun i => {i} := by
  unfold openInode
  split
  · exact create_trades sb path .file 0 0
  refine (namei_trades sb path).bind fun r => ?_
  rcases r with _ | ip
  · exact Trades.pure _ rfl
  refine fs_lock (mem_singleton_self ip) (fs_skip (copyOf_moves ip) fun d => ?_)
  split
  · exact iunlockput_returns rfl rfl
  · exact Trades.pure _ rfl

end

/-! ## `exec` -/

theorem readi_trades (ip off m : Nat) :
    Trades p (fs (readi sb ip (fun _ => true) off m)) 0 fun _ => 0 :=
  fs_trades (readi_moves sb ip _ off m)

theorem loadseg_trades (ip offset sz : Nat) :
    ∀ fuel i, Trades p (loadseg sb ip offset sz fuel i) 0 fun _ => 0 := by
  intro fuel
  induction fuel with
  | zero => exact fun _ => Trades.pure _ rfl
  | succ fuel ih =>
    intro i
    unfold loadseg
    dsimp only
    generalize (if sz - i < Vm.PGSIZE then sz - i else Vm.PGSIZE) = m
    split
    · refine (readi_trades sb ip _ _).skip fun r => ?_
      split
      · exact Trades.pure _ rfl
      split
      · exact Trades.pure _ rfl
      · exact ih _
    · exact Trades.pure _ rfl

theorem loadSegs_trades (ip : Nat) :
    ∀ k off, Trades p (loadSegs sb ip k off) 0 fun _ => 0 := by
  intro k
  induction k with
  | zero => exact fun _ => Trades.pure _ rfl
  | succ k ih =>
    intro off
    unfold loadSegs
    refine (readi_trades sb ip _ _).skip fun r => ?_
    split
    · exact Trades.pure _ rfl
    dsimp only
    split
    · exact Trades.pure _ rfl
    split
    · exact ih _
    split
    · exact Trades.pure _ rfl
    split
    · exact Trades.pure _ rfl
    split
    · exact Trades.pure _ rfl
    refine succeeds_trades.skip fun ok => ?_
    split
    · refine (loadseg_trades sb ip _ _ _ _).skip fun ok => ?_
      split
      · exact ih _
      · exact Trades.pure _ rfl
    · exact Trades.pure _ rfl

theorem loadElf_trades (ip : Nat) : Trades p (loadElf sb ip) 0 fun _ => 0 := by
  unfold loadElf
  refine (readi_trades sb ip _ _).skip fun r => ?_
  split
  · exact Trades.pure _ rfl
  split
  · exact Trades.pure _ rfl
  split
  · exact Trades.pure _ rfl
  refine succeeds_trades.skip fun ok => ?_
  split
  · exact loadSegs_trades sb ip _ _
  · exact Trades.pure _ rfl

theorem sysExec_trades (path : List Byte) :
    Trades p (sysExec sb p path) 0 fun _ => 0 := by
  unfold sysExec
  refine succeeds_trades.skip fun ok => ?_
  split
  · unfold kexec
    refine (namei_trades sb path).bind fun r => ?_
    rcases r with _ | ip
    · exact Trades.pure _ rfl
    refine fs_lock (mem_singleton_self ip) ((loadElf_trades sb ip).skip fun ok => ?_)
    split
    · exact (iunlockput_trades ip).bind fun _ => succeeds_trades
    · exact iunlockput_returns rfl rfl
  · exact Trades.pure _ rfl

end

/-! ## Calls that return -/

/-- The call comes back with nothing in hand but the slots of the process. -/
def Returns (p : Fin n) (c : Sys n Bool) : Prop :=
  ∀ o i, c.wp Admitted Inv {.slots p false o (some i)} fun _ h =>
    ∃ o' i', h = {.slots p false o' (some i')}

theorem Trades.returns {c : Sys n Bool} (hc : Trades p c 0 fun _ => 0) : Returns p c := by
  intro o i
  refine Prog.wp_use (hc o i) 0 (add_zero _).symm ?_
  rintro a h rfl
  exact ⟨o, i, rfl⟩

theorem Returns.pure (a : Bool) : Returns p (pure a : Sys n Bool) := fun o i => ⟨o, i, rfl⟩

/-- Code that neither needs nor takes references, in the middle of a call. -/
theorem Trades.then {o : Fin NOFILE → Option (Fin NFILE)} {i : Nat}
    {Q : β → Multiset (Tok n) → Prop} (hc : Trades p c 0 fun _ => 0)
    (hk : ∀ a, (k a).wp Admitted Inv ({.slots p false o (some i)} + inos I) Q) :
    (c >>= k).wp Admitted Inv ({.slots p false o (some i)} + inos I) Q := by
  refine Prog.wp_step (hc o i) (inos I) rfl ?_
  rintro a h rfl
  exact hk a

/-- The end of a failed call: the references in hand are dropped. -/
theorem Trades.fails {c : Sys n Unit} {ip : Nat} (hc : Trades p c {ip} fun _ => 0)
    (o : Fin NOFILE → Option (Fin NFILE)) (i : Nat) :
    (do c; return false : Sys n Bool).wp Admitted Inv ({.slots p false o (some i)} + inos {ip})
      fun _ h => ∃ o' i', h = {.slots p false o' (some i')} := by
  refine Prog.wp_call (hc o i) ?_
  rintro a h rfl
  exact ⟨o, i, rfl⟩

/-- With its last reference a file gives up what it is for. -/
theorem fileclose_wp {f : Fin NFILE} {x : Tok n} (hx : x = .file f ∨ x = .fresh f) :
    (fileclose f).wp Admitted Inv {x} fun _ h => h = 0 := by
  unfold fileclose
  refine Prog.wp_call (dropFile_does hx).atomic ?_
  rintro ty h rfl
  cases ty with
  | none => exact rfl
  | pipe pi w => exact pipeclose_does.atomic
  | inode ip => exact iput_wp ip
  | device ip major => exact iput_wp ip

/-- The inode goes to the file and the file to the descriptor, or all is given back. -/
theorem sysOpen_returns (sb : Super) (path : List Byte) (omode : BitVec 32) :
    Returns p (sysOpen sb p path omode) := by
  intro o i
  unfold sysOpen
  refine Prog.wp_step (openInode_trades sb path omode o i) 0 (add_zero _).symm ?_
  rintro r h rfl
  rw [add_zero]
  rcases r with _ | ip
  · exact ⟨o, i, rfl⟩
  refine (fs_trades (copyOf_moves ip)).then fun d => ?_
  split
  · exact (iunlockput_trades ip).fails o i
  refine Prog.wp_step filealloc_does.atomic ({.slots p false o (some i)} + inos {ip})
    (zero_add _).symm ?_
  rintro r h rfl
  rcases r with _ | f
  · exact (iunlockput_trades ip).fails o i
  refine Prog.wp_step (openFile_does (b := false) (o := o) (c := some i)).atomic 0 ?_ ?_
  · show {Tok.fresh f} + ({Tok.slots p false o (some i)} + {Tok.inode ip}) = _
    rw [add_zero]
    abel
  rintro ok h hok
  rw [add_zero]
  cases ok with
  | true =>
    rcases hok with ⟨o', rfl⟩
    have hend : Returns p (do fs (iunlock ip); return true) :=
      ((fs_trades (iunlock_moves ip)).bind fun _ => Trades.pure _ rfl).returns
    rw [if_pos rfl]
    dsimp only
    split
    · exact (fs_trades (itrunc_moves ip)).then (I := 0) fun _ => hend o' i
    · exact hend o' i
  | false =>
    obtain rfl : h = _ := hok
    refine Prog.wp_step (fileclose_wp (f := f) (.inr rfl)) ({.slots p false o (some i)} + {.inode ip})
      (by abel) ?_
    rintro - h rfl
    rw [zero_add]
    exact (iunlockput_trades ip).fails o i

/-- The descriptor is cleared first, and its reference to the file dropped then. -/
theorem sysClose_returns (fd : Int) : Returns p (sysClose p fd) := by
  intro o i
  unfold sysClose
  refine Prog.wp_call (Q := fun x h => ∃ o', h = {.slots p false o' (some i)} + fileTok x)
    (Does.atomic ?_) ?_
  · refine Does.bind (argfd_does fd) ?_
    rintro x h ⟨-, rfl⟩
    rcases x with _ | ⟨fd, f⟩
    · exact Does.pure _ ⟨o, rfl⟩
    · refine fun s r hs => wp_mono (takeFd_does s r hs) ?_
      rintro x t ⟨h', hinv, rfl, rfl⟩
      exact ⟨_, hinv, _, rfl⟩
  · rintro x h ⟨o', rfl⟩
    rcases x with _ | f
    · exact ⟨o', i, rfl⟩
    refine Prog.wp_step (fileclose_wp (f := f) (.inl rfl)) {.slots p false o' (some i)}
      (add_comm _ _) ?_
    rintro - h rfl
    exact ⟨o', i, rfl⟩

theorem sysDup_returns (fd : Int) : Returns p (sysDup p fd) := by
  intro o i
  refine Prog.wp_mono (dup_does fd).atomic ?_
  rintro a h ⟨o', rfl⟩
  exact ⟨o', i, rfl⟩

/-- Both files are closed, and the call has failed. -/
theorem closeBoth_wp {f0 f1 : Fin NFILE} {x y : Tok n} (hx : x = .file f0 ∨ x = .fresh f0)
    (hy : y = .file f1 ∨ y = .fresh f1) {γ : Type} (a : γ) :
    (do fileclose f0; fileclose f1; return a : Sys n γ).wp Admitted Inv ({x} + {y})
      fun b h => b = a ∧ h = 0 := by
  refine Prog.wp_step (fileclose_wp hx) {y} rfl ?_
  rintro - h rfl
  refine Prog.wp_step (fileclose_wp hy) 0 (add_comm _ _) ?_
  rintro - h rfl
  exact ⟨rfl, rfl⟩

/-- Two files, one for each end of the new pipe, or nothing. -/
theorem pipealloc_wp : (pipealloc : Sys n _).wp Admitted Inv 0 fun r h =>
    h = r.elim 0 fun x => {.file x.1} + {.file x.2} := by
  unfold pipealloc
  refine Prog.wp_call filealloc_does.atomic ?_
  rintro r h rfl
  rcases r with _ | f0
  · exact rfl
  refine Prog.wp_step filealloc_does.atomic {.fresh f0} (zero_add _).symm ?_
  rintro r h rfl
  rcases r with _ | f1
  · refine Prog.wp_step (fileclose_wp (f := f0) (.inr rfl)) 0 (add_comm _ _) ?_
    rintro - h rfl
    exact rfl
  refine Prog.wp_step (Does.choose (pipeinit_does f0 f1)) 0
    ((add_comm _ _).trans (add_zero _).symm) ?_
  rintro ok h rfl
  rw [add_zero]
  cases ok with
  | true => exact rfl
  | false =>
    refine Prog.wp_mono (closeBoth_wp (.inr rfl) (.inr rfl) none) ?_
    rintro r h ⟨rfl, rfl⟩
    exact rfl

/-- If the numbers cannot be written, descriptors and files are given back. -/
theorem sysPipe_returns : Returns p (sysPipe p) := by
  intro o i
  unfold sysPipe
  refine Prog.wp_step pipealloc_wp {.slots p false o (some i)} (zero_add _).symm ?_
  rintro r h rfl
  rcases r with _ | ⟨rf, wf⟩
  · exact ⟨o, i, zero_add _⟩
  refine Prog.wp_step (fdallocBoth_does (b := false) (o := o) (c := some i)).atomic 0 ?_ ?_
  · show {Tok.file rf} + {Tok.file wf} + _ = _
    rw [add_zero, add_comm, add_assoc]
  rintro r h hr
  rw [add_zero]
  have hfail : ∀ o', (do fileclose rf; fileclose wf; return false : Sys n Bool).wp Admitted Inv
      ({.slots p false o' (some i)} + {.file rf} + {.file wf}) fun _ h =>
        ∃ o' i', h = {.slots p false o' (some i')} := by
    intro o'
    refine Prog.wp_use (closeBoth_wp (.inl rfl) (.inl rfl) false) {.slots p false o' (some i)}
      (by abel) ?_
    rintro r h ⟨-, rfl⟩
    exact ⟨o', i, zero_add _⟩
  rcases r with _ | ⟨fd0, fd1⟩
  · rcases hr with ⟨o', rfl⟩
    exact hfail o'
  rcases hr with ⟨hne, o', h0, h1, rfl⟩
  refine Prog.wp_step (succeeds_trades o' i) 0 (add_zero _).symm ?_
  rintro ok h rfl
  rw [add_zero]
  cases ok with
  | true => exact ⟨o', i, rfl⟩
  | false =>
    -- both descriptors are still those of this call
    refine Prog.wp_step (clearBoth_does hne h0 h1).atomic 0 (add_zero _).symm ?_
    rintro - h ⟨o', rfl⟩
    exact hfail o'

/-! ## `fork` and `exit` -/

/-- The child has references of its own to the files and to the directory. -/
theorem kfork_returns : Returns p (kfork p) := by
  intro o i
  unfold kfork
  refine Prog.wp_step (Does.choose allocproc_does) {.slots p false o (some i)} (zero_add _).symm ?_
  rintro r h rfl
  rcases r with _ | np
  · exact ⟨o, i, zero_add _⟩
  refine Prog.wp_step (succeeds_trades o i) {.slots np true (fun _ => none) none}
    (by rw [inos_zero, add_zero]; exact add_comm _ _) ?_
  rintro ok h rfl
  rw [inos_zero, add_zero]
  cases ok with
  | true =>
    -- the descriptors that the loop has not come to are still empty in the child
    refine Prog.wp_bind.mpr (Prog.wp_mono (Prog.wp_forM (fun fds h => fds.Nodup ∧ ∃ o',
      (∀ fd ∈ fds, o' fd = none) ∧ h = {.slots p false o (some i)} + {.slots np true o' none})
      ?_ _ _ ⟨List.nodup_finRange _, _, fun _ _ => rfl, rfl⟩) ?_)
    · rintro fd fds h ⟨hnd, o', ho', rfl⟩
      rw [List.nodup_cons] at hnd
      refine Prog.wp_mono (dupFd_does (ho' fd (List.mem_cons_self ..))).atomic ?_
      rintro - h rfl
      refine ⟨hnd.2, _, fun fd' hfd' => ?_, rfl⟩
      have hne : fd' ≠ fd := fun heq => hnd.1 (heq ▸ hfd')
      rw [update_of_ne hne]
      exact ho' fd' (List.mem_cons_of_mem _ hfd')
    · rintro - h ⟨-, o', -, rfl⟩
      refine Prog.wp_call dupCwdTo_does.atomic ?_
      rintro - h ⟨ip, rfl⟩
      refine Prog.wp_call setParent_does.atomic ?_
      rintro - h rfl
      refine Prog.wp_step setLive_does.atomic {.slots p false o (some i)} (add_comm _ _) ?_
      rintro - h rfl
      exact ⟨o, i, zero_add _⟩
  | false =>
    refine Prog.wp_step freeproc_does.atomic {.slots p false o (some i)} (add_comm _ _) ?_
    rintro - h rfl
    exact ⟨o, i, zero_add _⟩

/-- Files are closed one by one, then the directory is put back. -/
theorem kexit_wp {init : Fin n} {o : Fin NOFILE → Option (Fin NFILE)} {i : Nat} :
    (kexit init p).wp Admitted Inv {.slots p false o (some i)} fun _ h => h = 0 := by
  unfold kexit
  split
  · refine Does.atomic (Does.throw ?_)
    trivial
  -- the descriptors that the loop has been at are empty
  refine Prog.wp_bind.mpr (Prog.wp_mono (Prog.wp_forM (fun fds h => ∃ o',
    (∀ fd ∉ fds, o' fd = none) ∧ h = {.slots p false o' (some i)})
    ?_ _ _ ⟨o, fun fd hfd => absurd (List.mem_finRange fd) hfd, rfl⟩) ?_)
  · rintro fd fds h ⟨o', ho', rfl⟩
    have hempty : ∀ fd' ∉ fds, update o' fd none fd' = none := by
      intro fd' hfd'
      exact update_eq_of fun heq => ho' fd' (by simp [heq, hfd'])
    refine Prog.wp_call takeFd_does.atomic ?_
    rintro x h ⟨rfl, rfl⟩
    cases hx : o' fd with
    | none => exact ⟨_, hempty, add_zero _⟩
    | some f =>
      refine Prog.wp_use (fileclose_wp (f := f) (.inl rfl)) _ (add_comm _ _) ?_
      rintro - h rfl
      exact ⟨_, hempty, zero_add _⟩
  · rintro - h ⟨o', ho', rfl⟩
    obtain rfl : o' = fun _ => none := funext fun fd => ho' fd (List.not_mem_nil)
    refine Prog.wp_step (swapCwd_does (x := none)).atomic 0 (add_zero _).symm ?_
    rintro y h ⟨rfl, rfl⟩
    refine Prog.wp_step (iput_wp i) {.slots p false (fun _ => none) none}
      ((add_zero _).trans (add_comm _ _)) ?_
    rintro - h rfl
    rw [zero_add]
    exact endExit_does.atomic

/-- The new directory is kept, and the old one put back. -/
theorem sysChdir_returns (sb : Super) (path : List Byte) : Returns p (sysChdir sb p path) := by
  intro o i
  unfold sysChdir
  refine Prog.wp_step (namei_trades sb path o i) 0 (add_zero _).symm ?_
  rintro r h rfl
  rw [add_zero]
  rcases r with _ | ip
  · exact ⟨o, i, rfl⟩
  refine Prog.wp_call (fs_trades (ilock_moves ip) o i) ?_
  rintro - h rfl
  refine (fs_trades (copyOf_moves ip)).then fun d => ?_
  split
  · exact (iunlockput_trades ip).fails o i
  refine (fs_trades (iunlock_moves ip)).then fun _ => ?_
  refine Prog.wp_step (swapCwd_does (x := some ip)).atomic 0 (add_zero _).symm ?_
  rintro y h ⟨rfl, rfl⟩
  rw [add_zero]
  refine Prog.wp_step (iput_wp i) {.slots p false o (some ip)}
    (add_comm _ _) ?_
  rintro - h rfl
  exact ⟨o, ip, rfl⟩

theorem withPath_returns {path : Path} {c : List Byte → Sys n Bool}
    (hc : ∀ path, Returns p (c path)) : Returns p (withPath path c) := by
  cases path with
  | none => exact Returns.pure false
  | some path => exact hc path

/-- The slots are in hand from the entry to the exit of a call. -/
theorem returns_wp {c : Sys n Bool} (hc : Returns p c) :
    (returns p c).wp Admitted Inv 0 fun _ h => h = 0 := by
  unfold returns
  refine Prog.wp_call enter_does.atomic ?_
  rintro - h ⟨o, i, rfl⟩
  refine Prog.wp_call (hc o i) ?_
  rintro - h ⟨o', i', rfl⟩
  exact leave_does.atomic

/-- Every system call ends with nothing in hand. -/
theorem syscall_wp (sb : Super) (init p : Fin n) (c : Call) :
    (syscall sb init p c).wp Admitted Inv 0 fun _ h => h = 0 := by
  cases c with
  | «open» path omode => exact returns_wp (withPath_returns fun path => sysOpen_returns sb path omode)
  | close fd => exact returns_wp (sysClose_returns fd)
  | dup fd => exact returns_wp (sysDup_returns fd)
  | pipe => exact returns_wp sysPipe_returns
  | fork => exact returns_wp kfork_returns
  | exit =>
    refine Prog.wp_call enter_does.atomic ?_
    rintro - h ⟨o, i, rfl⟩
    exact kexit_wp
  | wait =>
    refine returns_wp fun o i => Prog.wp_use (Does.choose kwait_does) _ (zero_add _).symm ?_
    rintro - h rfl
    exact ⟨o, i, zero_add _⟩
  | chdir path => exact returns_wp (withPath_returns (sysChdir_returns sb))
  | exec path => exact returns_wp (withPath_returns fun path => (sysExec_trades sb path).returns)
  | link old new =>
    exact returns_wp (withPath_returns fun old => withPath_returns fun new =>
      (sysLink_trades sb old new).returns)
  | unlink path => exact returns_wp (withPath_returns fun path => (sysUnlink_trades sb path).returns)
  | mkdir path =>
    exact returns_wp (withPath_returns fun path => (sysMknod_trades sb path .dir 0 0).returns)
  | mknod path major minor =>
    exact returns_wp (withPath_returns fun path =>
      (sysMknod_trades sb path .device major minor).returns)

/-! ## Runs -/

/-- At boot the one reference is that of the first process to the root. -/
theorem init_inv {init : Fin n} {s : St n} (hs : Init init s) : Inv s 0 := by
  have hproc : ∀ q, s.proc q = ⟨.live, false, none, fun _ => none, some ROOTINO⟩ ∧ q = init ∨
      s.proc q = ⟨.unused, false, none, fun _ => none, none⟩ ∧ q ≠ init := by
    intro q
    by_cases hq : q = init
    · exact .inl ⟨hq ▸ hs.first, hq⟩
    · exact .inr ⟨hs.proc q hq, hq⟩
  refine ⟨⟨fun i => ?_⟩, ⟨fun f => ?_, fun f _ => by rw [hs.file], by simp⟩,
    ⟨fun a w => ?_, fun a => ?_⟩, ⟨by simp, fun q => ?_, fun q hd => ?_, fun q hlive _ => ?_⟩⟩
  · have hfiles : uses s.ipOf i = 0 := uses_eq_zero.mpr fun f => by
      rw [St.ipOf, hs.file]
      rintro ⟨⟩
    have hcwd : s.cwdOf = update (fun _ => none) init (some ROOTINO) := by
      funext q
      rcases hproc q with ⟨hq, rfl⟩ | ⟨hq, hne⟩
      · rw [update_self, St.cwdOf, hq]
      · rw [update_of_ne hne, St.cwdOf, hq]
    have hnone : uses (fun _ : Fin n => (none : Option Nat)) i = 0 := uses_eq_zero.mpr (by simp)
    have huses := uses_update (fun _ : Fin n => (none : Option Nat)) init (some ROOTINO) i
    rw [hs.inode, hfiles, hcwd]
    simp only [reduceCtorEq, if_false, Option.some.injEq, hnone] at huses
    simp only [count_zero, eq_comm (a := i)]
    omega
  · have hslots : uses s.fileOf f = 0 := uses_eq_zero.mpr fun x => by
      rw [St.fileOf]
      rcases hproc x.1 with ⟨hq, -⟩ | ⟨hq, -⟩ <;> simp [hq]
    rw [hs.file, hslots]
    rfl
  · have hends : uses s.endOf (a, w) = 0 := uses_eq_zero.mpr fun f => by
      rw [St.endOf, hs.file]
      rintro ⟨⟩
    rw [St.isOpen, hs.pipe, hends]
    rfl
  · rw [hs.pipe]
    rintro ⟨⟩
  · rcases hproc q with ⟨hq, -⟩ | ⟨hq, -⟩ <;> rw [hq] <;> rfl
  · rcases hproc q with ⟨hq, -⟩ | ⟨hq, -⟩
    · rw [hq] at hd
      simp at hd
    · rw [hq]
      exact ⟨rfl, rfl, rfl⟩
  · rcases hproc q with ⟨hq, -⟩ | ⟨hq, -⟩
    · rw [hq]
      rintro ⟨⟩
    · rw [hq] at hlive
      cases hlive

section
variable {sb : Super} {init : Fin n} {s : Pool (St n) Nat Halt (Fin n)}

/-- A page of a pipe is there for an open end. -/
theorem Ends.allocated {s : St n} (h : Ends s 0) (a : Nat) :
    s.pipe a ≠ none ↔ ∃ f w, (s.file f).type = .pipe a w := by
  constructor
  · intro hne
    rcases Option.ne_none_iff_exists'.mp hne with ⟨⟨ro, wo⟩, hx⟩
    have hopen : ∃ w, 0 < s.isOpen a w := by
      unfold St.isOpen
      rw [hx]
      cases wo with
      | true => exact ⟨true, Nat.one_pos⟩
      | false =>
        cases ro with
        | true => exact ⟨false, Nat.one_pos⟩
        | false => exact absurd hx (h.shut a)
    rcases hopen with ⟨w, hw⟩
    rw [h.count a w, count_zero, Nat.add_zero] at hw
    by_contra hno
    refine absurd (uses_eq_zero.mpr fun f hf => hno ⟨f, w, ?_⟩) hw.ne'
    rw [St.endOf] at hf
    cases hty : (s.file f).type <;> rw [hty] at hf <;> cases hf
    rfl
  · rintro ⟨f, w, hf⟩ hnone
    have hcount := h.count a w
    have hpos : 0 < uses s.endOf (a, w) := uses_pos (a := f) (by rw [St.endOf, hf]; rfl)
    rw [St.isOpen, hnone] at hcount
    simp only [openEnd, count_zero] at hcount
    omega

/-- Between system calls the reference count of every open file is the number of descriptors for
it, that of every inode is the number of open files on it plus the number of processes that are
in it, and a pipe has its page as long as one of its ends is open. -/
theorem reference_counts_exact (h : (sys sb init).Reachable s) (hidle : ∀ p, s.pc p = none) :
    (∀ f, (s.st.file f).ref =
      uses (fun x : Fin n × Fin NOFILE => (s.st.proc x.1).ofile x.2) f) ∧
    (∀ i, (s.st.fs.inode i).ref =
      uses (fun f => if 0 < (s.st.file f).ref then (s.st.file f).type.ip else none) i +
        uses (fun p => (s.st.proc p).cwd) i) ∧
    (∀ a, s.st.pipe a ≠ none ↔
      ∃ f, 0 < (s.st.file f).ref ∧ ∃ w, (s.st.file f).type = .pipe a w) := by
  have hinv : Inv s.st 0 := Pool.reachable_idle (fun _ => init_inv) (syscall_wp sb init) h hidle
  -- a file without references refers to nothing
  have hclosed : ∀ f, ¬ 0 < (s.st.file f).ref → (s.st.file f).type = .none :=
    fun f hf => hinv.files.free f (by omega)
  refine ⟨fun f => ?_, fun i => ?_, fun a => ?_⟩
  · have hcount := hinv.files.count f
    rw [count_zero, Nat.add_zero] at hcount
    exact hcount
  · have htab : (fun f => if 0 < (s.st.file f).ref then (s.st.file f).type.ip else none) =
        s.st.ipOf := by
      funext f
      split
      · rfl
      · next hf => rw [St.ipOf, hclosed f hf, FileType.ip_none]
    have hcount := hinv.inodes.count i
    rw [count_zero, Nat.add_zero] at hcount
    rw [htab, hcount]
    rfl
  · rw [hinv.ends.allocated a]
    constructor
    · rintro ⟨f, w, hf⟩
      refine ⟨f, ?_, w, hf⟩
      by_contra hzero
      rw [hclosed f hzero] at hf
      cases hf
    · rintro ⟨f, -, w, hf⟩
      exact ⟨f, w, hf⟩

end

/-- `userinit` on a disk with an empty root directory. -/
def boot : St 2 where
  fs :=
    { bitmap := fun _ => false
      block := fun _ _ => 0
      dinode := fun i => if i = ROOTINO then { Dinode.zero with type := .dir, nlink := 1 } else .zero
      inode := fun i => ⟨if i = ROOTINO then 1 else 0, false, false, .zero⟩ }
  proc p :=
    if p = 0 then ⟨.live, false, none, fun _ => none, some ROOTINO⟩
    else ⟨.unused, false, none, fun _ => none, none⟩
  file _ := ⟨0, .none⟩
  pipe _ := none

def smallDisk : Super := ⟨100, 50, 20, by decide, by decide, by decide⟩

theorem boot_init : (sys smallDisk (0 : Fin 2)).Init ⟨boot, fun _ => none⟩ :=
  ⟨⟨rfl, fun _ hp => if_neg hp, fun _ => rfl, fun _ => rfl, fun _ => rfl⟩, fun _ => rfl⟩

/-- The first process opens the root directory, makes a pipe and forks. Then its second pipe
fails, for it has a page but `copyout` cannot write, while the child exits. -/
def forkRun : List (PoolLbl Nat (Fin 2) Call) :=
  List.flatten [
    [.call 0 (.open (some [slash]) O_RDONLY)], List.replicate 10 (.run 0 1),
    [.call 0 .pipe], List.replicate 8 (.run 0 7),
    [.call 0 .fork], List.replicate 24 (.run 0 1),
    [.call 0 .pipe], List.replicate 5 (.run 0 8),
    [.call 1 .exit], List.replicate 12 (.run 1 1),
    [.run 0 0], List.replicate 3 (.run 0 1),
    List.replicate 12 (.run 1 1), List.replicate 4 (.run 0 1)]

theorem reference_counts_exact_forkRun :
    ∃ s, (sys smallDisk (0 : Fin 2)).Reachable s ∧ s.st.pipe 7 ≠ none ∧ s.st.pipe 8 = none ∧
      ((s.st.proc 0).ofile ⟨1, by decide⟩).any (fun f => (s.st.file f).ref = 1) = true ∧
      (s.st.fs.inode ROOTINO).ref =
        uses (fun f => if 0 < (s.st.file f).ref then (s.st.file f).type.ip else none) ROOTINO +
          uses (fun p => (s.st.proc p).cwd) ROOTINO ∧
      (s.st.fs.inode ROOTINO).ref = 2 := by
  obtain ⟨s, hreach, hidle, h7, h8, hfile, hroot⟩ : ∃ s, (sys smallDisk (0 : Fin 2)).Reachable s ∧
      (∀ p, (s.pc p).isNone = true) ∧ s.st.pipe 7 ≠ none ∧ s.st.pipe 8 = none ∧
      ((s.st.proc 0).ofile ⟨1, by decide⟩).any (fun f => (s.st.file f).ref = 1) = true ∧
      (s.st.fs.inode ROOTINO).ref = 2 := System.reaches boot_init forkRun (by decide +kernel)
  have hexact := reference_counts_exact hreach fun p => Option.isNone_iff_eq_none.mp (hidle p)
  exact ⟨s, hreach, h7, h8, hfile, hexact.2.1 ROOTINO, hroot⟩

section
variable {sb : Super} {init : Fin n} {s : Pool (St n) Nat Halt (Fin n)}

/-- No system call finds a count below one, in `filedup`, in `fileclose` or in `ilock`, and none
follows a null current directory or a pointer to a pipe that is gone. Every descriptor is for an
open file, every file and every process refers to an inode that is in the table, and the end of a
pipe that a file is for is open. -/
theorem no_dangling_reference (h : (sys sb init).Reachable s) :
    (∀ p w, s.error p w ≠ some .filedup ∧ s.error p w ≠ some .fileclose ∧
      s.error p w ≠ some (.fs .ilock) ∧ s.error p w ≠ some .wild) ∧
    (∀ p fd f, (s.st.proc p).ofile fd = some f → 0 < (s.st.file f).ref) ∧
    (∀ f ip, (s.st.file f).type.ip = some ip → 0 < (s.st.fs.inode ip).ref) ∧
    (∀ p ip, (s.st.proc p).cwd = some ip → 0 < (s.st.fs.inode ip).ref) ∧
    ∀ f pi w, (s.st.file f).type = .pipe pi w → s.st.isOpen pi w = 1 := by
  have hadm : ∀ p w e, s.error p w = some e → Admitted e :=
    fun p w _ => Pool.reachable_error (fun _ => init_inv) (syscall_wp sb init) h
  rcases Pool.reachable_owned (fun _ => init_inv) (syscall_wp sb init) h with ⟨own, hinv, -⟩
  refine ⟨fun p w => ⟨hadm p w .filedup, hadm p w .fileclose, fun he => hadm p w _ he rfl,
    hadm p w .wild⟩, fun p fd f hf => hinv.ref_pos (x := (p, fd)) hf, fun f ip hip => ?_,
    fun p ip hip => ?_, fun f pi w hf => ?_⟩
  · have hcount := hinv.inodes.count ip
    have hpos : 0 < uses s.st.ipOf ip := uses_pos hip
    omega
  · have hcount := hinv.inodes.count ip
    have hpos : 0 < uses s.st.cwdOf ip := uses_pos hip
    omega
  · have hcount := hinv.ends.count pi w
    have hpos : 0 < uses s.st.endOf (pi, w) := uses_pos (a := f) (by rw [St.endOf, hf]; rfl)
    have hle := openEnd_le (s.st.pipe pi) w
    rw [St.isOpen] at hcount ⊢
    omega

end

/-- A process makes a pipe and closes its reading end: what is left is `pipeclose`. -/
def closeRun : List (PoolLbl Nat (Fin 2) Call) :=
  List.flatten [[.call 0 .pipe], List.replicate 8 (.run 0 7), [.call 0 (.close 0)],
    List.replicate 3 (.run 0 1)]

theorem no_dangling_reference_closeRun :
    ∃ s, (sys smallDisk (0 : Fin 2)).Reachable s ∧ s.error 0 1 ≠ some .wild ∧
      s.st.isOpen 7 true = 1 ∧ s.st.isOpen 7 false = 1 ∧
      ((sys smallDisk 0).step s (.run 0 1)).any (fun t => t.st.isOpen 7 false = 0) = true := by
  obtain ⟨s, hreach, ⟨f, hfile⟩, hopen, hclose⟩ : ∃ s, (sys smallDisk (0 : Fin 2)).Reachable s ∧
      (∃ f, (s.st.file f).type = .pipe 7 true) ∧ s.st.isOpen 7 false = 1 ∧
      ((sys smallDisk 0).step s (.run 0 1)).any (fun t => t.st.isOpen 7 false = 0) = true :=
    System.reaches boot_init closeRun (by decide +kernel)
  have hsafe := no_dangling_reference hreach
  exact ⟨s, hreach, (hsafe.1 0 1).2.2.2, hsafe.2.2.2.2 f 7 true hfile, hopen, hclose⟩

end Xv6.Sysfile
