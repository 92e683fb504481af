import Mathlib.Data.List.DropRight
import Xv6.Fs.Context
import Xv6.Fs.Refs

/-!
# Xv6.Fs.Resolve — what a path leads to

The elements of a path, one after the other, are its components. A walk goes from an inode to
the one that an entry names, and `namex` returns where the walk ends, or the directory before
its last step. The file system is seen as a function `T` from numbers to nodes.
-/

namespace Xv6.Fs

open Lib List

/-! ## Elements -/

/-- What `skipelem` takes from a path, one element after the other. -/
def elements (path : List Byte) : List Name :=
  match _h : skipelem path with
  | none => []
  | some (name, rest) => name :: elements rest
termination_by path.length
decreasing_by exact skipelem_length ‹_›

/-- The parts of a path between slashes that are not empty. -/
def components (path : List Byte) : List (List Byte) :=
  (path.splitOn slash).filter fun c => c ≠ []

section
variable {path rest elem : List Byte} {name : Name}

theorem elements_nil (h : skipelem path = none) : elements path = [] := by
  rw [elements]
  split
  · rfl
  · next h' =>
    rw [h] at h'
    cases h'

theorem elements_cons (h : skipelem path = some (name, rest)) :
    elements path = name :: elements rest := by
  rw [elements]
  split
  · next h' =>
    rw [h] at h'
    cases h'
  · next h' =>
    rw [h] at h'
    cases h'
    rfl

theorem components_slash (path : List Byte) : components (slash :: path) = components path := by
  have hsplit : (slash :: path).splitOn slash = [] :: path.splitOn slash :=
    splitOn_append_cons_self [] path
  rw [components, hsplit]
  rfl

theorem components_dropWhile (path : List Byte) :
    components (path.dropWhile fun c => c = slash) = components path := by
  induction path with
  | nil => rfl
  | cons c path ih =>
    by_cases hc : c = slash
    · rw [dropWhile_cons_of_pos (by simpa using hc), ih, hc, components_slash]
    · rw [dropWhile_cons_of_neg (by simpa using hc)]

theorem components_elem (helem : elem ≠ []) (hslash : slash ∉ elem) :
    components (elem ++ slash :: rest) = elem :: components rest := by
  have hsplit : (elem ++ slash :: rest).splitOn slash = [elem] ++ rest.splitOn slash := by
    rw [splitOn_append_cons_self, splitOn_eq_singleton hslash]
  rw [components, hsplit, filter_append, filter_cons_of_pos (by simpa using helem)]
  rfl

theorem components_single (helem : elem ≠ []) (hslash : slash ∉ elem) :
    components elem = [elem] := by
  rw [components, splitOn_eq_singleton hslash, filter_cons_of_pos (by simpa using helem)]
  rfl

variable {c : Byte}

theorem dropWhile_head {q : Byte → Bool} {p path : List Byte} (h : path.dropWhile q = c :: p) :
    q c = false := by
  have hhead := head_dropWhile_not (l := path) q (by rw [h]; exact cons_ne_nil c p)
  simpa only [h, head_cons] using hhead

/-- What stands before the next slash is a component. -/
theorem components_takeWhile (hc : c ≠ slash) (p : List Byte) :
    components (c :: p) = ((c :: p).takeWhile fun c => decide (c ≠ slash)) ::
      components ((c :: p).dropWhile fun c => decide (c ≠ slash)) := by
  have hne : ((c :: p).takeWhile fun c => decide (c ≠ slash)) ≠ [] := by
    rw [takeWhile_cons_of_pos (by simpa using hc)]
    exact cons_ne_nil _ _
  have hslash : slash ∉ ((c :: p).takeWhile fun c => decide (c ≠ slash)) := fun hmem => by
    simpa using mem_takeWhile_imp hmem
  conv_lhs => rw [← takeWhile_append_dropWhile (p := fun c => decide (c ≠ slash)) (l := c :: p)]
  cases hdrop : (c :: p).dropWhile fun c => decide (c ≠ slash) with
  | nil =>
    rw [append_nil, components_single hne hslash]
    rfl
  | cons d q =>
    have hd : d = slash := by simpa using dropWhile_head hdrop
    rw [hd, components_elem hne hslash, components_slash]

section
variable (h : skipelem path = some (name, rest))
include h

/-- An element is a component, cut to `DIRSIZ` bytes. -/
theorem skipelem_some :
    ∃ elem, name = elem.take DIRSIZ ∧ components path = elem :: components rest := by
  unfold skipelem at h
  simp only [Option.ite_none_left_eq_some, Option.some.injEq, Prod.mk.injEq] at h
  obtain ⟨hne, rfl, rfl⟩ := h
  refine ⟨_, rfl, ?_⟩
  rw [components_dropWhile, ← components_dropWhile path]
  cases hp : path.dropWhile fun c => decide (c = slash) with
  | nil => exact absurd hp hne
  | cons c p => exact components_takeWhile (by simpa using dropWhile_head hp) p

/-- The path after an element is empty if and only if there is no other element. -/
theorem skipelem_rest : skipelem rest = none ↔ rest = [] := by
  unfold skipelem at h
  simp only [Option.ite_none_left_eq_some, Option.some.injEq, Prod.mk.injEq] at h
  obtain ⟨-, -, hrest⟩ := h
  constructor
  · intro hnone
    have hdrop : rest.dropWhile (fun c => decide (c = slash)) = [] := by
      by_contra hne
      simp [skipelem, hne] at hnone
    rwa [← hrest, dropWhile_idempotent, hrest] at hdrop
  · rintro rfl
    rfl

theorem elements_rest : elements rest = [] ↔ rest = [] := by
  rw [← skipelem_rest h]
  constructor
  · intro hnil
    cases hskip : skipelem rest with
    | none => rfl
    | some x =>
      rw [elements_cons hskip] at hnil
      cases hnil
  · exact elements_nil

end

theorem mem_of_mem_splitOn (path : List Byte) (helem : elem ∈ path.splitOn slash) (hc : c ∈ elem) :
    c ∈ path := by
  induction path generalizing elem with
  | nil =>
    rw [splitOn_nil, mem_singleton] at helem
    rwa [helem] at hc
  | cons d path ih =>
    rw [splitOn_cons_eq_if_modifyHead] at helem
    split at helem
    · rw [mem_cons] at helem
      obtain rfl | helem := helem
      · cases hc
      · exact mem_cons_of_mem d (ih helem hc)
    obtain ⟨e, es, hsplit⟩ := exists_cons_of_ne_nil (splitOn_ne_nil slash path)
    rw [hsplit, modifyHead_cons, mem_cons] at helem
    rw [hsplit] at ih
    obtain rfl | helem := helem
    · obtain rfl | hc := mem_cons.mp hc
      · exact mem_cons_self
      · exact mem_cons_of_mem d (ih mem_cons_self hc)
    · exact mem_cons_of_mem d (ih (mem_cons_of_mem e helem) hc)

theorem mem_of_mem_components (helem : elem ∈ components path) (hc : c ∈ elem) :
    c ∈ path :=
  mem_of_mem_splitOn path (mem_of_mem_filter helem) hc

theorem elements_eq (path : List Byte) :
    elements path = (components path).map fun c => c.take DIRSIZ := by
  cases h : skipelem path with
  | none =>
    have hdrop : path.dropWhile (fun c => decide (c = slash)) = [] := by
      by_contra hne
      simp [skipelem, hne] at h
    rw [elements_nil h, ← components_dropWhile, hdrop]
    rfl
  | some x =>
    obtain ⟨name, rest⟩ := x
    obtain ⟨elem, rfl, hcomp⟩ := skipelem_some h
    rw [elements_cons h, hcomp, map_cons, elements_eq rest]
termination_by path.length
decreasing_by exact skipelem_length h

end

/-! ## Walks -/

abbrev Tree := Nat → Option Node

def Tree.isDir (T : Tree) (i : Nat) : Bool := (T i).any fun n => n.type = .dir

/-- The inode that an entry of directory `i` names. -/
def Tree.child (T : Tree) (i : Nat) (name : Name) : Option Nat :=
  (T i).bind fun n =>
    if n.type = .dir then ((entries n.bytes).lookup name).map Prod.fst else none

/-- From inode `i` along the names `es`. -/
def Tree.walk (T : Tree) (i : Nat) (es : List Name) : Option Nat := es.foldlM T.child i

/-- The directory in which the last of the names is to be looked up, and that name. -/
def Tree.parentOf (T : Tree) (i : Nat) (es : List Name) : Option (Nat × Name) :=
  es.getLast?.bind fun name => (T.walk i es.dropLast).bind fun dp =>
    if T.isDir dp then some (dp, name) else none

/-- The result of `namex`. -/
def Tree.resolve (T : Tree) (parent : Bool) (i : Nat) (es : List Name) : Option (Nat × Name) :=
  if parent then T.parentOf i es else (T.walk i es).map fun j => (j, [])

/-- All entries in use name inodes that are there. -/
def Tree.NoDangling (T : Tree) : Prop := ∀ i name j, T.child i name = some j → T j ≠ none

section
variable {T : Tree} {i j : Nat} {name : Name} {es : List Name} {v : Nat → Dinode}
  {blk : Nat → Block}

theorem node_ne_none : node v blk i ≠ none ↔ (v i).type ≠ .none := by
  unfold node
  split
  · next h => exact ⟨fun hn => absurd rfl hn, fun hn => absurd h hn⟩
  · next h => exact ⟨fun _ => h, fun _ => nofun⟩

theorem isDir_node : Tree.isDir (node v blk) i = true ↔ (v i).type = .dir := by
  unfold Tree.isDir node
  split
  · next h =>
    rw [h]
    exact ⟨nofun, nofun⟩
  · exact decide_eq_true_iff

theorem child_node (h : (v i).type = .dir) : Tree.child (node v blk) i name =
    ((entries ((v i).bytes blk)).lookup name).map Prod.fst := by
  rw [Tree.child, node, if_neg (by rw [h]; nofun)]
  exact if_pos h

theorem child_not_dir (h : T.isDir i = false) : T.child i name = none := by
  unfold Tree.isDir at h
  unfold Tree.child
  cases hn : T i with
  | none => rfl
  | some n =>
    rw [hn] at h
    exact if_neg (of_decide_eq_false h)

theorem walk_cons : T.walk i (name :: es) = (T.child i name).bind fun j => T.walk j es :=
  foldlM_cons

theorem parentOf_single : T.parentOf i [name] = if T.isDir i then some (i, name) else none := rfl

theorem parentOf_cons (h : es ≠ []) :
    T.parentOf i (name :: es) = (T.child i name).bind fun j => T.parentOf j es := by
  obtain ⟨name', es', rfl⟩ := exists_cons_of_ne_nil h
  rw [Tree.parentOf, getLast?_cons_cons, dropLast_cons_cons, walk_cons]
  cases T.child i name with
  | none =>
    cases (name' :: es').getLast? <;> rfl
  | some j => rfl

theorem isDir_of_parentOf {dp : Nat} (h : T.parentOf i es = some (dp, name)) :
    T.isDir dp = true := by
  unfold Tree.parentOf at h
  obtain ⟨n, -, h⟩ := Option.bind_eq_some_iff.mp h
  obtain ⟨j, -, h⟩ := Option.bind_eq_some_iff.mp h
  split at h
  · next hd =>
    cases h
    exact hd
  · cases h

theorem resolve_not_dir {parent : Bool} (h : T.isDir i = false) :
    T.resolve parent i (name :: es) = none := by
  cases parent with
  | true =>
    show T.parentOf i (name :: es) = none
    by_cases hes : es = []
    · rw [hes, parentOf_single, h]
      rfl
    · rw [parentOf_cons hes, child_not_dir h]
      rfl
  | false =>
    show (T.walk i (name :: es)).map _ = none
    rw [walk_cons, child_not_dir h]
    rfl

/-- A step that is not the last one of a walk to a parent. -/
theorem resolve_cons {parent : Bool} (h : ¬ (parent = true ∧ es = [])) :
    T.resolve parent i (name :: es) = (T.child i name).bind fun j => T.resolve parent j es := by
  cases parent with
  | true => exact parentOf_cons fun hes => h ⟨rfl, hes⟩
  | false =>
    show (T.walk i (name :: es)).map _ = _
    rw [walk_cons]
    cases T.child i name <;> rfl

/-- The whole walk is a lookup in the directory before its last step. -/
theorem walk_of_parentOf {dp : Nat} (h : T.parentOf i es = some (dp, name)) :
    T.walk i es = T.child dp name := by
  induction es generalizing i with
  | nil => cases h
  | cons n es ih =>
    by_cases hes : es = []
    · subst hes
      rw [parentOf_single] at h
      split at h
      · cases h
        rw [walk_cons]
        cases T.child dp name <;> rfl
      · cases h
    · rw [parentOf_cons hes] at h
      rw [walk_cons]
      cases hc : T.child i n with
      | none =>
        rw [hc] at h
        cases h
      | some j =>
        rw [hc] at h
        exact ih h

end

/-! ## namex -/

section
variable {E : Stop → Prop} {sb : Super} {B : Nat → Prop} {r : Nat → Nat} {H : Multiset Nat}
  {v : Nat → Dinode} {s : St} {parent : Bool} {ip cwd : Nat} {path : List Byte}

theorem namex_loop_ctx (parent : Bool) (fuel : Nat) (hfuel : path.length < fuel)
    (h : Ctx E sb B r (ip ::ₘ H) [] v s) (hip : (v ip).type ≠ .none ∨ E .noType)
    (hsound : Tree.NoDangling (node v s.block) ∨ E .noType)
    (hroom : usedBy sb r + (H.card + 1) < NINODE ∨ E .noInodes) :
    wp E (namex.loop sb parent fuel ip path) (fun x t =>
      x = Tree.resolve (node v s.block) parent ip (elements path) ∧
      Ctx E sb B r (x.elim H fun y => y.1 ::ₘ H) [] v t ∧ t.block = s.block) s := by
  induction fuel generalizing ip path s with
  | zero => omega
  | succ fuel ih =>
    have hmem : ip ∈ ip ::ₘ H := Multiset.mem_cons_self ip H
    have hpos : 0 < r ip + (ip ::ₘ H).count ip := by
      rw [Multiset.count_cons_self]
      omega
    rw [namex.loop]
    cases hskip : skipelem path with
    | none =>
      rw [elements_nil hskip]
      cases parent with
      | true =>
        rw [if_pos rfl]
        refine wp_call (iput_ctx h hmem not_mem_nil) fun _ t ht => ?_
        rw [Multiset.erase_cons_head] at ht
        exact wp_ret ⟨rfl, ht⟩
      | false =>
        rw [if_neg Bool.false_ne_true, wp_pure]
        exact ⟨rfl, h, rfl⟩
    | some x =>
      obtain ⟨name, rest⟩ := x
      rw [elements_cons hskip]
      refine wp_call (ilock_ctx h hpos not_mem_nil hip) fun _ t ht => ?_
      obtain ⟨hctx, hblock, htype⟩ := ht
      have hcopy : (t.inode ip).d = v ip :=
        (hctx.inv.copy ip (hctx.mine ip mem_cons_self).live).1
      have hput := iunlockput_ctx hctx hmem not_mem_nil
      rw [Multiset.erase_cons_head] at hput
      rw [wp_bind, wp_get, hcopy]
      refine wp_if (fun hno => ?_) fun hyes => ?_
      · have hfalse : Tree.isDir (node v s.block) ip = false := by
          rw [← Bool.not_eq_true, isDir_node]
          exact hno
        refine wp_call hput fun _ u hu => ?_
        rw [wp_pure, resolve_not_dir hfalse]
        exact ⟨rfl, hu.1, hu.2.trans hblock⟩
      have hdir : (v ip).type = .dir := not_not.mp hyes
      refine wp_if (fun hlast => ?_) fun hlast => ?_
      · -- stop one level early
        obtain ⟨rfl, hrest⟩ := hlast
        refine wp_call (iunlock_ctx hctx not_mem_nil) fun _ u hu => ?_
        rw [wp_pure, (elements_rest hskip).mpr hrest, Tree.resolve, if_pos rfl, parentOf_single,
          if_pos (isDir_node.mpr hdir)]
        exact ⟨rfl, hu.1, hu.2.trans hblock⟩
      rw [resolve_cons (by rwa [elements_rest hskip]), child_node hdir, wp_bind]
      refine wp_mono (dirlookup_ctx hctx mem_cons_self hdir (by
        rwa [Multiset.card_cons])) fun x u hu => ?_
      rw [hblock] at hu
      obtain ⟨rfl, hctx', hblock'⟩ := hu
      cases hfind : (entries ((v ip).bytes s.block)).lookup name with
      | none =>
        rw [hfind] at hctx'
        rw [Option.map_none, wp_bind]
        have hput' := iunlockput_ctx hctx' hmem not_mem_nil
        rw [Option.map_none, Option.elim_none, Multiset.erase_cons_head] at hput'
        refine wp_mono hput' fun _ w hw => ?_
        exact wp_ret ⟨rfl, hw.1, hw.2.trans hblock'⟩
      | some y =>
        obtain ⟨next, k⟩ := y
        rw [hfind, Option.map_some, Option.elim_some] at hctx'
        rw [Option.map_some, wp_bind]
        have hput' := iunlockput_ctx hctx' (Multiset.mem_cons_of_mem hmem) not_mem_nil
        have herase : (next ::ₘ ip ::ₘ H).erase ip = next ::ₘ H := by
          rw [Multiset.cons_swap, Multiset.erase_cons_head]
        rw [herase] at hput'
        refine wp_mono hput' fun _ w hw => ?_
        have hblockw : w.block = s.block := hw.2.trans hblock'
        have hnext : (v next).type ≠ .none ∨ E .noType := by
          refine hsound.imp_left fun hno => ?_
          refine node_ne_none.mp (hno ip name next ?_)
          rw [child_node hdir, hfind]
          rfl
        have hshort : rest.length < fuel := by
          have := skipelem_length hskip
          omega
        have hrest := ih (s := w) hshort hw.1 hnext (by rwa [hblockw])
        rw [hblockw] at hrest
        exact hrest

/-- Where a walk starts. -/
def startOf (cwd : Nat) (path : List Byte) : Nat :=
  if path.head? = some slash then ROOTINO else cwd

theorem namex_ctx (h : Ctx E sb B r H [] v s) (hcwd : 0 < r cwd)
    (hroot : (v ROOTINO).type ≠ .none ∨ E .noType)
    (hsound : Tree.NoDangling (node v s.block) ∨ E .noType)
    (hroom : usedBy sb r + (H.card + 1) < NINODE ∨ E .noInodes) :
    wp E (namex sb cwd path parent) (fun x t =>
      x = Tree.resolve (node v s.block) parent (startOf cwd path) (elements path) ∧
      Ctx E sb B r (x.elim H fun y => y.1 ::ₘ H) [] v t ∧ t.block = s.block) s := by
  have hloop : ∀ ip t, Ctx E sb B r (ip ::ₘ H) [] v t ∧ t.block = s.block →
      (v ip).type ≠ .none ∨ E .noType → wp E (namex.loop sb parent (path.length + 1) ip path)
        (fun x u => x = Tree.resolve (node v s.block) parent ip (elements path) ∧
          Ctx E sb B r (x.elim H fun y => y.1 ::ₘ H) [] v u ∧ u.block = s.block) t := by
    intro ip t ht hip
    have hwalk := namex_loop_ctx parent (path.length + 1) (Nat.lt_succ_self _) ht.1 hip
      (by rwa [ht.2]) hroom
    rwa [ht.2] at hwalk
  rw [namex, startOf]
  split
  · refine wp_call (iget_ctx h (.inr (hroom.imp_left fun hlt => ?_))) fun _ t ht =>
      hloop ROOTINO t ht hroot
    omega
  · exact wp_call (idup_ctx h (by omega)) fun _ t ht => hloop cwd t ht (.inl (h.held cwd hcwd))

end

/-! ## Between calls -/

/-- The file system between calls: referenced inodes are allocated, an inode without links is
kept by a reference, and directories consist of entries. Other processes may hold locks. -/
structure Rest (sb : Super) (v : Nat → Dinode) (s : St) : Prop where
  inv : Inv sb v s
  held : ∀ i, 0 < (s.inode i).ref → (v i).type ≠ .none
  orphan : ∀ i, (v i).type ≠ .none → (v i).nlink = 0 →
    0 < (s.inode i).ref ∧ (s.inode i).valid = true
  dirs : ∀ i, (v i).type = .dir → Aligned ((v i).bytes s.block)

/-- Why a path lookup stops: the table is full, another process holds a lock, or an entry names
an inode that is not there. -/
inductive Excuse (sb : Super) (v : Nat → Dinode) (s : St) : Stop → Prop
  | noInodes (h : NINODE ≤ s.used sb + 1) : Excuse sb v s .noInodes
  | asleep (i : Nat) (h : (s.inode i).locked = true) : Excuse sb v s .asleep
  | noType (h : ¬ (Tree.NoDangling (node v s.block) ∧ (v ROOTINO).type ≠ .none)) :
      Excuse sb v s .noType

section
variable {E : Stop → Prop} {sb : Super} {v : Nat → Dinode} {s : St}

/-- The locks and references of others. -/
def St.Busy (s : St) (i : Nat) : Prop := (s.inode i).locked = true

def St.refs (s : St) (i : Nat) : Nat := (s.inode i).ref

theorem Rest.ctx (h : Rest sb v s) (hE : ∀ i, s.Busy i → E .asleep) :
    Ctx E sb s.Busy s.refs 0 [] v s :=
  ⟨h.inv, fun _ => rfl, nofun, fun _ hi => .inr hi, fun i hi => ⟨hE i hi, h.inv.pin i hi⟩, h.held,
    h.orphan, h.dirs⟩

theorem Excuse.room (sb : Super) (v : Nat → Dinode) (s : St) :
    s.used sb + 1 < NINODE ∨ Excuse sb v s .noInodes := by
  by_contra hno
  rw [not_or] at hno
  exact hno.2 (.noInodes (le_of_not_gt hno.1))

/-- `namex` of a path, from a file system between calls. -/
theorem Rest.namex (h : Rest sb v s) {cwd : Nat} (hcwd : 0 < (s.inode cwd).ref)
    (path : List Byte) (parent : Bool) :
    wp (Excuse sb v s) (namex sb cwd path parent) (fun x t =>
      x = Tree.resolve (node v s.block) parent (startOf cwd path) (elements path) ∧
      Ctx (Excuse sb v s) sb s.Busy s.refs (x.elim 0 fun y => y.1 ::ₘ 0) [] v t ∧
      t.block = s.block) s := by
  refine namex_ctx (h.ctx fun i hi => .asleep i hi) hcwd ?_ ?_ (Excuse.room sb v s)
  · by_contra hno
    rw [not_or] at hno
    exact hno.2 (.noType fun hc => hno.1 hc.2)
  · by_contra hno
    rw [not_or] at hno
    exact hno.2 (.noType fun hc => hno.1 hc.1)

/-- The reference to the inode that is returned. -/
theorem Ctx.ref_found {B : Nat → Prop} {r : Nat → Nat} {L : List Nat} {x : Option (Nat × Name)}
    (h : Ctx E sb B r (x.elim 0 fun y => y.1 ::ₘ 0) L v s) (i : Nat) :
    (s.inode i).ref = r i + if x.map Prod.fst = some i then 1 else 0 := by
  rw [h.ref]
  cases x with
  | none => rfl
  | some y =>
    show _ + (y.1 ::ₘ 0).count i = _
    rw [Multiset.count_cons, Multiset.count_zero, Nat.zero_add]
    simp only [Option.map_some, Option.some.injEq, eq_comm]

/-- The directories between calls, on a disk given by lists. -/
theorem St.small_rest {bitmap : Nat → Bool} {block : Nat → Block} {ds : List Dinode}
    {tab : List (Nat × Bool × Bool)} (h : Small sb bitmap fun i => ds.getD i Dinode.zero)
    (hlen : ds.length ≤ sb.ninodes) (htab : ∀ i < tab.length,
      (0 < (tab.getD i absent).1 ∨ (tab.getD i absent).2.1 = true →
        (ds.getD i Dinode.zero).type ≠ .none) ∧
      ((tab.getD i absent).2.2 = true → 0 < (tab.getD i absent).1))
    (hdisk : ∀ i < ds.length, ((ds.getD i Dinode.zero).type ≠ .none →
        (ds.getD i Dinode.zero).nlink = 0 →
          0 < (tab.getD i absent).1 ∧ (tab.getD i absent).2.1 = true) ∧
      ((ds.getD i Dinode.zero).type = .dir → DESIZE ∣ (ds.getD i Dinode.zero).size)) :
    Rest sb (St.small bitmap block ds tab).dinode (St.small bitmap block ds tab) := by
  have hzero : ∀ i, ds.length ≤ i → ds.getD i Dinode.zero = Dinode.zero :=
    fun i hi => getD_eq_default _ _ hi
  have hidle : ∀ i, tab.length ≤ i → tab.getD i absent = absent :=
    fun i hi => getD_eq_default _ _ hi
  refine ⟨St.small_inv h hlen fun i hi => ⟨fun hv => (htab i hi).1 (.inr hv), (htab i hi).2⟩,
    fun i hi => ?_, fun i ht hn => ?_, fun i hd => ?_⟩
  · have hpos : 0 < (tab.getD i absent).1 := hi
    by_cases hlt : i < tab.length
    · exact (htab i hlt).1 (.inl hpos)
    · rw [hidle i (by omega)] at hpos
      cases hpos
  · have htype : (ds.getD i Dinode.zero).type ≠ .none := ht
    by_cases hlt : i < ds.length
    · exact (hdisk i hlt).1 htype hn
    · rw [hzero i (by omega)] at htype
      exact absurd rfl htype
  · have htype : (ds.getD i Dinode.zero).type = .dir := hd
    rw [Aligned, length_bytes]
    by_cases hlt : i < ds.length
    · exact (hdisk i hlt).2 htype
    · rw [hzero i (by omega)] at htype
      cases htype

end

/-! ## Path resolution -/

/-- `nameiparent`, and the last step of the walk. -/
def lookupLast (sb : Super) (cwd : Nat) (path : List Byte) : F (Option Nat) := do
  match ← nameiparent sb cwd path with
  | none => return none
  | some (dp, name) =>
    ilock dp
    return (← dirlookup sb dp name).map Prod.fst

/-- The elements of a path are its components, and the buffer holds each of them when it has
been copied. `namei` and `nameiparent` return where the walk along them ends, and take one
reference to the inode they return and no other. -/
theorem path_resolution (sb : Super) (v : Nat → Dinode) (s : St) (cwd : Nat) (path : List Byte)
    (h : Rest sb v s) (hcwd : 0 < (s.inode cwd).ref) (hnul : (0 : Byte) ∉ path) :
    elements path = (components path).map (fun c => c.take DIRSIZ) ∧
    (∀ buf, ∀ c ∈ components path, cut (copyelem buf c) = c.take DIRSIZ) ∧
    wp (Excuse sb v s) (namei sb cwd path) (fun x t =>
      x = Tree.walk (node v s.block) (startOf cwd path) (elements path) ∧
      (∀ i, (t.inode i).ref = (s.inode i).ref + if x = some i then 1 else 0) ∧
      Inv sb v t ∧ t.block = s.block) s ∧
    wp (Excuse sb v s) (nameiparent sb cwd path) (fun x t =>
      x = Tree.parentOf (node v s.block) (startOf cwd path) (elements path) ∧
      (components path = [] → x = none) ∧
      (∀ i, (t.inode i).ref = (s.inode i).ref + if x.map Prod.fst = some i then 1 else 0) ∧
      Inv sb v t ∧ t.block = s.block) s ∧
    wp (Excuse sb v s) (lookupLast sb cwd path) (fun x _ =>
      Tree.parentOf (node v s.block) (startOf cwd path) (elements path) ≠ none →
        x = Tree.walk (node v s.block) (startOf cwd path) (elements path)) s := by
  refine ⟨elements_eq path, fun buf c hc => cut_copyelem buf fun hmem => ?_, ?_, ?_, ?_⟩
  · exact hnul (mem_of_mem_components hc hmem)
  · rw [namei]
    refine wp_call (h.namex hcwd path false) fun x t ht => ?_
    obtain ⟨rfl, hctx, hblock⟩ := ht
    rw [wp_pure]
    refine ⟨?_, hctx.ref_found, hctx.inv, hblock⟩
    show ((Tree.walk _ _ _).map _).map Prod.fst = _
    rw [Option.map_map]
    exact Option.map_id'
  · refine wp_mono (h.namex hcwd path true) fun x t ht => ?_
    obtain ⟨hx, hctx, hblock⟩ := ht
    refine ⟨hx, fun hnone => ?_, hctx.ref_found, hctx.inv, hblock⟩
    rw [hx, elements_eq, hnone]
    rfl
  · rw [lookupLast]
    refine wp_call (h.namex hcwd path true) fun x t ht => ?_
    obtain ⟨hx, hctx, hblock⟩ := ht
    have hparent : x = Tree.parentOf (node v s.block) (startOf cwd path) (elements path) := hx
    rw [← hparent]
    cases x with
    | none =>
      exact wp_ret (fun hne => absurd rfl hne)
    | some y =>
      obtain ⟨dp, name⟩ := y
      have hdir : (v dp).type = .dir := isDir_node.mp (isDir_of_parentOf hparent.symm)
      refine wp_call (ilock_ctx hctx (by simp) not_mem_nil (.inl (by rw [hdir]; nofun)))
        fun _ u hu => ?_
      refine wp_call (dirlookup_ctx hu.1 mem_cons_self hdir (Excuse.room sb v s))
        fun z w hz => ?_
      rw [wp_pure]
      intro _
      rw [hz.1, walk_of_parentOf hparent.symm, child_node hdir, hu.2.1, hblock, Option.map_map]
      rfl

/-! ## A root directory -/

def rootSuper : Super := ⟨10, 4, 4, by decide, by decide, by decide⟩

/-- "." and "..", and the file "a". -/
def rootBytes : List Byte :=
  Dirent.bytes ⟨1, dot⟩ ++ Dirent.bytes ⟨1, dotdot⟩ ++ Dirent.bytes ⟨2, [97]⟩

def rootDir : Dinode :=
  { Dinode.zero with type := .dir, nlink := 1, size := 48, addrs := fun k => if k = 0 then 6 else 0 }

/-- A disk with these, and a process in the root directory. -/
def rootDisk : St :=
  .small (fun b => b < 7) (fun b => if b = 6 then blockOf rootBytes else fun _ => 0)
    [Dinode.zero, rootDir, newFile] [absent, (1, false, false)]

theorem rootDisk_rest : Rest rootSuper rootDisk.dinode rootDisk :=
  St.small_rest (by decide +kernel) (by decide) (by decide) (by decide)

/-- "/a//" is inode 2. -/
theorem path_resolution_rootDisk :
    Tree.walk (node rootDisk.dinode rootDisk.block) 1 (elements [47, 97, 47, 47]) = some 2 ∧
      ∃ t, namei rootSuper 1 [47, 97, 47, 47] rootDisk = .ok (some 2, t) ∧
        ∀ i, (t.inode i).ref = (rootDisk.inode i).ref + if some 2 = some i then 1 else 0 := by
  have hrun : (namei rootSuper 1 [47, 97, 47, 47] rootDisk).toOption.any
      (fun x => decide (x.1 = some 2)) = true := by decide +kernel
  obtain ⟨⟨x, t⟩, hrun, hx⟩ := exists_run hrun
  obtain rfl : x = some 2 := of_decide_eq_true hx
  obtain ⟨-, -, hnamei, -⟩ := path_resolution rootSuper rootDisk.dinode rootDisk 1 [47, 97, 47, 47]
    rootDisk_rest (by decide) (by decide)
  obtain ⟨hwalk, href, -⟩ := (wp_of_eq hrun).mp hnamei
  exact ⟨hwalk.symm, t, hrun, href⟩

end Xv6.Fs
