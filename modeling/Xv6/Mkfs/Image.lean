import Mathlib.Algebra.GroupWithZero.Nat
import Xv6.Mkfs.Append

/-!
# Xv6.Mkfs.Image — the image that main builds

Between the calls of `main` the image is a disk on which the kernel's invariant holds, with
the inodes allocated one after the other and no block that is not needed (`Built`). Each
file is in the image as it was read, and the root directory has an entry for it
(`main_built`).
-/

namespace Xv6.Mkfs

open Lib Fs Function List

/-- Reference `k` is an indirect block, or a block of the contents. -/
def Needed (d : Dinode) (k : Nat) : Prop :=
  k = NDIRECT ∨ ∃ bn, bn * BSIZE < d.size ∧ k = dataSlot bn

/-- The type of inode `i` when the next one is number `n`. -/
def typeAt (n i : Nat) : FType :=
  if i = 0 ∨ n ≤ i then .none else if i = ROOTINO then .dir else .file

/-- The image holds `data i` in inode `i`. -/
structure Built (m : St) (data : Nat → List Byte) : Prop where
  fresh : m.Fresh
  super : m.disk 1 = sb.encode
  count : 1 ≤ m.freeinode ∧ m.freeinode ≤ maxInodes
  inv : Fs.Inv wide m.abs.dinode m.abs
  type : ∀ i, (m.abs.dinode i).type = typeAt m.freeinode i
  size : ∀ i, 0 < i → i < m.freeinode → (m.abs.dinode i).size = (data i).length
  bytes : ∀ i, 0 < i → i < m.freeinode →
    contents (m.abs.dinode i) m.abs.block 0 (data i).length = data i
  tight : ∀ i k, 0 < i → i < m.freeinode → slot (m.abs.dinode i) m.abs.block k ≠ 0 →
    Needed (m.abs.dinode i) k
  tail : ∀ i p, 0 < i → i < m.freeinode → (m.abs.dinode i).size ≤ p →
    slot (m.abs.dinode i) m.abs.block (dataSlot (p / BSIZE)) ≠ 0 →
    content (m.abs.dinode i) m.abs.block p = 0

section
variable {m t : St} {data : Nat → List Byte} {E : Fail → Prop} {i : Nat} {p : List Byte}

theorem typeAt_ne_none {n : Nat} (h0 : 0 < i) (hn : i < n) : typeAt n i ≠ .none := by
  unfold typeAt
  rw [if_neg (by omega)]
  split <;> decide

theorem Built.allocated (h : Built m data) (h0 : 0 < i) (hi : i < m.freeinode) :
    (m.abs.dinode i).type ≠ .none := by
  rw [h.type i]
  exact typeAt_ne_none h0 hi

/-! ## iappend -/

theorem touched_le (off : Nat) (hp : p.length ≤ BSIZE) : touched off p.length ≤ 2 := by
  unfold touched BSIZE at *
  split <;> omega

variable {d : Dinode}

/-- The table entry of an image is empty again. -/
theorem opened_close (s : Fs.St) (hs : s.inode i = ⟨0, false, false, Dinode.zero⟩) :
    ({ opened s i d with
       inode := update (opened s i d).inode i ⟨0, false, false, Dinode.zero⟩ } : Fs.St) =
      s := by
  refine Fs.St.ext rfl rfl rfl ?_
  show update (update s.inode i _) i _ = s.inode
  rw [update_idem, ← hs, update_eq_self]

/-- Contents that agree with a list byte by byte are the list. -/
theorem contents_eq_list {blk : Nat → Block} {off : Nat}
    (h : ∀ k < p.length, some (content d blk (off + k)) = p[k]?) :
    contents d blk off p.length = p := by
  have hlen : (contents d blk off p.length).length = p.length := by
    rw [contents, length_map, length_range]
  refine ext_getElem hlen fun k h₁ h₂ => ?_
  have hk := h k h₂
  rw [getElem?_eq_getElem h₂] at hk
  simp only [contents, getElem_map, getElem_range]
  exact Option.some.inj hk

theorem Needed.mono {d' : Dinode} {k : Nat} (h : Needed d k) (hle : d.size ≤ d'.size) :
    Needed d' k := by
  rcases h with hind | ⟨bn, hbn, hk⟩
  · exact .inl hind
  · exact .inr ⟨bn, by omega, hk⟩

theorem iappend_spec (h : Built m data) (h0 : 0 < i) (hi : i < m.freeinode) (hp : p.length ≤ BSIZE)
    (hE : ((data i).length + p.length ≤ MAXFILE * BSIZE ∧ m.freeblock + 4 ≤ FSSIZE) ∨ ∀ e, E e) :
    wp E (iappend i p) (fun _ t => Built t (update data i (data i ++ p)) ∧
      t.freeinode = m.freeinode ∧ t.freeblock ≤ m.freeblock + 4) m := by
  have htype := h.allocated h0 hi
  have hsize := h.size i h0 hi
  have htouched := touched_le (p := p) (m.abs.dinode i).size hp
  refine wp_mono (iappend_writei h.fresh (lt_of_lt_of_le hi h.count.2) h.inv htype ?_ ?_)
    fun _ t ht => ?_
  · refine hE.imp (fun hroom => ?_) fun hall => hall _
    rw [hsize]
    exact hroom.1
  · refine hE.imp (fun hroom => ?_) fun hall => hall _
    omega
  rcases ht with ⟨hfresh, hcount, hsuper, hroom, hrun⟩
  have hopen : Fs.Inv wide m.abs.dinode (opened m.abs i (m.abs.dinode i)) :=
    h.inv.setEntry (fun _ => ⟨rfl, htype⟩) (fun _ => rfl) fun _ => Nat.one_pos
  have hlock : ((opened m.abs i (m.abs.dinode i)).inode i).locked = true := by
    simp only [opened, update_self]
  have hn : p.length < 2 ^ 32 := lt_of_le_of_lt hp (by decide)
  rcases (wp_of_eq (E := fun _ => True) hrun).mp (writei_spec hopen trivial opened_live hlock hn) with
    ⟨hnone, -⟩ | ⟨n, e, w, hlen, -, -, -, hw⟩
  · cases hnone
  cases hlen
  -- all bytes are written
  obtain rfl : e = p.length := le_antisymm hw.ended.le.2 hw.ended.le.1
  -- the inodes that are now to be seen are those of the image
  have hview : w = t.abs.dinode := by
    rw [← hw.inv.view]
    funext j
    unfold St.view
    by_cases hj : j = i
    · subst hj
      simp [opened]
    · simp [opened, update_of_ne hj, St.abs]
  subst hview
  have hnew : (t.abs.dinode i).size = (m.abs.dinode i).size + p.length := by
    rw [hw.fields]
    show max (m.abs.dinode i).size ((m.abs.dinode i).size + p.length) = _
    omega
  refine ⟨⟨hfresh, hsuper.trans h.super, by rw [hcount]; exact h.count, ?_, fun j => ?_,
    fun j hj0 hj => ?_, fun j hj0 hj => ?_, fun j k hj0 hj hk => ?_, fun j p hj0 hj hp hk => ?_⟩,
    hcount, by omega⟩
  · have hclose := hw.inv.setEntry (i := i) (x := ⟨0, false, false, Dinode.zero⟩)
      (fun hl => absurd hl.2 (by decide)) (fun _ => rfl) (by rintro ⟨⟩)
    rwa [opened_close t.abs rfl] at hclose
  · rw [hcount, ← h.type j]
    by_cases hji : j = i
    · rw [hji, hw.fields]
    · rw [hw.other j hji]
  · rw [hcount] at hj
    by_cases hji : j = i
    · rw [hji, update_self, length_append, hnew, hsize]
    · rw [update_of_ne hji, hw.other j hji, h.size j hj0 hj]
  · rw [hcount] at hj
    have hold : ∀ j, 0 < j → j < m.freeinode →
        contents (t.abs.dinode j) t.abs.block 0 (data j).length = data j := by
      intro j hj0 hj
      refine (contents_congr fun k hk => ?_).trans (h.bytes j hj0 hj)
      have hlt : 0 + k < (m.abs.dinode j).size := by
        rw [h.size j hj0 hj]
        omega
      refine hw.outside j (0 + k) (h.allocated hj0 hj)
        ((h.inv.full j (h.allocated hj0 hj)).mapped hlt).2 fun hji => .inl ?_
      rw [← hji]
      exact hlt
    by_cases hji : j = i
    · -- what was there, and then what was appended
      rw [hji, update_self, length_append, contents_add, hold i h0 hi]
      congr 1
      refine contents_eq_list fun k hk => ?_
      rw [Nat.zero_add, ← hsize]
      exact hw.inside k hk
    · rw [update_of_ne hji]
      exact hold j hj0 hj
  · rw [hcount] at hj
    by_cases hji : j = i
    · subst hji
      rcases hw.only k hk with hold | hind | ⟨e, he, hk⟩
      · exact (h.tight j k hj0 hj hold).mono (by omega)
      · exact .inl hind
      · refine .inr ⟨_, ?_, hk⟩
        have hle := Nat.div_mul_le_self ((m.abs.dinode j).size + e) BSIZE
        omega
    · have hsame := hw.same j k hji (h.allocated hj0 hj)
      change slot (t.abs.dinode j) t.abs.block k = slot (m.abs.dinode j) m.abs.block k at hsame
      rw [hsame] at hk
      rw [hw.other j hji]
      exact h.tight j k hj0 hj hk
  · rw [hcount] at hj
    by_cases hmap : slot (m.abs.dinode j) m.abs.block (dataSlot (p / BSIZE)) = 0
    · -- only the inode that grows has new blocks
      have hji : j = i := by
        by_contra hji
        exact hk ((hw.same j _ hji (h.allocated hj0 hj)).trans hmap)
      subst hji
      exact hw.zeros p hmap hk (.inr (by omega))
    · have hold : (m.abs.dinode j).size ≤ p := by
        by_cases hji : j = i
        · rw [hji]
          rw [hji] at hp
          omega
        · rwa [hw.other j hji] at hp
      rw [← h.tail j p hj0 hj hold hmap]
      refine hw.outside j p (h.allocated hj0 hj) hmap fun hji => .inr ?_
      rw [hji] at hp
      omega

/-! ## ialloc -/

theorem ialloc_spec {type : FType} (h : Built m data) (hn : m.freeinode < maxInodes)
    (htype : type = typeAt (m.freeinode + 1) m.freeinode) :
    wp E (ialloc type) (fun r t => r = m.freeinode ∧ t.freeinode = m.freeinode + 1 ∧
      t.freeblock = m.freeblock ∧ Built t (update data m.freeinode [])) m := by
  have hfits : ({ Dinode.zero with type, nlink := 1 } : Dinode).Fits :=
    ⟨by show 0 < 2 ^ 32; decide, fun _ _ => by show 0 < 2 ^ 32; decide, fun _ _ => rfl⟩
  rw [ialloc, wp_bind, wp_get, wp_bind, wp_set]
  refine wp_call (winode_spec hn hfits) fun _ t ht => ?_
  rcases ht with ⟨disk, rfl, habs, hsame⟩
  have hlt := iblock_lt hn
  have hpos := h.count.1
  have hfree : (m.abs.dinode m.freeinode).type = .none := by
    rw [h.type, typeAt, if_pos (.inr le_rfl)]
  rw [wp_pure]
  refine ⟨rfl, rfl, rfl, ⟨h.fresh.low, fun b hb hbs => ?_⟩, ?_, ⟨Nat.succ_pos _, hn⟩, ?_,
    fun j => ?_, fun j hj0 (hj : j < m.freeinode + 1) => ?_,
    fun j hj0 (hj : j < m.freeinode + 1) => ?_, fun j k hj0 (hj : j < m.freeinode + 1) hk => ?_,
    fun j p hj0 (hj : j < m.freeinode + 1) hp hk => ?_⟩
  · have hne : b ≠ IBLOCK m.freeinode sb := by
      have hlow := h.fresh.low
      have hle : m.freeblock ≤ b := hb
      omega
    exact (hsame b hne).trans (h.fresh.zero b hb hbs)
  · have hne : (1 : Nat) ≠ IBLOCK m.freeinode sb := by
      have hge : 2 + nlog ≤ IBLOCK m.freeinode sb := Nat.le_add_left _ _
      omega
    exact (hsame 1 hne).trans h.super
  · rw [habs]
    exact h.inv.setNew hfree (by omega) hn (fun _ _ => rfl) rfl
  all_goals rw [habs] at *
  all_goals by_cases hjf : j = m.freeinode
  · rw [hjf]
    simp only [update_self]
    exact htype
  · simp only [update_of_ne hjf]
    have hsame : typeAt (m.freeinode + 1) j = typeAt m.freeinode j := by
      have hiff : (j = 0 ∨ m.freeinode + 1 ≤ j) ↔ (j = 0 ∨ m.freeinode ≤ j) := by omega
      simp only [typeAt, hiff]
    rw [hsame]
    exact h.type j
  · simp only [hjf, update_self]
    rfl
  · simp only [update_of_ne hjf]
    exact h.size j hj0 (by omega)
  · simp only [hjf, update_self]
    rfl
  · simp only [update_of_ne hjf]
    exact h.bytes j hj0 (by omega)
  · simp only [hjf, update_self] at hk
    rw [slot_empty fun _ _ => rfl] at hk
    exact absurd rfl hk
  · simp only [update_of_ne hjf] at hk ⊢
    exact h.tight j k hj0 (by omega) hk
  · simp only [hjf, update_self] at hk
    rw [slot_empty fun _ _ => rfl] at hk
    exact absurd rfl hk
  · simp only [update_of_ne hjf] at hp hk ⊢
    exact h.tail j p hj0 (by omega) hp hk

/-! ## One file -/

/-- A file that mkfs takes. -/
structure Input.Accepted (f : Input) : Prop where
  base : (0x2f : Byte) ∉ f.base
  reads : f.reads.isSome = true
  name : f.shortname.length ≤ DIRSIZ

/-- How many blocks `iappend` may take for the file and its entry. -/
def Input.cost (f : Input) : Nat := 4 * (1 + (f.reads.getD []).length)

/-- The entries of the root directory. -/
def rootEntries (fs : List Input) : List Dirent :=
  ⟨ROOTINO, dot⟩ :: ⟨ROOTINO, dotdot⟩ :: fs.mapIdx fun k f => ⟨k + 2, f.shortname⟩

def rootData (fs : List Input) : List Byte :=
  (rootEntries fs).flatMap fun de => direntBytes de.inum de.name

/-- What is in inode `i` after the files `fs`. -/
def dataOf (fs : List Input) : Nat → List Byte
  | 0 => []
  | 1 => rootData fs
  | i + 2 => (fs.map Input.data).getD i []

theorem length_direntBytes (inum : Nat) (name : Name) : (direntBytes inum name).length = DESIZE := by
  rw [direntBytes, length_map, length_range]

theorem length_rootData (fs : List Input) : (rootData fs).length = DESIZE * (fs.length + 2) := by
  have hlen : ∀ es : List Dirent,
      (es.flatMap fun de => direntBytes de.inum de.name).length = DESIZE * es.length := by
    intro es
    induction es with
    | nil => rfl
    | cons e es ih =>
      rw [flatMap_cons, length_append, length_direntBytes, ih, length_cons,
        Nat.mul_succ, Nat.add_comm]
  rw [rootData, hlen, rootEntries]
  simp

theorem rootData_append (fs : List Input) (f : Input) :
    rootData (fs ++ [f]) = rootData fs ++ direntBytes (fs.length + 2) f.shortname := by
  simp [rootData, rootEntries, mapIdx_append]

theorem dataOf_append (fs : List Input) (f : Input) :
    dataOf (fs ++ [f]) =
      update (update (update (dataOf fs) (fs.length + 2) []) ROOTINO
        (rootData fs ++ direntBytes (fs.length + 2) f.shortname)) (fs.length + 2) f.data := by
  funext i
  match i with
  | 0 =>
    simp [dataOf, ROOTINO, update]
  | 1 =>
    simp [dataOf, ROOTINO, update, rootData_append]
  | k + 2 =>
    by_cases hk : k = fs.length
    · simp [dataOf, hk]
    have hne : ¬ k + 2 = ROOTINO := by
      unfold ROOTINO
      omega
    simp only [dataOf, update_apply, if_neg hne, Nat.add_right_cancel_iff, hk, if_false,
      map_append, getD_eq_getElem?_getD]
    rcases Nat.lt_or_ge k fs.length with hlt | hge
    · rw [getElem?_append_left (by rwa [length_map])]
    · rw [getElem?_eq_none (by simp; omega), getElem?_eq_none (by simpa using hge)]

theorem appendAll_spec (chunks : List Chunk) (h : Built m data) (h0 : 0 < i) (hi : i < m.freeinode)
    (hE : ((data i).length + (chunks.flatMap Chunk.bytes).length ≤ MAXFILE * BSIZE ∧
      m.freeblock + 4 * chunks.length ≤ FSSIZE) ∨ ∀ e, E e) :
    wp E (forM chunks fun c => iappend i c.bytes) (fun _ t =>
      Built t (update data i (data i ++ chunks.flatMap Chunk.bytes)) ∧
      t.freeinode = m.freeinode ∧ t.freeblock ≤ m.freeblock + 4 * chunks.length) m := by
  induction chunks generalizing m data with
  | nil =>
    rw [forM_nil, wp_pure, flatMap_nil, append_nil, update_eq_self]
    exact ⟨h, rfl, Nat.le_refl _⟩
  | cons c cs ih =>
    rw [flatMap_cons, length_append, length_cons] at hE
    rw [forM_cons]
    refine wp_call (iappend_spec h h0 hi c.le (hE.imp_left fun hr => by omega)) fun _ t ht => ?_
    rcases ht with ⟨hbuilt, hcount, hroom⟩
    refine wp_mono (ih hbuilt (by rwa [hcount]) (hE.imp_left fun hr => ?_)) fun _ u hu => ?_
    · rw [update_self, length_append]
      omega
    · rcases hu with ⟨hbuilt', hcount', hroom'⟩
      rw [update_self, update_idem, append_assoc] at hbuilt'
      rw [flatMap_cons, length_cons]
      exact ⟨hbuilt', hcount'.trans hcount, by omega⟩

theorem addFile_spec {fs : List Input} {f : Input} (h : Built m (dataOf fs))
    (hcount : m.freeinode = fs.length + 2) (hn : fs.length + 2 < maxInodes)
    (hE : (f.Accepted ∧ f.data.length ≤ MAXFILE * BSIZE ∧ m.freeblock + f.cost ≤ FSSIZE) ∨
      ∀ e, E e) :
    wp E (addFile f) (fun _ t => Built t (dataOf (fs ++ [f])) ∧
      t.freeinode = (fs ++ [f]).length + 2 ∧ t.freeblock ≤ m.freeblock + f.cost ∧ f.Accepted) m := by
  rw [addFile]
  refine wp_if (fun hslash => (wp_throw _).mpr (hE.elim (fun hr => absurd hslash hr.1.base) fun hall
    => hall _)) fun hslash => ?_
  cases hreads : f.reads with
  | none =>
    refine (wp_throw _).mpr (hE.elim (fun hr => ?_) fun hall => hall _)
    have hsome := hr.1.reads
    rw [hreads] at hsome
    cases hsome
  | some chunks =>
    have hdata : f.data = chunks.flatMap Chunk.bytes := by
      rw [Input.data, hreads]
      rfl
    have hcost : f.cost = 4 * (1 + chunks.length) := by
      rw [Input.cost, hreads]
      rfl
    simp only [wp_ite]
    refine ⟨fun hlong => (wp_throw _).mpr (hE.elim (fun hr => ?_) fun hall => hall _),
      fun hname => ?_⟩
    · have hle := hr.1.name
      omega
    rw [wp_bind]
    have htype : FType.file = typeAt (m.freeinode + 1) m.freeinode := by
      rw [hcount, typeAt, if_neg (by omega), if_neg (by unfold ROOTINO; omega)]
    refine wp_mono (ialloc_spec h (by rwa [hcount]) htype) fun inum t ht => ?_
    rcases ht with ⟨rfl, hcount₁, hroom₁, hbuilt₁⟩
    rw [hcount] at hcount₁ hbuilt₁
    have hroot : update (dataOf fs) (fs.length + 2) [] ROOTINO = rootData fs := by
      rw [update_of_ne (by unfold ROOTINO; omega)]
      rfl
    have hdir : (rootData fs).length + DESIZE ≤ MAXFILE * BSIZE := by
      have hmax : DESIZE * (maxInodes + 1) ≤ MAXFILE * BSIZE := by decide
      have hle : DESIZE * (fs.length + 3) ≤ DESIZE * (maxInodes + 1) :=
        Nat.mul_le_mul_left _ (by omega)
      rw [length_rootData]
      have hsucc : DESIZE * (fs.length + 3) = DESIZE * (fs.length + 2) + DESIZE := Nat.mul_succ _ _
      omega
    rw [wp_bind, hcount]
    refine wp_mono (iappend_spec hbuilt₁ (i := ROOTINO) (by decide) (by unfold ROOTINO; omega)
      (by rw [length_direntBytes]; decide) (hE.imp_left fun hr => ?_)) fun _ u hu => ?_
    · rw [hroot, length_direntBytes]
      exact ⟨hdir, by omega⟩
    rcases hu with ⟨hbuilt₂, hcount₂, hroom₂⟩
    rw [hroot] at hbuilt₂
    have hself : update (update (dataOf fs) (fs.length + 2) []) ROOTINO
        (rootData fs ++ direntBytes (fs.length + 2) f.shortname) (fs.length + 2) = [] := by
      rw [update_of_ne (by unfold ROOTINO; omega), update_self]
    refine wp_mono (appendAll_spec chunks hbuilt₂ (Nat.succ_pos _) (by omega)
      (hE.imp_left fun hr => ?_)) fun _ w hw => ?_
    · rw [hself, ← hdata, length_nil]
      exact ⟨by omega, by omega⟩
    · rcases hw with ⟨hbuilt₃, hcount₃, hroom₃⟩
      rw [hself, nil_append, ← hdata, ← dataOf_append] at hbuilt₃
      refine ⟨hbuilt₃, ?_, by omega, hslash, by rw [hreads]; rfl, by omega⟩
      rw [length_append, length_singleton]
      omega

/-! ## main -/

/-- All files are taken in turn. -/
theorem addFiles_spec (rest : List Input) {done : List Input} (h : Built m (dataOf done))
    (hcount : m.freeinode = done.length + 2) (hn : done.length + rest.length + 2 ≤ maxInodes)
    (hE : ((∀ f ∈ rest, f.Accepted ∧ f.data.length ≤ MAXFILE * BSIZE) ∧
      m.freeblock + (rest.map Input.cost).sum ≤ FSSIZE) ∨ ∀ e, E e) :
    wp E (forM rest addFile) (fun _ t => Built t (dataOf (done ++ rest)) ∧
      t.freeinode = (done ++ rest).length + 2 ∧
      t.freeblock ≤ m.freeblock + (rest.map Input.cost).sum ∧ ∀ f ∈ rest, f.Accepted) m := by
  induction rest generalizing m done with
  | nil =>
    rw [forM_nil, wp_pure, append_nil]
    exact ⟨h, hcount, Nat.le_refl _, fun f hf => absurd hf not_mem_nil⟩
  | cons f rest ih =>
    rw [map_cons, sum_cons, forall_mem_cons] at hE
    rw [length_cons] at hn
    rw [forM_cons]
    refine wp_call (addFile_spec h hcount (by omega)
      (hE.imp_left fun hr => ⟨hr.1.1.1, hr.1.1.2, by omega⟩)) fun _ t ht => ?_
    rcases ht with ⟨hbuilt, hcount', hroom, hacc⟩
    have hlen : (done ++ [f]).length = done.length + 1 := by
      rw [length_append, length_singleton]
    refine wp_mono (ih hbuilt hcount' (by omega)
      (hE.imp_left fun hr => ⟨hr.1.2, by omega⟩)) fun _ u hu => ?_
    rcases hu with ⟨hbuilt', hcount'', hroom', haccs⟩
    rw [append_assoc, singleton_append] at hbuilt' hcount''
    rw [map_cons, sum_cons, forall_mem_cons]
    exact ⟨hbuilt', hcount'', by omega, hacc, haccs⟩

/-- The image before the first inode. -/
def blank : St := ⟨update (fun _ => zeroes) 1 sb.encode, 1, nmeta⟩

theorem getDinode_zeroes (k : Nat) : getDinode zeroes k = Dinode.zero := by
  have hword : ∀ w < 16, zeroes.getWord (16 * k + w) = (fun _ => 0) w :=
    fun w _ => zero_getWord _
  refine (Dinode.ofWords_congr hword).trans ?_
  have haddrs : (Dinode.ofWords fun _ => 0).addrs = Dinode.zero.addrs := by
    funext j
    simp only [Dinode.ofWords]
    split <;> rfl
  exact congrArg (fun a => (⟨.none, 0, 0, 0, 0, a⟩ : Dinode)) haddrs

theorem blank_built : Built blank fun _ => [] := by
  have hdisk : ∀ b ≠ 1, blank.disk b = zeroes := by
    intro b hb
    simp only [blank, update_of_ne hb]
  have hdinode : ∀ i, blank.abs.dinode i = Dinode.zero := by
    intro i
    simp only [St.abs]
    split
    · have hne : IBLOCK i sb ≠ 1 := by
        have hge : 2 + nlog ≤ IBLOCK i sb := Nat.le_add_left _ _
        omega
      rw [hdisk _ hne, getDinode_zeroes]
    · rfl
  have hnone : ∀ i, (blank.abs.dinode i).type = .none := fun i => by rw [hdinode]; rfl
  refine ⟨⟨Nat.le_refl _, fun b hb _ => hdisk b ?_⟩, ?_, by decide, ?_, fun i => ?_,
    fun i h0 hi => ?_, fun _ _ _ => rfl, fun i k h0 hi hk => ?_, fun i p h0 hi hp hk => ?_⟩
  · have hlow : nmeta ≤ b := hb
    have hone : 1 < nmeta := by decide
    omega
  · simp only [blank, update_self]
  · refine ⟨fun i hi => absurd hi.1 (lt_irrefl 0), fun i _ => rfl, fun i => rfl,
      fun i hi => absurd hi Bool.false_ne_true, fun i hi => absurd (hnone i) hi,
      fun b hb => decide_eq_true (by rwa [wide_datastart] at hb),
      ⟨fun x y b hx => absurd (hnone _) hx.1, fun x b hx => absurd (hnone _) hx.1,
        fun b hb hu => ?_⟩, fun i _ hi => absurd (hnone i) hi⟩
    have hge := hb.1
    rw [wide_datastart] at hge
    exact absurd (of_decide_eq_true hu) (Nat.not_lt.mpr hge)
  · rw [hnone, typeAt, if_pos]
    show i = 0 ∨ 1 ≤ i
    omega
  · rw [hdinode]
    rfl
  · rw [hdinode, slot_empty fun _ _ => rfl] at hk
    exact absurd rfl hk
  · rw [hdinode, slot_empty fun _ _ => rfl] at hk
    exact absurd rfl hk

/-- From the last file to the end of `main`: the size of the root directory is rounded up, and
the blocks in use are marked. -/
structure Sealed (m t : St) : Prop where
  used : m.freeblock < BPB
  data : ∀ b, nmeta ≤ b → t.disk b = m.disk b
  super : t.disk 1 = m.disk 1
  bitmap : t.disk sb.bmapstart = (List.range m.freeblock).foldl setUsed zeroes
  root : getDinode (t.disk (IBLOCK ROOTINO sb)) (ROOTINO % IPB) =
    { m.abs.dinode ROOTINO with size := ((m.abs.dinode ROOTINO).size / BSIZE + 1) * BSIZE }
  inode : ∀ i, i < ninodeblocks * IPB → i ≠ ROOTINO →
    getDinode (t.disk (IBLOCK i sb)) (i % IPB) = m.abs.dinode i

/-- The room that is enough for the files. -/
structure Roomy (files : List Input) : Prop where
  each : ∀ f ∈ files, f.Accepted ∧ f.data.length ≤ MAXFILE * BSIZE
  total : nmeta + 8 + (files.map Input.cost).sum ≤ FSSIZE

theorem zero_loop : wp E (forM (List.range FSSIZE) fun i => wsect i zeroes)
    (fun _ t => t = { start with freeblock := nmeta }) { start with freeblock := nmeta } := by
  rw [range_eq_range']
  refine wp_forM_range' (fun _ t => t = { start with freeblock := nmeta }) 0 FSSIZE _ rfl
    fun k t _ _ ht => ?_
  subst ht
  rw [wp_wsect]
  -- the new file reads as zeros already
  show (⟨update start.disk k (start.disk k), 1, nmeta⟩ : St) = _
  rw [update_eq_self]
  rfl

/-- The end of `main`. -/
theorem seal_spec (h : Built m data) (hroot : ROOTINO < m.freeinode)
    (hsize : (m.abs.dinode ROOTINO).size < MAXFILE * BSIZE) (hE : m.freeblock < BPB ∨ ∀ e, E e) :
    wp E (do
      let din ← rinode ROOTINO
      winode ROOTINO { din with size := (din.size / BSIZE + 1) * BSIZE }
      balloc (← get).freeblock) (fun _ t => Sealed m t) m := by
  have hone : ROOTINO < maxInodes := by decide
  have hfits : ({ m.abs.dinode ROOTINO with
      size := ((m.abs.dinode ROOTINO).size / BSIZE + 1) * BSIZE } : Dinode).Fits := by
    have hold : (m.abs.dinode ROOTINO).Fits := getDinode_fits _ _
    refine ⟨?_, hold.addrs, hold.rest⟩
    show ((m.abs.dinode ROOTINO).size / BSIZE + 1) * BSIZE < 2 ^ 32
    have hlarge : MAXFILE * BSIZE + BSIZE < 2 ^ 32 := by decide
    have hle := Nat.div_mul_le_self (m.abs.dinode ROOTINO).size BSIZE
    rw [Nat.add_mul, Nat.one_mul]
    omega
  refine wp_call (rinode_spec hone) fun din t ht => ?_
  rcases ht with ⟨rfl, rfl⟩
  refine wp_call (winode_spec hone hfits) fun _ u hu => ?_
  rcases hu with ⟨disk, rfl, habs, hsame⟩
  rw [wp_bind, wp_get, balloc]
  refine wp_if (fun hused => ?_) fun hbig => (wp_throw _).mpr (hE.resolve_left hbig _)
  rw [wp_wsect]
  have hmap : ∀ b ≠ sb.bmapstart, update disk sb.bmapstart
      ((List.range t.freeblock).foldl setUsed zeroes) b = disk b :=
    fun b hb => update_of_ne hb _ _
  -- an inode of the inode blocks is where it was
  have hinode : ∀ i < ninodeblocks * IPB, getDinode (update disk sb.bmapstart
      ((List.range t.freeblock).foldl setUsed zeroes) (IBLOCK i sb)) (i % IPB) =
      ({ t with disk } : St).abs.dinode i := by
    intro i hi
    have hdiv : i / IPB < ninodeblocks := Nat.div_lt_of_lt_mul (by rwa [Nat.mul_comm])
    have hblock : IBLOCK i sb = i / IPB + (2 + nlog) := rfl
    have hstart : sb.bmapstart = 2 + nlog + ninodeblocks := rfl
    have hlt : i < maxInodes := lt_of_lt_of_le hi (by decide)
    rw [hmap _ (by omega)]
    exact (if_pos hlt).symm
  refine ⟨hused, fun b hb => ?_, ?_, ?_, ?_, fun i hi hne => ?_⟩
  · have hlt : sb.bmapstart < nmeta := by decide
    have hib := iblock_lt hone
    exact (hmap b (by omega)).trans (hsame b (by omega))
  · exact (hmap 1 (by decide)).trans (hsame 1 (by decide))
  · simp only [update_self]
  · rw [hinode ROOTINO (by decide), habs]
    simp only [update_self]
  · rw [hinode i hi, habs]
    simp only [update_of_ne hne]

/-- What `main` builds. -/
theorem main_built (files : List Input) (hn : files.length + 2 ≤ maxInodes)
    (hE : Roomy files ∨ ∀ e, E e) :
    wp E (main files) (fun _ t => ∃ m, Built m (dataOf files) ∧ m.freeinode = files.length + 2 ∧
      (∀ f ∈ files, f.Accepted) ∧ Sealed m t) start := by
  rw [main, wp_bind, wp_modify]
  refine wp_call zero_loop fun _ t ht => ?_
  subst ht
  rw [wp_bind, wp_wsect, wp_bind]
  change wp E (ialloc .dir) _ blank
  refine wp_mono (ialloc_spec blank_built (by decide) (by decide)) fun r m₁ h₁ => ?_
  rcases h₁ with ⟨hr, hcount₁, hroom₁, hbuilt₁⟩
  change r = ROOTINO at hr
  change m₁.freeinode = 2 at hcount₁
  change m₁.freeblock = nmeta at hroom₁
  change Built m₁ (update (fun _ => []) ROOTINO []) at hbuilt₁
  subst hr
  rw [if_neg (by decide), wp_bind]
  have hsmall : nmeta + 8 ≤ FSSIZE := by decide
  have hlen : ∀ name, (direntBytes ROOTINO name).length ≤ BSIZE := by
    intro name
    rw [length_direntBytes]
    decide
  refine wp_mono (iappend_spec hbuilt₁ (i := ROOTINO) (by decide)
    (by rw [hcount₁]; decide) (hlen dot) (.inl ⟨?_, by omega⟩)) fun _ m₂ h₂ => ?_
  · rw [update_self, length_direntBytes]
    decide
  rcases h₂ with ⟨hbuilt₂, hcount₂, hroom₂⟩
  rw [update_self, update_idem, nil_append] at hbuilt₂
  refine wp_call (iappend_spec hbuilt₂ (i := ROOTINO) (by decide)
    (by rw [hcount₂, hcount₁]; decide) (hlen dotdot) (.inl ⟨?_, by omega⟩)) fun _ m₃ h₃ => ?_
  · rw [update_self, length_direntBytes, length_direntBytes]
    decide
  rcases h₃ with ⟨hbuilt₃, hcount₃, hroom₃⟩
  rw [update_self, update_idem] at hbuilt₃
  -- the two entries are the root directory without files
  have hdata : update (fun _ => []) ROOTINO
      (direntBytes ROOTINO dot ++ direntBytes ROOTINO dotdot) = dataOf [] := by
    funext i
    match i with
    | 0 => simp [dataOf, ROOTINO]
    | 1 => simp [dataOf, rootData, rootEntries, ROOTINO]
    | k + 2 => simp [dataOf, ROOTINO]
  rw [hdata] at hbuilt₃
  refine wp_call (addFiles_spec files hbuilt₃ ?_ ?_ (hE.imp_left fun hr => ⟨hr.each, ?_⟩))
    fun _ m h => ?_
  · rw [hcount₃, hcount₂, hcount₁]
    rfl
  · rwa [length_nil, Nat.zero_add]
  · have htotal := hr.total
    omega
  rcases h with ⟨hbuilt, hcount, hroom, hacc⟩
  rw [nil_append] at hbuilt hcount
  have hroot : ROOTINO < m.freeinode := by
    rw [hcount]
    unfold ROOTINO
    omega
  refine wp_mono (seal_spec hbuilt hroot ?_ (hE.imp_left fun hr => ?_))
    fun _ t ht => ⟨m, hbuilt, hcount, hacc, ht⟩
  · have hmax : DESIZE * maxInodes < MAXFILE * BSIZE := by decide
    have hle : DESIZE * (files.length + 2) ≤ DESIZE * maxInodes := Nat.mul_le_mul_left _ hn
    rw [hbuilt.size ROOTINO (by decide) hroot]
    show (rootData files).length < _
    rw [length_rootData]
    omega
  · have htotal := hr.total
    have hbpb : FSSIZE < BPB := by decide
    omega

end

end Xv6.Mkfs
