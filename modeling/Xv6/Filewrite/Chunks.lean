import Xv6.Fs.Content
import Xv6.Fs.Small
import Xv6.Fs.Table
import Xv6.Filewrite.Basic

/-!
# Xv6.Filewrite.Chunks — shared writes neither overlap nor vanish

In every run in which the bytes can be read, `balloc` finds blocks and the file does not reach
its largest size, the file holds from the initial offset on just the chunks that were written,
one after the other in the order of the lock; those of one process are the chunks of its calls,
in order; and `f->off` is behind the last one (`shared_writes`). At the largest size a chunk is
lost (`shared_writes_lost`).
-/

namespace Xv6.Filewrite

open Lib Fs Function List

/-! ## The chunks of a call -/

theorem maxChunk_pos : 0 < maxChunk := by decide

/-- The chunks into which a call cuts its bytes. -/
def split (data : List Byte) : List (List Byte) :=
  if data = [] then [] else data.take maxChunk :: split (data.drop maxChunk)
termination_by data.length
decreasing_by
  have hlen := length_pos_of_ne_nil (by assumption)
  have hpos := maxChunk_pos
  rw [length_drop]
  omega

theorem split_nil : split [] = [] := by rw [split, if_pos rfl]

theorem mem_split {data x : List Byte} (h : x ∈ split data) : x ≠ [] ∧ x.length ≤ maxChunk := by
  induction data using split.induct with
  | case1 =>
    rw [split_nil] at h
    exact absurd h not_mem_nil
  | case2 data hne ih =>
    rw [split, if_neg hne, mem_cons] at h
    rcases h with rfl | h
    · refine ⟨fun he => ?_, length_take_le _ _⟩
      have hlen := length_pos_of_ne_nil hne
      have hpos := maxChunk_pos
      have hzero := congrArg List.length he
      rw [length_take, length_nil] at hzero
      omega
    · exact ih h

theorem Call.length_bytes (c : Call) (i m : Nat) : (c.bytes i m).length = m := by
  rw [Call.bytes, length_map, length_range]

theorem Call.bytes_add (c : Call) (i m k : Nat) :
    c.bytes i (m + k) = c.bytes i m ++ c.bytes (i + m) k := by
  unfold Call.bytes
  rw [range_add, map_append, map_map]
  simp only [Function.comp_def, Nat.add_assoc]

/-- The next chunk of a call is the first one of what is left. -/
theorem Call.split_bytes (c : Call) {i : Nat} (hi : i < c.n) :
    split (c.bytes i (c.n - i)) =
      c.bytes i (c.n1 i) :: split (c.bytes (i + c.n1 i) (c.n - (i + c.n1 i))) := by
  have hne : c.bytes i (c.n - i) ≠ [] := by
    apply ne_nil_of_length_pos
    rw [c.length_bytes]
    omega
  have hlen : c.n1 i ≤ c.n - i := Nat.min_le_left _ _
  have hcut : c.bytes i (c.n - i) =
      c.bytes i (c.n1 i) ++ c.bytes (i + c.n1 i) (c.n - (i + c.n1 i)) := by
    rw [← c.bytes_add]
    congr 1
    omega
  rw [split, if_neg hne]
  rcases Nat.lt_or_ge maxChunk (c.n - i) with hlt | hge
  · have hn1 : c.n1 i = maxChunk := Nat.min_eq_right (le_of_lt hlt)
    rw [hcut, hn1, take_left' (c.length_bytes _ _), drop_left' (c.length_bytes _ _)]
  · -- the last chunk
    have hn1 : c.n1 i = c.n - i := Nat.min_eq_left hge
    have hzero : c.n - (i + (c.n - i)) = 0 := by omega
    rw [hn1, take_of_length_le (by rwa [c.length_bytes]),
      drop_of_length_le (by rwa [c.length_bytes]), hzero]
    rfl

/-! ## The invariant -/

/-- The process has the inode locked. -/
def Pc.Holding : Pc → Prop
  | .idle _ | .top _ _ => False
  | .locked _ _ | .wrote _ _ _ | .advanced _ _ _ => True

/-- How far `f->off` is behind. -/
def Pc.gap : Pc → Nat
  | .wrote _ _ r => r.getD 0
  | .idle _ | .top _ _ | .locked _ _ | .advanced _ _ _ => 0

/-- The bytes that a process is still to write, if all goes well. -/
def Pc.rest : Pc → List Byte
  | .idle _ => []
  | .top c i | .locked c i => c.bytes i (c.n - i)
  | .wrote c i _ | .advanced c i _ => c.bytes (i + c.n1 i) (c.n - (i + c.n1 i))

section
variable {P : Type} [DecidableEq P]

/-- All that was written. -/
def St.data (s : St P) : List Byte := (s.hist.map Prod.snd).flatten

/-- The chunks that process `p` has written. -/
def St.chunks (s : St P) (p : P) : List (List Byte) :=
  (s.hist.filter fun x => x.1 = p).map Prod.snd

/-- What the processes and the file are at the start. -/
structure Init (sb : Super) (inum off₀ : Nat) (s : St P) : Prop where
  fs : Fs.Inv sb s.fs.view s.fs
  file : (s.fs.view inum).type = .file
  ref : 0 < (s.fs.inode inum).ref
  off : s.off = off₀
  within : off₀ ≤ (s.fs.view inum).size
  idle : ∀ p, s.pc p = .idle 0
  given : ∀ p, s.given p = []
  hist : s.hist = []

/-- The processes that share the file with inode `inum`, from `f->off = off₀` on. -/
def sys (P : Type) [DecidableEq P] (sb : Super) (inum off₀ : Nat) : System (St P) (Act P) :=
  ⟨Init sb inum off₀, step sb inum⟩

/-- `balloc` has found the blocks that `writei` asked for: no block of the `n` bytes is missing on
a full disk. -/
def Allocates (sb : Super) (inum off n : Nat) : Except Stop (Option Nat × Fs.St) → Prop
  | .ok (some _, t) => ∀ k < n,
    slot (t.view inum) t.block (dataSlot ((off + k) / BSIZE)) ≠ 0 ∨ ¬ t.DiskFull sb
  | .ok (none, _) | .error _ => True

/-- The bytes of the chunk can be read, and its blocks are found. -/
def Pc.Succeeds (sb : Super) (inum off : Nat) (fs : Fs.St) : Pc → Prop
  | .locked c i => (∀ k < c.n1 i, (c.src (i + k)).isSome) ∧
    Allocates sb inum off (c.n1 i) (writei sb inum (fun k => c.src (i + k)) off (c.n1 i) fs)
  | .idle _ | .top _ _ | .wrote _ _ _ | .advanced _ _ _ => True

/-- The chunk ends before the largest size of a file. -/
def Pc.Fits (off : Nat) : Pc → Prop
  | .locked c i => off + c.n1 i ≤ MAXFILE * BSIZE
  | .idle _ | .top _ _ | .wrote _ _ _ | .advanced _ _ _ => True

/-- Copies and allocations succeed. -/
def Succeeds (sb : Super) (inum : Nat) (s : St P) : Act P → Prop
  | .write p => (s.pc p).Succeeds sb inum s.off s.fs
  | .call _ _ | .lock _ | .advance _ | .unlock _ | .ret _ | .other _ _ _ _ => True

/-- No write goes past the largest size. -/
def Fits (s : St P) : Act P → Prop
  | .write p => (s.pc p).Fits s.off
  | .call _ _ | .lock _ | .advance _ | .unlock _ | .ret _ | .other _ _ _ _ => True

/-- The program counter of a process that writes in full. -/
def Pc.Sound : Pc → Prop
  | .idle _ | .top _ _ => True
  | .locked c i => i < c.n
  | .wrote c i r | .advanced c i r => r = some (c.n1 i)

/-- The file with `data` from `off₀` on. -/
structure Stored (sb : Super) (inum off₀ : Nat) (data : List Byte) (fs : Fs.St) : Prop where
  inv : Fs.Inv sb fs.view fs
  file : (fs.view inum).type = .file
  ref : 0 < (fs.inode inum).ref
  region : contents (fs.view inum) fs.block off₀ data.length = data
  room : off₀ + data.length ≤ (fs.view inum).size

structure Inv (sb : Super) (inum off₀ : Nat) (s : St P) : Prop where
  stored : Stored sb inum off₀ s.data s.fs
  held : ∀ p, (s.pc p).Holding → Locked s.fs.view s.fs inum
  excl : ∀ p q, (s.pc p).Holding → (s.pc q).Holding → p = q
  sound : ∀ p, (s.pc p).Sound
  off : ∀ p, (s.pc p).Holding → s.off + (s.pc p).gap = off₀ + s.data.length
  free : (∀ p, ¬ (s.pc p).Holding) → s.off = off₀ + s.data.length
  chunks : ∀ p, s.chunks p ++ split (s.pc p).rest = (s.given p).flatMap split

variable {sb : Super} {inum off₀ : Nat} {s s' : St P} {p : P} {x : Pc} {c : Call} {i : Nat}

theorem Inv.init (h : Init sb inum off₀ s) : Inv sb inum off₀ s := by
  have hdata : s.data = [] := by rw [St.data, h.hist]; rfl
  have hnone : ∀ p, ¬ (s.pc p).Holding := by
    intro p hp
    rw [h.idle p] at hp
    exact hp
  refine ⟨?_, fun p hp => absurd hp (hnone p), fun p _ hp => absurd hp (hnone p), fun p => ?_,
    fun p hp => absurd hp (hnone p), fun _ => ?_, fun p => ?_⟩
  · rw [hdata]
    exact ⟨h.fs, h.file, h.ref, rfl, h.within⟩
  · rw [h.idle p]
    trivial
  · rw [hdata, h.off]
    rfl
  · rw [h.idle p, h.given p, St.chunks, h.hist]
    exact split_nil

variable {fs : Fs.St} {data : List Byte}

theorem Stored.allocated (h : Stored sb inum off₀ data fs) : (fs.view inum).type ≠ .none := by
  rw [h.file]
  decide

/-- The inodes are the same to be seen, and so are the blocks. -/
theorem Stored.same {t : Fs.St} (h : Stored sb inum off₀ data fs)
    (hinv : Fs.Inv sb fs.view t) (hblock : t.block = fs.block) (href : 0 < (t.inode inum).ref) :
    Stored sb inum off₀ data t := by
  have hview : t.view = fs.view := hinv.view
  constructor
  · rw [hview]; exact hinv
  · rw [hview]; exact h.file
  · exact href
  · rw [hview, hblock]; exact h.region
  · rw [hview]; exact h.room

/-! ## Steps of one process -/

section
variable (h : Inv sb inum off₀ s)
include h

/-- A step outside the lock. -/
theorem Inv.quiet {g : P → List (List Byte)} (hgiven : ∀ q ≠ p, g q = s.given q)
    (hp : ¬ (s.pc p).Holding) (hx : ¬ x.Holding) (hsound : x.Sound)
    (hchunks : s.chunks p ++ split x.rest = (g p).flatMap split) :
    Inv sb inum off₀ { s.setPc p x with given := g } := by
  have hself : (s.setPc p x).pc p = x := update_self ..
  have hother : ∀ q ≠ p, (s.setPc p x).pc q = s.pc q := fun q hq => update_of_ne hq ..
  -- the same processes hold the lock
  have hheld : ∀ q, ((s.setPc p x).pc q).Holding →
      (s.pc q).Holding ∧ (s.setPc p x).pc q = s.pc q := by
    intro q hq
    by_cases hqp : q = p
    · rw [hqp, hself] at hq
      exact absurd hq hx
    · rw [hother q hqp] at hq
      exact ⟨hq, hother q hqp⟩
  refine ⟨h.stored, fun q hq => h.held q (hheld q hq).1,
    fun q r hq hr => h.excl q r (hheld q hq).1 (hheld r hr).1,
    (forall_update_iff s.pc fun _ y => y.Sound).mpr ⟨hsound, fun q _ => h.sound q⟩,
    fun q hq => ?_, fun hnone => h.free fun q hq => ?_, fun q => ?_⟩
  · change s.off + ((s.setPc p x).pc q).gap = _
    rw [(hheld q hq).2]
    exact h.off q (hheld q hq).1
  · by_cases hqp : q = p
    · exact hp (hqp ▸ hq)
    · exact hnone q ((hother q hqp).symm ▸ hq)
  · change s.chunks q ++ split ((s.setPc p x).pc q).rest = (g q).flatMap split
    by_cases hqp : q = p
    · rw [hqp, hself]
      exact hchunks
    · rw [hother q hqp, hgiven q hqp]
      exact h.chunks q

/-- A step of the process that takes, has or drops the lock. -/
theorem Inv.alone {o : Nat} {l : List (P × List Byte)} (hnone : ∀ q ≠ p, ¬ (s.pc q).Holding)
    (hstored : Stored sb inum off₀ { s with hist := l }.data fs)
    (hheld : x.Holding → Locked fs.view fs inum) (hsound : x.Sound)
    (hoff : o + x.gap = off₀ + { s with hist := l }.data.length) (hgap : ¬ x.Holding → x.gap = 0)
    (hothers : ∀ q ≠ p, { s with hist := l }.chunks q = s.chunks q)
    (hchunks : { s with hist := l }.chunks p ++ split x.rest = (s.given p).flatMap split) :
    Inv sb inum off₀ { s.setPc p x with fs := fs, off := o, hist := l } := by
  have hself : (s.setPc p x).pc p = x := update_self ..
  have hother : ∀ q ≠ p, (s.setPc p x).pc q = s.pc q := fun q hq => update_of_ne hq ..
  have honly : ∀ q, ((s.setPc p x).pc q).Holding → q = p := by
    intro q hq
    by_contra hqp
    rw [hother q hqp] at hq
    exact hnone q hqp hq
  refine ⟨hstored, fun q hq => ?_, fun q r hq hr => (honly q hq).trans (honly r hr).symm,
    (forall_update_iff s.pc fun _ y => y.Sound).mpr ⟨hsound, fun q _ => h.sound q⟩,
    fun q hq => ?_, fun hfree => ?_, fun q => ?_⟩
  · have hqp := honly q hq
    change ((s.setPc p x).pc q).Holding at hq
    rw [hqp, hself] at hq
    exact hheld hq
  · change o + ((s.setPc p x).pc q).gap = _
    rw [honly q hq, hself]
    exact hoff
  · have hz : ¬ ((s.setPc p x).pc p).Holding := hfree p
    rw [hself] at hz
    rw [hgap hz] at hoff
    exact hoff
  · change { s with hist := l }.chunks q ++ split ((s.setPc p x).pc q).rest = _
    by_cases hqp : q = p
    · rw [hqp, hself]
      exact hchunks
    · rw [hother q hqp, hothers q hqp]
      exact h.chunks q

theorem Inv.call (hs : step sb inum s (.call p c) = some s') :
    Inv sb inum off₀ s' := by
  simp only [step] at hs
  cases hpc : s.pc p <;> simp only [hpc, reduceCtorEq] at hs
  cases hs
  have hchunks := h.chunks p
  rw [hpc] at hchunks
  refine h.quiet (fun q hq => update_of_ne hq _ _) (by rw [hpc]; exact id) id trivial ?_
  rw [update_self, flatMap_append, ← hchunks]
  show _ = s.chunks p ++ split [] ++ [c.bytes 0 c.n].flatMap split
  rw [split_nil, append_nil, flatMap_singleton]
  rfl

theorem Inv.ret (hs : step sb inum s (.ret p) = some s') :
    Inv sb inum off₀ s' := by
  simp only [step] at hs
  cases hpc : s.pc p with
  | top c i =>
    simp only [hpc, Option.ite_none_left_eq_some] at hs
    obtain ⟨hlt, hs⟩ := hs
    cases hs
    have hchunks := h.chunks p
    have hzero : c.n - i = 0 := by omega
    rw [hpc, Pc.rest, hzero] at hchunks
    exact h.quiet (fun _ _ => rfl) (by rw [hpc]; exact id) id trivial hchunks
  | _ => simp only [hpc, reduceCtorEq] at hs

/-! ## Steps under the lock -/

theorem Inv.none_holding (hfree : (s.fs.inode inum).locked = false) (q : P) :
    ¬ (s.pc q).Holding := by
  intro hq
  rw [(h.held q hq).locked] at hfree
  cases hfree

theorem Inv.other_holding (hp : (s.pc p).Holding) (q : P) (hq : q ≠ p) :
    ¬ (s.pc q).Holding :=
  fun hheld => hq (h.excl q p hheld hp)

theorem Inv.lock (hs : step sb inum s (.lock p) = some s') :
    Inv sb inum off₀ s' := by
  simp only [step] at hs
  cases hpc : s.pc p with
  | top c i =>
    simp only [hpc, Option.ite_none_right_eq_some] at hs
    obtain ⟨hi, hs⟩ := hs
    split at hs
    swap
    · cases hs
    next fs hrun =>
    cases hs
    have hspec := (wp_of_eq (E := fun _ => True) hrun).mp
      (ilock_spec h.stored.inv (.inr trivial) (.inr trivial) (.inr trivial))
    rcases hspec with ⟨hinv, hlocked, hfree, hfs⟩
    have hview : fs.view = s.fs.view := hinv.view
    have hnone := h.none_holding hfree
    have hchunks := h.chunks p
    rw [hpc] at hchunks
    exact h.alone (fun q _ => hnone q) (h.stored.same hinv (by rw [hfs]) hlocked.live.1)
      (fun _ => by rw [hview]; exact hlocked) hi (h.free hnone) (fun _ => rfl) (fun _ _ => rfl)
      hchunks
  | _ => simp only [hpc, reduceCtorEq] at hs

/-- A chunk is written behind the others. -/
theorem Inv.stored_write {w : Nat → Dinode} {m e : Nat} (hoff : s.off = off₀ + s.data.length)
    (hlive : (fs.inode inum).Live)
    (hw : Written (fun _ => True) sb inum s.off m m e (fun k => c.src (i + k)) s.fs.view s.fs w fs) :
    Stored sb inum off₀ (s.data ++ c.bytes i m) fs := by
  have hview : fs.view = w := hw.inv.view
  have hfile := h.stored.allocated
  have hroom := h.stored.room
  have hold : contents (w inum) fs.block off₀ s.data.length = s.data := by
    refine (contents_congr fun k hk => ?_).trans h.stored.region
    exact hw.outside inum (off₀ + k) hfile ((h.stored.inv.full inum hfile).mapped (by omega)).2
      fun _ => .inl (by omega)
  have hnew : contents (w inum) fs.block (off₀ + s.data.length) m = c.bytes i m := by
    refine map_congr_left fun k hk => ?_
    have hk' := hw.inside k (lt_of_lt_of_le (mem_range.mp hk) hw.ended.le.1)
    rw [hoff] at hk'
    rw [← hk']
    rfl
  refine ⟨hview ▸ hw.inv, ?_, hlive.1, ?_, ?_⟩
  · rw [hview, hw.fields]
    exact h.stored.file
  · rw [hview, length_append, c.length_bytes, contents_add, hold, hnew]
  · rw [hview, hw.fields, length_append, c.length_bytes]
    show off₀ + (s.data.length + m) ≤ max _ (s.off + m)
    omega

/-- With copies and allocations that succeed `writei` writes the whole chunk. -/
theorem Inv.write_full {r : Option Nat} (hpc : s.pc p = .locked c i)
    (hok : (s.pc p).Succeeds sb inum s.off s.fs) (hfits : (s.pc p).Fits s.off)
    (hrun : writei sb inum (fun k => c.src (i + k)) s.off (c.n1 i) s.fs = .ok (r, fs)) :
    r = some (c.n1 i) ∧ ∃ e w,
      Written (fun _ => True) sb inum s.off (c.n1 i) (c.n1 i) e (fun k => c.src (i + k))
        s.fs.view s.fs w fs := by
  have hp : (s.pc p).Holding := by
    rw [hpc]
    trivial
  have hoff := h.off p hp
  have hroom := h.stored.room
  have hn1 : c.n1 i < 2 ^ 32 := lt_of_le_of_lt (Nat.min_le_right _ _) (by decide)
  rw [hpc] at hok hfits hoff
  rw [Pc.Succeeds, hrun] at hok
  change s.off + c.n1 i ≤ _ at hfits
  change s.off + 0 = _ at hoff
  have hspec := (wp_of_eq (E := fun _ => True) hrun).mp
    (writei_spec h.stored.inv trivial (h.held p hp).live (h.held p hp).locked hn1)
  rcases hspec with ⟨-, -, hsize | hmax⟩ | ⟨m, e, w, rfl, -, -, -, hw⟩
  · omega
  · omega
  cases hw.ended with
  | done hm he =>
    subst hm
    exact ⟨rfl, e, w, hw⟩
  | full hm he hnone hfull =>
    rcases hok.2 m hm with hthere | hnot
    · rw [hw.inv.view] at hthere
      exact absurd hnone hthere
    · exact absurd hfull hnot
  | fault hm hstart hread he =>
    rcases unreadable_of_lt hread with ⟨k, hk, hsrc⟩
    have hlen : pieceLen s.off (c.n1 i) m ≤ c.n1 i - m := Nat.min_le_left _ _
    have hsome := hok.1 (m + k) (by omega)
    rw [hsrc] at hsome
    cases hsome

theorem Inv.write (hok : Succeeds sb inum s (.write p)) (hfits : Fits s (.write p))
    (hs : step sb inum s (.write p) = some s') : Inv sb inum off₀ s' := by
  simp only [step] at hs
  cases hpc : s.pc p with
  | locked c i =>
    simp only [hpc] at hs
    split at hs
    swap
    · cases hs
    next r fs hrun =>
    rcases h.write_full hpc hok hfits hrun with ⟨rfl, e, w, hw⟩
    cases hs
    have hp : (s.pc p).Holding := by
      rw [hpc]
      trivial
    have hi := h.sound p
    have hoff := h.off p hp
    rw [hpc] at hi hoff
    change s.off = _ at hoff
    have hview : fs.view = w := hw.inv.view
    have hlocked := hw.locked (h.held p hp).live (h.held p hp).locked
    have hdata : { s with hist := s.hist ++ [(p, c.bytes i (c.n1 i))] }.data =
        s.data ++ c.bytes i (c.n1 i) := by
      rw [St.data, map_append, flatten_append]
      exact congrArg (s.data ++ ·) (append_nil _)
    refine h.alone (h.other_holding hp) ?_ (fun _ => ?_) rfl ?_
      (fun hx => absurd trivial hx) (fun q hq => ?_) ?_
    · exact hdata ▸ h.stored_write hoff hlocked.live hw
    · rw [hview]
      exact hlocked
    · refine Eq.trans ?_ (congrArg (off₀ + List.length ·) hdata.symm)
      change s.off + c.n1 i = _
      rw [length_append, c.length_bytes, hoff, Nat.add_assoc]
    · have hne : ¬ p = q := fun he => hq he.symm
      simp [St.chunks, filter_append, hne]
    · have hchunks := h.chunks p
      rw [hpc, Pc.rest, c.split_bytes hi] at hchunks
      rw [← hchunks]
      simp [St.chunks, filter_append, Pc.rest]
  | _ => simp only [hpc, reduceCtorEq] at hs

theorem Inv.advance (hs : step sb inum s (.advance p) = some s') :
    Inv sb inum off₀ s' := by
  simp only [step] at hs
  cases hpc : s.pc p with
  | wrote c i r =>
    simp only [hpc, Option.some.injEq] at hs
    subst hs
    have hp : (s.pc p).Holding := by
      rw [hpc]
      trivial
    have hsound := h.sound p
    have hgap := h.off p hp
    have hchunks := h.chunks p
    rw [hpc] at hsound hgap hchunks
    change s.off + r.getD 0 = _ at hgap
    -- the offset does not wrap
    have hroom := h.stored.room
    have hsize := (h.stored.inv.full inum h.stored.allocated).size_le
    have hmax : MAXFILE * BSIZE < 2 ^ 32 := by decide
    have hoff : u32 (s.off + r.getD 0) = s.off + r.getD 0 := Nat.mod_eq_of_lt (by omega)
    exact h.alone (h.other_holding hp) h.stored (fun _ => h.held p hp) hsound
      ((congrArg (· + 0) hoff).trans hgap) (fun _ => rfl) (fun _ _ => rfl) hchunks
  | _ => simp only [hpc, reduceCtorEq] at hs

theorem Inv.unlock (hs : step sb inum s (.unlock p) = some s') :
    Inv sb inum off₀ s' := by
  simp only [step] at hs
  cases hpc : s.pc p with
  | advanced c i r =>
    simp only [hpc] at hs
    split at hs
    swap
    · cases hs
    next fs hrun =>
    have hr := h.sound p
    rw [hpc, Pc.Sound] at hr
    rw [if_pos hr, Option.some.injEq] at hs
    subst hs
    have hp : (s.pc p).Holding := by
      rw [hpc]
      trivial
    have hspec := (wp_of_eq (E := fun _ => True) hrun).mp (iunlock_spec h.stored.inv (h.held p hp))
    rcases hspec with ⟨hinv, hfs⟩
    have hgap := h.off p hp
    have hchunks := h.chunks p
    rw [hpc] at hgap hchunks
    have href : 0 < (fs.inode inum).ref := by
      rw [hfs]
      simp only [update_self]
      exact h.stored.ref
    exact h.alone (h.other_holding hp) (h.stored.same hinv (by rw [hfs]) href)
      (fun hx => hx.elim) trivial hgap (fun _ => rfl) (fun _ _ => rfl) hchunks
  | _ => simp only [hpc, reduceCtorEq] at hs

end

/-! ## Other files -/

/-- A write to another file changes nothing of this one. -/
theorem writeOther_spec {v : Nat → Dinode} {j off n : Nat} {src : Nat → Option Byte}
    (h : Fs.Inv sb v fs) (hj : j ≠ inum) (hn : n < 2 ^ 32) (hfile : (v inum).type ≠ .none) :
    wp (fun _ => True) (writeOther sb j src off n) (fun _ t => ∃ w, Fs.Inv sb w t ∧
      w inum = v inum ∧ t.inode inum = fs.inode inum ∧ t.dinode inum = fs.dinode inum ∧
      ∀ p < (v inum).size,
        content (w inum) t.block p = content (v inum) fs.block p) fs := by
  rw [writeOther]
  refine wp_call (ilock_spec h (.inr trivial) (.inr trivial) (.inr trivial)) fun _ t ht => ?_
  rcases ht with ⟨hinv, hl, -, rfl⟩
  refine wp_call (writei_spec hinv trivial hl.live hl.locked hn) fun r t ht => ?_
  rcases ht with ⟨-, rfl, -⟩ | ⟨m, e, w, -, -, -, -, hw⟩
  · refine wp_mono (iunlock_spec hinv hl) fun _ t ht => ?_
    rcases ht with ⟨hinv', rfl⟩
    refine ⟨v, hinv', rfl, ?_, rfl, fun _ _ => rfl⟩
    simp only [update_of_ne hj.symm]
  · refine wp_mono (iunlock_spec hw.inv (hw.locked hl.live hl.locked)) fun _ u hu => ?_
    rcases hu with ⟨hinv', rfl⟩
    refine ⟨w, hinv', hw.other inum hj.symm, ?_, ?_, fun p hp => ?_⟩
    · simp only [hw.table, update_of_ne hj.symm]
    · simp only [hw.dinode, update_of_ne hj.symm]
    · exact hw.outside inum p hfile ((h.full inum hfile).mapped hp).2 fun he => absurd he.symm hj

theorem Inv.other {j off n : Nat} {src : Nat → Option Byte} (h : Inv sb inum off₀ s)
    (hs : step sb inum s (.other j src off n) = some s') : Inv sb inum off₀ s' := by
  simp only [step] at hs
  split at hs
  · next hj =>
    split at hs
    · next fs hrun =>
      cases hs
      have hspec := (wp_of_eq (E := fun _ => True) hrun).mp
        (writeOther_spec h.stored.inv hj.1 hj.2 h.stored.allocated)
      rcases hspec with ⟨w, hinv, hw, hentry, hdinode, hcontent⟩
      have hview : fs.view = w := hinv.view
      have hroom := h.stored.room
      refine ⟨⟨?_, ?_, ?_, ?_, ?_⟩, fun p hp => ⟨?_, ?_, ?_⟩, h.excl, h.sound, h.off, h.free,
        h.chunks⟩
      · show Fs.Inv sb fs.view fs
        rw [hview]
        exact hinv
      · show (fs.view inum).type = .file
        rw [hview, hw]
        exact h.stored.file
      · show 0 < (fs.inode inum).ref
        rw [hentry]
        exact h.stored.ref
      · show contents (fs.view inum) fs.block off₀ s.data.length = s.data
        rw [hview]
        exact (contents_congr fun k hk => hcontent _ (by omega)).trans h.stored.region
      · show off₀ + s.data.length ≤ (fs.view inum).size
        rw [hview, hw]
        exact hroom
      · show (fs.inode inum).Live
        rw [hentry]
        exact (h.held p hp).live
      · show (fs.inode inum).locked = true
        rw [hentry]
        exact (h.held p hp).locked
      · show fs.dinode inum = fs.view inum
        rw [hdinode, hview, hw]
        exact (h.held p hp).disk
    · cases hs
  · cases hs

/-! ## Runs -/

theorem Inv.step {a : Act P} (h : Inv sb inum off₀ s) (hok : Succeeds sb inum s a)
    (hfits : Fits s a) (hs : step sb inum s a = some s') : Inv sb inum off₀ s' := by
  cases a with
  | call p c => exact h.call hs
  | lock p => exact h.lock hs
  | write p => exact h.write hok hfits hs
  | advance p => exact h.advance hs
  | unlock p => exact h.unlock hs
  | ret p => exact h.ret hs
  | other j src off n => exact h.other hs

theorem Inv.of_reachable
    (h : (sys P sb inum off₀).ReachableBy (fun s a => Succeeds sb inum s a ∧ Fits s a) s) :
    Inv sb inum off₀ s :=
  h.invariant (Inv sb inum off₀) (fun _ => Inv.init) fun _ _ _ hinv hok hs =>
    hinv.step hok.1 hok.2 hs

/-- What process `p` has written is a first part of the chunks of its calls. -/
theorem Inv.mem_chunk (h : Inv sb inum off₀ s) {q : P} {y : List Byte} (hy : (q, y) ∈ s.hist) :
    y ≠ [] ∧ y.length ≤ maxChunk := by
  have hmem : y ∈ s.chunks q :=
    mem_map.mpr ⟨(q, y), mem_filter.mpr ⟨hy, decide_eq_true rfl⟩, rfl⟩
  have hall : y ∈ (s.given q).flatMap split := by
    rw [← h.chunks q]
    exact mem_append_left _ hmem
  rcases mem_flatMap.mp hall with ⟨data, -, hsplit⟩
  exact mem_split hsplit

end

/-- Writes through a shared descriptor. In every run in which copies and allocations succeed and
no chunk passes the largest size of a file, the file holds all chunks from the initial offset
on, in the order of the lock; each process has written the chunks of its calls up to where it
is; and unless a process is just about to advance it, `f->off` is behind the last chunk. -/
theorem shared_writes (P : Type) [DecidableEq P] (sb : Super) (inum off₀ : Nat) (s : St P)
    (h : (sys P sb inum off₀).ReachableBy (fun s a => Succeeds sb inum s a ∧ Fits s a) s) :
    contents (s.fs.view inum) s.fs.block off₀ s.data.length = s.data ∧
      off₀ + s.data.length ≤ (s.fs.view inum).size ∧
      (∀ x ∈ s.hist, x.2 ≠ [] ∧ x.2.length ≤ maxChunk) ∧
      (∀ p, s.chunks p ++ split (s.pc p).rest = (s.given p).flatMap split) ∧
      ((∀ p, (s.pc p).gap = 0) → s.off = off₀ + s.data.length) := by
  have hinv := Inv.of_reachable h
  refine ⟨hinv.stored.region, hinv.stored.room, fun x hx => hinv.mem_chunk hx, hinv.chunks,
    fun hgap => ?_⟩
  by_cases hheld : ∃ p, (s.pc p).Holding
  · rcases hheld with ⟨p, hp⟩
    have hoff := hinv.off p hp
    rwa [hgap p] at hoff
  · exact hinv.free fun p hp => hheld ⟨p, hp⟩

/-! ## A run of two processes -/

instance (sb : Super) (s : Fs.St) : Decidable (s.DiskFull sb) :=
  inferInstanceAs (Decidable (∀ b, b < sb.size → s.bitmap b = true))

instance (sb : Super) (inum off n : Nat) : (x : Except Stop (Option Nat × Fs.St)) →
    Decidable (Allocates sb inum off n x)
  | .ok (some _, t) => inferInstanceAs (Decidable (∀ k < n,
      slot (t.view inum) t.block (dataSlot ((off + k) / BSIZE)) ≠ 0 ∨ ¬ t.DiskFull sb))
  | .ok (none, _) | .error _ => inferInstanceAs (Decidable True)

instance (sb : Super) (inum off : Nat) (fs : Fs.St) :
    (x : Pc) → Decidable (x.Succeeds sb inum off fs)
  | .locked _ _ => inferInstanceAs (Decidable (_ ∧ Allocates _ _ _ _ _))
  | .idle _ | .top _ _ | .wrote _ _ _ | .advanced _ _ _ => inferInstanceAs (Decidable True)

instance (off : Nat) : (x : Pc) → Decidable (x.Fits off)
  | .locked c i => inferInstanceAs (Decidable (off + c.n1 i ≤ MAXFILE * BSIZE))
  | .idle _ | .top _ _ | .wrote _ _ _ | .advanced _ _ _ => inferInstanceAs (Decidable True)

instance {P : Type} (sb : Super) (inum : Nat) (s : St P) :
    (a : Act P) → Decidable (Succeeds sb inum s a)
  | .write p => inferInstanceAs (Decidable ((s.pc p).Succeeds sb inum s.off s.fs))
  | .call _ _ | .lock _ | .advance _ | .unlock _ | .ret _ | .other _ _ _ _ =>
    inferInstanceAs (Decidable True)

instance {P : Type} (s : St P) : (a : Act P) → Decidable (Fits s a)
  | .write p => inferInstanceAs (Decidable ((s.pc p).Fits s.off))
  | .call _ _ | .lock _ | .advance _ | .unlock _ | .ret _ | .other _ _ _ _ =>
    inferInstanceAs (Decidable True)

def pairSuper : Super := .checked 9 5 2 (by decide)

/-- Two processes that share a new file, inode 1. -/
def pair : St Bool where
  fs := .small (fun b => b < 4) (fun _ _ => 0)
    [Dinode.zero, { Dinode.zero with type := .file, nlink := 1 }] [absent, (1, true, false)]
  off := 0
  pc _ := .idle 0
  given _ := []
  hist := []

theorem pair_inv : Fs.Inv pairSuper pair.fs.view pair.fs := by
  have hinv : Fs.Inv pairSuper pair.fs.dinode pair.fs :=
    Fs.St.small_inv (by decide +kernel) (by decide) (by decide)
  rw [hinv.view]
  exact hinv

/-- The calls overlap, and the second one gets the lock first. -/
def pairRun : List (Act Bool) :=
  [.call true ⟨fun k => some (BitVec.ofNat 8 (k + 1)), 2⟩, .call false ⟨fun _ => some 9, 1⟩,
    .lock false, .write false, .advance false, .unlock false, .ret false,
    .lock true, .write true, .advance true, .unlock true, .ret true]

theorem shared_writes_pairRun : ∃ s : St Bool, (sys Bool pairSuper 1 0).ReachableBy
      (fun s a => Succeeds pairSuper 1 s a ∧ Fits s a) s ∧
      s.hist = [(false, [9]), (true, [1, 2])] ∧
      contents (s.fs.view 1) s.fs.block 0 3 = [9, 1, 2] ∧ s.off = 3 := by
  have hinit : Init pairSuper 1 0 pair :=
    ⟨pair_inv, rfl, Nat.one_pos, rfl, Nat.zero_le _, fun _ => rfl, fun _ => rfl, rfl⟩
  obtain ⟨s, hreach, hhist, hoff⟩ : ∃ s, (sys Bool pairSuper 1 0).ReachableBy
      (fun s a => Succeeds pairSuper 1 s a ∧ Fits s a) s ∧
      s.hist = [(false, [9]), (true, [1, 2])] ∧ s.off = 3 :=
    System.reachesBy hinit pairRun (by decide +kernel) (by decide +kernel)
  have hdata : s.data = [9, 1, 2] := by
    rw [St.data, hhist]
    rfl
  have hfile := (shared_writes Bool pairSuper 1 0 s hreach).1
  rw [hdata] at hfile
  exact ⟨s, hreach, hhist, hfile, hoff⟩

/-! ## The largest file -/

def largestSuper : Super := .checked 273 269 2 (by decide)

/-- All references of the file are in use: number `k` is block `4 + k`. -/
def largest : Dinode :=
  { Dinode.zero with type := .file, nlink := 1, size := MAXFILE * BSIZE, addrs := (4 + ·) }

/-- Block 16 is its indirect block. -/
def largestBlocks (b : Nat) : Block := fun j =>
  if b = 16 then BitVec.ofNat 8 ((17 + j.val / 4) / 256 ^ (j.val % 4)) else 0

/-- A process that has the largest file open, at its end. -/
def atEnd : St Bool where
  fs :=
    { bitmap := fun b => b < 273
      block := largestBlocks
      dinode := update (fun _ => Dinode.zero) 1 largest
      inode := update (fun _ => ⟨0, false, false, Dinode.zero⟩) 1 ⟨1, true, false, largest⟩ }
  off := MAXFILE * BSIZE
  pc _ := .idle 0
  given _ := []
  hist := []

theorem slot_largest (k : Nat) : slot largest largestBlocks k = if k < 269 then 4 + k else 0 := by
  have hall : ∀ k < 269, slot largest largestBlocks k = 4 + k := by decide +kernel
  split
  · next hk => exact hall k hk
  · next hk =>
    have hind : NINDIRECT ≤ k - (NDIRECT + 1) := show 256 ≤ k - 13 by omega
    have hlow : ¬ k ≤ NDIRECT := show ¬ k ≤ 12 by omega
    rw [slot, if_neg hlow, if_pos (.inr hind)]

theorem holds_atEnd (i k b : Nat) :
    Holds atEnd.fs.dinode atEnd.fs.block (i, k) b ↔ i = 1 ∧ k < 269 ∧ b = 4 + k := by
  by_cases hi : i = 1
  · subst hi
    have hslot : slot (atEnd.fs.dinode 1) atEnd.fs.block k = _ := slot_largest k
    simp only [Holds, hslot]
    constructor
    · rintro ⟨-, hk, h0⟩
      split at hk
      · next hlt => exact ⟨trivial, hlt, hk.symm⟩
      · exact absurd hk.symm h0
    · rintro ⟨-, hk, rfl⟩
      exact ⟨nofun, if_pos hk, by omega⟩
  · have hdisk : atEnd.fs.dinode i = Dinode.zero := by simp only [atEnd, update_of_ne hi]
    simp [Holds, hdisk, Dinode.zero, hi]

theorem atEnd_inv : Fs.Inv largestSuper atEnd.fs.view atEnd.fs := by
  have hinv : Fs.Inv largestSuper atEnd.fs.dinode atEnd.fs := by
    refine .of_agree (fun j => ?_) (by decide) ⟨fun x y b hx hy => ?_, fun x b hx => ?_,
      fun b hb _ => ?_⟩ fun j _ hj bn hbn => ?_
    · by_cases hj : j = 1
      · subst hj
        exact ⟨fun _ => ⟨rfl, nofun⟩, fun _ => rfl, rfl, nofun, fun _ => by decide⟩
      · simp only [atEnd, update_of_ne hj]
        exact ⟨fun h => absurd h.1 (lt_irrefl 0), fun _ => rfl, rfl, nofun, fun h => absurd rfl h⟩
    · have hx' := (holds_atEnd x.1 x.2 b).mp hx
      have hy' := (holds_atEnd y.1 y.2 b).mp hy
      exact Prod.ext (by omega) (by omega)
    · have hx' := (holds_atEnd x.1 x.2 b).mp hx
      refine ⟨⟨?_, ?_⟩, decide_eq_true ?_⟩
      · show 4 ≤ b
        omega
      · show b < 273
        omega
      · omega
    · have hlo : 4 ≤ b := hb.1
      have hhi : b < 273 := hb.2
      exact ⟨(1, b - 4), (holds_atEnd 1 _ b).mpr ⟨rfl, by omega, by omega⟩⟩
    · obtain rfl : j = 1 := by
        by_contra hne
        simp only [atEnd, update_of_ne hne] at hj
        exact hj rfl
      change bn * BSIZE < MAXFILE * BSIZE at hbn
      have hlt : bn < 268 := Nat.lt_of_mul_lt_mul_right hbn
      refine ⟨hlt, ?_⟩
      show slot largest largestBlocks (dataSlot bn) ≠ 0
      rw [slot_largest, if_pos (by unfold dataSlot; split <;> omega)]
      omega
  rw [hinv.view]
  exact hinv

/-- A call of one byte. -/
def endRun : List (Act Bool) :=
  [.call true ⟨fun _ => some 7, 1⟩, .lock true, .write true, .advance true, .unlock true]

/-- The byte can be read and no block is asked for, but the chunk is lost: the file cannot grow. -/
theorem shared_writes_lost : ∃ s : St Bool,
    (sys Bool largestSuper 1 (MAXFILE * BSIZE)).ReachableBy (Succeeds largestSuper 1) s ∧
      s.chunks true ++ split (s.pc true).rest ≠ (s.given true).flatMap split := by
  have hinit : Init largestSuper 1 (MAXFILE * BSIZE) atEnd :=
    ⟨atEnd_inv, rfl, Nat.one_pos, rfl, Nat.le_refl _, fun _ => rfl, fun _ => rfl, rfl⟩
  obtain ⟨s, hreach, hchunks, hrest, hgiven⟩ :
      ∃ s, (sys Bool largestSuper 1 (MAXFILE * BSIZE)).ReachableBy (Succeeds largestSuper 1) s ∧
        s.chunks true = [[]] ∧ (s.pc true).rest = [] ∧ s.given true = [[7]] :=
    System.reachesBy hinit endRun (by decide +kernel) (by decide +kernel)
  refine ⟨s, hreach, ?_⟩
  rw [hchunks, hrest, hgiven, split_nil, flatMap_singleton]
  intro heq
  have hmem : [] ∈ split [7] := heq ▸ mem_singleton_self _
  exact (mem_split hmem).1 rfl

end Xv6.Filewrite
