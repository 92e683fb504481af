import Xv6.Console.Editor

/-!
# Xv6.Console.Lines — what readers of the console get

Without `consolegetc_nb`, and with copies to user space that succeed, a run of the console is a run
of the reference editor: every part of every read delivers the same bytes and ends the same way
(`line_discipline`). What has been released stays as it is until it is read.
-/

namespace Xv6.Console

open Lib Function List

variable {R : Type} [DecidableEq R]

/-! ## The reference system -/

/-- The editor and the reads under way: the bytes asked for and those to come. -/
structure Editor.St (R : Type) where
  editor : Editor
  reader : R → Option (Nat × Nat)
  log : List (Event R)

def Editor.St.start : Editor.St R := ⟨⟨[], []⟩, fun _ => none, []⟩

def Editor.step (s : Editor.St R) : Lbl R → Option (Editor.St R)
  | .intr c => some { s with editor := s.editor.type c }
  | .read p n _ =>
    match s.reader p with
    | some _ => none
    | none => some { s with reader := update s.reader p (some (n, n)) }
  | .run p killed =>
    match s.reader p with
    | none => none
    | some (target, n) =>
      let out := Editor.read target killed n s.editor.released
      some
        { editor := { s.editor with released := out.1 }
          reader := update s.reader p
            (match out.2.2 with
              | .asleep n => some (target, n)
              | .done _ | .killed => none)
          log := s.log ++ [⟨p, out.2.1, out.2.2⟩] }
  -- not an operation of a line editor
  | .getc => none

def Editor.sys (R : Type) [DecidableEq R] : System (Editor.St R) (Lbl R) :=
  ⟨fun s => s = Editor.St.start, Editor.step⟩

/-! ## What a call and a part of a read do -/

variable {s t : St R}

theorem step_read {p : R} {n : Nat} {dst : Nat → Bool} (hst : step s (.read p n dst) = some t) :
    s.reader p = none ∧ t = { s with reader := update s.reader p (some ⟨n, n, dst⟩) } := by
  cases hp : s.reader p with
  | some rd => simp only [step, hp, reduceCtorEq] at hst
  | none =>
    simp only [step, hp, Option.some.injEq] at hst
    exact ⟨rfl, hst.symm⟩

theorem step_run {p : R} {killed : Bool} (hst : step s (.run p killed) = some t) :
    ∃ rd, s.reader p = some rd ∧
      let out := readLoop rd.dst rd.target killed rd.n s.cons
      t = { s with
        cons := out.1
        reader := update s.reader p (out.2.2.remains rd)
        log := s.log ++ [⟨p, out.2.1, out.2.2⟩] } := by
  cases hp : s.reader p with
  | none => simp only [step, hp, reduceCtorEq] at hst
  | some rd =>
    simp only [step, hp, Option.some.injEq] at hst
    exact ⟨rd, rfl, hst.symm⟩

/-! ## The console follows it -/

/-- The steps of the line discipline: no `consolegetc_nb`, and copies that succeed. -/
def Lbl.Copies : Lbl R → Prop
  | .intr _ | .run _ _ => True
  | .read _ n dst => ∀ k < n, dst k = true
  | .getc => False

def Read.view (rd : Read) : Nat × Nat := (rd.target, rd.n)

def St.view (s : St R) : Editor.St R :=
  ⟨s.cons.view, fun p => (s.reader p).map Read.view, s.log⟩

/-- The indices are in order, and every read under way can copy what it has asked for. -/
structure LineInv (s : St R) : Prop where
  ring : Ring s.cons
  copies : ∀ p rd, s.reader p = some rd → rd.n ≤ rd.target ∧ ∀ k < rd.target, rd.dst k = true

omit [DecidableEq R] in
theorem LineInv.init (h : Init s) : LineInv s := by
  constructor
  · constructor <;> rw [h.e, h.r]
    · rw [h.w]
    · decide
  · intro p rd hrd
    rw [h.reader] at hrd
    cases hrd

/-- A read asks for no more after a part of it. -/
theorem readLoop_asleep (dst : Nat → Bool) (target : Nat) (killed : Bool) (n : Nat) :
    ∀ {s : Cons} {m : Nat}, (readLoop dst target killed n s).2.2 = .asleep m → m ≤ n := by
  induction n with
  | zero => rintro s m ⟨⟩
  | succ n ih =>
    intro s m
    rw [readLoop]
    dsimp only
    split_ifs
    · rintro ⟨⟩
    · rintro ⟨⟩
      exact Nat.le_refl _
    · rintro ⟨⟩
    · rintro ⟨⟩
    · rintro ⟨⟩
    · exact fun hasleep => Nat.le_succ_of_le (ih hasleep)

variable {l : Lbl R}

theorem LineInv.of_step (h : LineInv s) (hl : l.Copies) (hst : step s l = some t) :
    LineInv t := by
  cases l with
  | intr c =>
    cases hst
    exact ⟨(consoleintr_refines h.ring c).1, h.copies⟩
  | read p n dst =>
    obtain ⟨hp, rfl⟩ := step_read hst
    refine ⟨h.ring, fun q rd hrd => ?_⟩
    dsimp only at hrd
    by_cases hq : q = p
    · rw [hq, update_self] at hrd
      cases hrd
      exact ⟨Nat.le_refl _, hl⟩
    · rw [update_of_ne hq] at hrd
      exact h.copies q rd hrd
  | run p killed =>
    obtain ⟨rd, hp, rfl⟩ := step_run hst
    refine ⟨(readLoop_released _ _ _ _ h.ring).1, fun q rd' hrd => ?_⟩
    dsimp only at hrd
    by_cases hq : q = p
    · -- the same read, with fewer bytes to come
      rw [hq, update_self] at hrd
      cases hend : (readLoop rd.dst rd.target killed rd.n s.cons).2.2 with
      | done ret => rw [hend] at hrd; cases hrd
      | killed => rw [hend] at hrd; cases hrd
      | asleep m =>
        rw [hend] at hrd
        cases hrd
        obtain ⟨hn, hdst⟩ := h.copies p rd hp
        exact ⟨le_trans (readLoop_asleep _ _ _ _ hend) hn, hdst⟩
    · rw [update_of_ne hq] at hrd
      exact h.copies q rd' hrd
  | getc => exact hl.elim

theorem map_update_view (f : R → Option Read) (p : R) (rd : Option Read) :
    (fun q => (update f p rd q).map Read.view) =
      update (fun q => (f q).map Read.view) p (rd.map Read.view) := by
  exact funext (apply_update (fun _ => Option.map Read.view) f p rd)

/-- A step of the console, seen as a step of the editor. -/
theorem step_view (h : LineInv s) (hl : l.Copies) :
    (step s l).map St.view = Editor.step s.view l := by
  cases l with
  | intr c =>
    have hview := (consoleintr_refines h.ring c).2
    simp only [step, Editor.step, Option.map_some, St.view, hview]
  | read p n dst =>
    cases hp : s.reader p with
    | some rd => simp only [step, Editor.step, St.view, hp, Option.map_some, Option.map_none]
    | none =>
      simp only [step, Editor.step, St.view, hp, Option.map_some, Option.map_none,
        map_update_view]
      rfl
  | run p killed =>
    cases hp : s.reader p with
    | none => simp only [step, Editor.step, St.view, hp, Option.map_none]
    | some rd =>
      obtain ⟨hn, hdst⟩ := h.copies p rd hp
      have hread := readLoop_refines rd.dst rd.target killed rd.n (s := s.cons) hdst hn
      have hpending := (readLoop_released rd.dst rd.target killed rd.n h.ring).2.1
      simp only [step, Editor.step, St.view, Cons.view, hp, Option.map_some, Read.view,
        map_update_view, hread, hpending]
      cases (readLoop rd.dst rd.target killed rd.n s.cons).2.2 <;> rfl
  | getc => exact hl.elim

/-! ## What is released -/

/-- The released bytes stay, in order, but for those that are delivered and a control-D that ends
a read. -/
def Kept (s t : St R) : Prop :=
  ∃ bytes eof, t.delivered = s.delivered ++ bytes ∧ (eof = [] ∨ eof = [ctrlD]) ∧
    s.cons.released <+: bytes ++ eof ++ t.cons.released

omit [DecidableEq R] in
theorem delivered_append (log : List (Event R)) (ev : Event R) :
    (log ++ [ev]).flatMap Event.bytes = log.flatMap Event.bytes ++ ev.bytes := by
  rw [flatMap_append, flatMap_singleton]

theorem LineInv.kept (h : LineInv s) (hl : l.Copies) (hst : step s l = some t) :
    Kept s t := by
  cases l with
  | intr c =>
    cases hst
    refine ⟨[], [], (append_nil _).symm, Or.inl rfl, ?_⟩
    have hreleased : (consoleintr s.cons c).released = (s.cons.view.type c).released :=
      congrArg Editor.released (consoleintr_refines h.ring c).2
    change s.cons.released <+: (consoleintr s.cons c).released
    rw [hreleased]
    exact Editor.released_prefix_type s.cons.view c
  | read p n dst =>
    obtain ⟨hp, rfl⟩ := step_read hst
    exact ⟨[], [], (append_nil _).symm, Or.inl rfl, prefix_refl _⟩
  | run p killed =>
    obtain ⟨rd, hp, rfl⟩ := step_run hst
    obtain ⟨hn, hdst⟩ := h.copies p rd hp
    have hread := readLoop_refines rd.dst rd.target killed rd.n (s := s.cons) hdst hn
    obtain ⟨eof, heof, hall⟩ :=
      Editor.read_released rd.target killed rd.n s.cons.released
    rw [hread] at hall
    refine ⟨(readLoop rd.dst rd.target killed rd.n s.cons).2.1, eof, ?_, heof, ?_⟩
    · exact delivered_append s.log _
    · exact ⟨[], (append_nil _).trans hall⟩
  | getc => exact hl.elim

omit [DecidableEq R] in
theorem St.view_init (h : Init s) : s.view = Editor.St.start := by
  have hreader : (fun p => (s.reader p).map Read.view) = fun _ => none :=
    funext fun p => by rw [h.reader]; rfl
  have hcons : s.cons.view = ⟨[], []⟩ := by
    rw [Cons.view, released_eq_nil (h.r.trans h.w.symm), pending_eq_nil (h.e.trans h.w.symm)]
  rw [St.view, hcons, hreader, h.log]
  rfl

/-- Readers get what the reference editor gives them, and a released byte is never altered or
erased before it is read. -/
theorem line_discipline (s : St R) (hs : Init s) (ls : List (Lbl R)) (hls : ∀ l ∈ ls, l.Copies) :
    ((sys R).exec s ls).map St.log =
        ((Editor.sys R).exec Editor.St.start ls).map Editor.St.log ∧
      ∀ t, (sys R).exec s ls = some t →
        ∀ l t', Lbl.Copies l → step t l = some t' → Kept t t' := by
  have hstep : ∀ s l s', LineInv s → Lbl.Copies l → (sys R).step s l = some s' → LineInv s' :=
    fun s l s' h hl hst => h.of_step hl hst
  constructor
  · have hrun := System.exec_map (S := sys R) (T := Editor.sys R) St.view Lbl.Copies LineInv
      (fun s l h hl => step_view h hl) hstep ls s (LineInv.init hs) hls
    rw [← St.view_init hs, ← hrun, Option.map_map]
    rfl
  · intro t ht l t' hl hst
    have hreach : (sys R).ReachableBy (fun _ l => Lbl.Copies l) t := by
      exact (System.ReachableBy.init hs).exec
        (fun m hm => hls _ (System.mem_of_mem_moves hm)) ht
    have hinv := hreach.invariant LineInv (fun s h => LineInv.init h) hstep
    exact hinv.kept hl hst

/-- Before any input. -/
def boot (R : Type) : St R := ⟨⟨fun _ => 0, 0, 0, 0⟩, fun _ => none, [], [], []⟩

omit [DecidableEq R] in
theorem boot_init : Init (boot R) := ⟨rfl, rfl, rfl, fun _ => rfl, rfl, rfl, rfl⟩

/-- Two readers: a line with a correction, read in two parts, and an end of file that the second
part leaves for the next read. -/
def linesRun : List (Lbl Bool) :=
  [.intr 0x61, .intr 0x62, .intr delete, .read true 3 fun _ => true, .run true false,
    .intr 0x63, .intr ctrlD, .run true false, .read false 8 fun _ => true, .run false false]

theorem line_discipline_linesRun :
    (((sys Bool).exec (boot Bool) linesRun).map St.log).isSome = true ∧
      ((sys Bool).exec (boot Bool) linesRun).map St.log =
        ((Editor.sys Bool).exec Editor.St.start linesRun).map Editor.St.log := by
  refine ⟨by decide +kernel, (line_discipline (boot Bool) boot_init linesRun fun l hl => ?_).1⟩
  simp only [linesRun, mem_cons, not_mem_nil, or_false] at hl
  rcases hl with rfl | rfl | rfl | rfl | rfl | rfl | rfl | rfl | rfl | rfl
  all_goals simp [Lbl.Copies]

end Xv6.Console
