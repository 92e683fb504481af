import Mathlib.Data.List.Nodup

/-!
# Lib.Ring — circular lists with pointers both ways

`Ring next prev h l`: following `next` from the head `h` visits the nodes of `l` and comes
back to `h`, and following `prev` visits them in the other order. Taking a node out and
putting a node in after the head are written as the assignments a program makes, in their
order; searches follow one of the pointers until they are back at the head.
-/

namespace Lib

open Function List

variable {κ : Type*}

/-- Following `f` from `a` visits exactly `l`, and then `z`. -/
def Path (f : κ → κ) : κ → List κ → κ → Prop
  | a, [], z => f a = z
  | a, x :: l, z => f a = x ∧ Path f x l z

structure Ring (next prev : κ → κ) (h : κ) (l : List κ) : Prop where
  nodup : (h :: l).Nodup
  fwd : Path next h l h
  bwd : Path prev h l.reverse h

/-! ## Paths -/

variable {fuel : Nat}

section Path

variable {f g : κ → κ} {a b z : κ} {l l₁ l₂ : List κ}

theorem Path.append_iff : Path f a (l₁ ++ b :: l₂) z ↔ Path f a l₁ b ∧ Path f b l₂ z := by
  induction l₁ generalizing a with
  | nil => rfl
  | cons x l₁ ih =>
    show (f a = x ∧ Path f x (l₁ ++ b :: l₂) z) ↔ (f a = x ∧ Path f x l₁ b) ∧ _
    rw [ih, and_assoc]

/-- The first node of a path is where the pointer of its start leads. -/
theorem Path.first (h : Path f a l z) : f a = l.head?.getD z := by
  cases l with
  | nil => exact h
  | cons x l => exact h.1

/-- Only the pointers of the start and of the nodes visited matter. -/
theorem Path.congr (h : Path f a l z) (hstart : g b = f a) (hsame : ∀ x ∈ l, g x = f x) :
    Path g b l z := by
  induction l generalizing a b with
  | nil => exact hstart.trans h
  | cons x l ih =>
    refine ⟨hstart.trans h.1, ih h.2 (hsame x mem_cons_self) fun y hy => ?_⟩
    exact hsame y (mem_cons_of_mem x hy)

variable [DecidableEq κ]

theorem Path.update_of_notMem (h : Path f a l z) {x y : κ} (hx : x ∉ a :: l) :
    Path (update f x y) a l z := by
  rw [mem_cons, not_or] at hx
  refine h.congr (update_of_ne (Ne.symm hx.1) ..) fun w hw => ?_
  refine update_of_ne ?_ ..
  rintro rfl
  exact hx.2 hw

/-- Changing the pointer of the last node changes where the path leads. -/
theorem Path.redirect (h : Path f a l b) (hnodup : (a :: l).Nodup) :
    Path (update f (l.getLast?.getD a) z) a l z := by
  induction l generalizing a with
  | nil => exact update_self ..
  | cons x l ih =>
    have hne : a ≠ (x :: l).getLast?.getD a := by
      intro e
      rw [getLast?_eq_some_getLast (cons_ne_nil x l), Option.getD_some] at e
      exact (nodup_cons.mp hnodup).1 (e ▸ getLast_mem _)
    refine ⟨?_, ?_⟩
    · rw [update_of_ne hne]
      exact h.1
    · have : (x :: l).getLast?.getD a = l.getLast?.getD x := by
        rw [getLast?_cons, Option.getD_some]
      rw [this]
      exact ih h.2 (nodup_cons.mp hnodup).2

/-- Leading the node before `b` to the node after it takes `b` out of the path. -/
theorem Path.skip (h : Path f a (l₁ ++ b :: l₂) z) (hnodup : (a :: (l₁ ++ b :: l₂)).Nodup) :
    Path (update f (l₁.getLast?.getD a) (f b)) a (l₁ ++ l₂) z := by
  rcases Path.append_iff.mp h with ⟨h₁, h₂⟩
  have hsub : (a :: l₁).Nodup := by
    refine hnodup.sublist ?_
    rw [← cons_append]
    exact sublist_append_left ..
  have hpath := h₁.redirect (z := f b) hsub
  cases l₂ with
  | nil =>
    rw [append_nil]
    have : f b = z := h₂
    rwa [this] at hpath ⊢
  | cons c l₂ =>
    rcases h₂ with ⟨hc, h₂⟩
    rw [hc] at hpath ⊢
    refine Path.append_iff.mpr ⟨hpath, h₂.update_of_notMem fun hmem => ?_⟩
    -- the node changed lies on the first part
    have hlast : l₁.getLast?.getD a ∈ a :: l₁ := by
      cases l₁ with
      | nil => exact mem_cons_self
      | cons x l₁ =>
        rw [getLast?_eq_some_getLast (cons_ne_nil x l₁), Option.getD_some]
        exact mem_cons_of_mem a (getLast_mem _)
    rw [← cons_append] at hnodup
    exact (disjoint_of_nodup_append hnodup) hlast (mem_cons_of_mem b hmem)

/-! ## Searching -/

/-- Follow `f` from `b` until `p` holds or the head is reached. -/
def walk (f : κ → κ) (h : κ) (p : κ → Bool) : Nat → κ → Option κ
  | 0, _ => none
  | fuel + 1, b => if b = h then none else if p b then some b else walk f h p fuel (f b)

/-- A walk along a path back to the head is a search of the nodes on it. -/
theorem Path.walk_eq {h : κ} (hp : Path f a l h) (hnot : h ∉ l) (p : κ → Bool)
    (hfuel : l.length < fuel) : walk f h p fuel (f a) = l.find? p := by
  induction l generalizing a fuel with
  | nil =>
    have : f a = h := hp
    cases fuel with
    | zero => cases hfuel
    | succ fuel => simp [walk, this]
  | cons x l ih =>
    rcases hp with ⟨hx, hp⟩
    cases fuel with
    | zero => cases hfuel
    | succ fuel =>
      have hne : x ≠ h := fun e => hnot (e ▸ mem_cons_self)
      have := ih hp (fun hm => hnot (mem_cons_of_mem x hm))
        (Nat.lt_of_succ_lt_succ hfuel)
      rw [hx, walk, if_neg hne, find?_cons, this]
      cases p x <;> rfl

end Path

/-! ## Rings -/

section Ring

variable {next prev : κ → κ} {h b : κ} {l : List κ}

theorem Ring.empty : Ring (fun _ => h) (fun _ => h) h [] :=
  ⟨nodup_singleton h, rfl, rfl⟩

theorem Ring.nodup_reverse (hr : Ring next prev h l) : (h :: l.reverse).Nodup := by
  rw [nodup_cons, mem_reverse, List.nodup_reverse]
  exact nodup_cons.mp hr.nodup

theorem Ring.prev_eq {l₁ l₂ : List κ} (hr : Ring next prev h (l₁ ++ b :: l₂)) :
    prev b = l₁.getLast?.getD h := by
  have hb := hr.bwd
  rw [reverse_append, reverse_cons, append_assoc, singleton_append] at hb
  have := (Path.append_iff.mp hb).2.first
  rwa [head?_reverse] at this

theorem Ring.next_eq {l₁ l₂ : List κ} (hr : Ring next prev h (l₁ ++ b :: l₂)) :
    next b = l₂.reverse.getLast?.getD h := by
  rw [getLast?_reverse]
  exact (Path.append_iff.mp hr.fwd).2.first

variable [DecidableEq κ]

/-- `b->next->prev = b->prev; b->prev->next = b->next`. -/
def unlinkPrev (next prev : κ → κ) (b : κ) : κ → κ := update prev (next b) (prev b)

def unlinkNext (next prev : κ → κ) (b : κ) : κ → κ := update next (prev b) (next b)

/-- `b->next = h->next; b->prev = h; h->next->prev = b; h->next = b`. -/
def insertNext (next : κ → κ) (h b : κ) : κ → κ :=
  update (update next b (next h)) h b

def insertPrev (next prev : κ → κ) (h b : κ) : κ → κ :=
  update (update prev b h) (update next b (next h) h) b

/-- The assignments take the node out, from whatever place it has. -/
theorem Ring.unlink {l₁ l₂ : List κ} (hr : Ring next prev h (l₁ ++ b :: l₂)) :
    Ring (unlinkNext next prev b) (unlinkPrev next prev b) h (l₁ ++ l₂) := by
  refine ⟨?_, ?_, ?_⟩
  · refine hr.nodup.sublist (List.Sublist.cons_cons h ?_)
    exact (List.Sublist.refl l₁).append (sublist_cons_self b l₂)
  · unfold unlinkNext
    rw [hr.prev_eq]
    exact hr.fwd.skip hr.nodup
  · unfold unlinkPrev
    have hbwd := hr.bwd
    have hnodup := hr.nodup_reverse
    rw [reverse_append, reverse_cons, append_assoc, singleton_append]
      at hbwd hnodup
    rw [hr.next_eq, reverse_append]
    exact hbwd.skip hnodup

/-- The assignments put a new node in after the head. -/
theorem Ring.insert (hr : Ring next prev h l) (hb : b ∉ h :: l) :
    Ring (insertNext next h b) (insertPrev next prev h b) h (b :: l) := by
  rw [mem_cons, not_or] at hb
  have hh : h ∉ l := (nodup_cons.mp hr.nodup).1
  have hfirst : update next b (next h) h = l.reverse.getLast?.getD h := by
    rw [update_of_ne (Ne.symm hb.1), getLast?_reverse]
    exact hr.fwd.first
  refine ⟨?_, ⟨update_self .., ?_⟩, ?_⟩
  · rw [nodup_cons, nodup_cons, mem_cons, not_or]
    exact ⟨⟨Ne.symm hb.1, hh⟩, hb.2, (nodup_cons.mp hr.nodup).2⟩
  · refine hr.fwd.congr ?_ fun x hx => ?_
    · unfold insertNext
      rw [update_of_ne hb.1, update_self]
    · unfold insertNext
      have hxh : x ≠ h := fun e => hh (e ▸ hx)
      have hxb : x ≠ b := fun e => hb.2 (e ▸ hx)
      rw [update_of_ne hxh, update_of_ne hxb]
  · unfold insertPrev
    rw [hfirst, reverse_cons]
    refine Path.append_iff.mpr ⟨?_, ?_⟩
    · -- the old ring, its last pointer led to b
      have hold : Path (update prev b h) h l.reverse h :=
        hr.bwd.update_of_notMem (by simpa using hb)
      exact hold.redirect hr.nodup_reverse
    · have hne : b ≠ l.reverse.getLast?.getD h := by
        rw [getLast?_reverse]
        cases l with
        | nil => exact hb.1
        | cons x l => exact fun e => hb.2 (e ▸ mem_cons_self)
      exact (update_of_ne hne ..).trans (update_self ..)

/-- Searching forwards and backwards. -/
theorem Ring.walk_next (hr : Ring next prev h l) (p : κ → Bool) (hfuel : l.length < fuel) :
    walk next h p fuel (next h) = l.find? p :=
  hr.fwd.walk_eq (nodup_cons.mp hr.nodup).1 p hfuel

theorem Ring.walk_prev (hr : Ring next prev h l) (p : κ → Bool) (hfuel : l.length < fuel) :
    walk prev h p fuel (prev h) = l.reverse.find? p :=
  hr.bwd.walk_eq (by simpa using (nodup_cons.mp hr.nodup).1) p (by simpa using hfuel)

end Ring

end Lib
