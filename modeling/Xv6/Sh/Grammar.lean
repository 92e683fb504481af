import Mathlib.Logic.Function.Iterate
import Mathlib.Data.List.DropRight
import Xv6.Sh.Basic

/-!
# Xv6.Sh.Grammar — tokens and the grammar of command lines

The line as a sequence of tokens, and what the grammar derives from it, each derivation with
its tree:

    line  ::= pipe '&'* [';' line]
    pipe  ::= exec ['|' pipe]
    exec  ::= '(' line ')' redir* | redir* (word redir*)*    with fewer than MAXARGS words
    redir ::= ('<' | '>' | '>>') word

The two functions that move the cursor are described by the tokens that are left.
-/

namespace Xv6.Sh

open Lib List

/-! ## Tokens -/

inductive Tok
  | word (w : List Char)
  | sym (kind : Char)
  deriving DecidableEq, Repr

/-- A token of `gettoken`. -/
def Tok.of (kind : Char) (w : List Char) : Tok := if kind = 'a' then .word w else .sym kind

theorem length_token (c : Char) (s : List Char) : (token (c :: s)).2.2.length ≤ s.length := by
  unfold token
  split
  · next h => cases h
  · next t h =>
    cases h
    exact Nat.le_succ _
  · next h =>
    cases h
    split
    · exact Nat.le_refl _
    · exact length_dropWhile_le _ _

theorem length_rest {s t : List Char} {c : Char} (h : skip s = c :: t) :
    (token (c :: t)).2.2.length < s.length := by
  have hskip : (skip s).length ≤ s.length := length_dropWhile_le _ _
  have htoken := length_token c t
  rw [h, length_cons] at hskip
  omega

/-- The tokens of a line. -/
def tokens (s : List Char) : List Tok :=
  match _h : skip s with
  | [] => []
  | c :: t => Tok.of (token (c :: t)).1 (token (c :: t)).2.1 :: tokens (token (c :: t)).2.2
termination_by s.length
decreasing_by exact length_rest ‹_›

section
variable {s t : List Char} {c : Char} {ts : List Tok} {tok : Tok} {toks : List Char}
  {E : Stop → Prop}

theorem tokens_nil (h : skip s = []) : tokens s = [] := by
  rw [tokens]
  split
  · rfl
  · next h' =>
    rw [h] at h'
    cases h'

/-- The next token, and those after it. -/
theorem tokens_cons (h : skip s = c :: t) : tokens s =
    Tok.of (token (c :: t)).1 (token (c :: t)).2.1 :: tokens (token (c :: t)).2.2 := by
  rw [tokens]
  split
  · next h' =>
    rw [h] at h'
    cases h'
  · next h' =>
    rw [h] at h'
    cases h'
    rfl

theorem skip_skip (s : List Char) : skip (skip s) = skip s := dropWhile_idempotent _ _

theorem tokens_skip (s : List Char) : tokens (skip s) = tokens s := by
  cases h : skip s with
  | nil =>
    rw [tokens_nil h, tokens_nil rfl]
  | cons c t =>
    have h' : skip (c :: t) = c :: t := by rw [← h, skip_skip]
    rw [tokens_cons h, tokens_cons h']

theorem tokens_eq_nil : tokens s = [] ↔ skip s = [] := by
  refine ⟨fun h => ?_, tokens_nil⟩
  cases hs : skip s with
  | nil => rfl
  | cons c t =>
    rw [tokens_cons hs] at h
    cases h

theorem length_tokens (s : List Char) : (tokens s).length ≤ s.length := by
  cases h : skip s with
  | nil =>
    rw [tokens_nil h]
    exact Nat.zero_le _
  | cons c t =>
    have ih := length_tokens (token (c :: t)).2.2
    have hrest := length_rest h
    rw [tokens_cons h, length_cons]
    omega
termination_by s.length
decreasing_by exact length_rest h

/-! ## The cursor -/

/-- `peek` finds a token that starts with one of these symbols. -/
def Tok.starts (toks : List Char) : Tok → Bool
  | .word _ => false
  | .sym kind => toks.contains (if kind = '+' then '>' else kind)

/-- A token begins with a symbol exactly if the text does. -/
theorem starts_token (htoks : toks ⊆ symbols) (c : Char) (t : List Char) :
    (Tok.of (token (c :: t)).1 (token (c :: t)).2.1).starts toks = toks.contains c := by
  unfold token
  split
  · next h => cases h
  · next h =>
    cases h
    rfl
  next hne h =>
  cases h
  split
  · next hc =>
    have hword : c ≠ 'a' := by rintro rfl; exact absurd hc (by decide)
    have hplus : c ≠ '+' := by rintro rfl; exact absurd hc (by decide)
    rw [Tok.of, if_neg hword, Tok.starts, if_neg hplus]
  · next hc =>
    have hnot : toks.contains c = false := by
      rw [contains_eq_mem, decide_eq_false_iff_not]
      intro hmem
      exact hc (contains_iff_mem.mpr (htoks hmem))
    rw [hnot]
    rfl

/-- `peek` skips blanks and tells how the next token begins. -/
theorem wp_peek (htoks : toks ⊆ symbols) {Q : Bool → List Char → Prop}
    (h : ∀ s', tokens s' = tokens s → Q ((tokens s).head?.any (Tok.starts toks)) s') :
    wp E (peek toks) Q s := by
  have hstarts : (skip s).head?.any (fun c => toks.contains c) =
      (tokens s).head?.any (Tok.starts toks) := by
    cases hs : skip s with
    | nil =>
      rw [tokens_nil hs]
      rfl
    | cons c t =>
      rw [tokens_cons hs]
      exact (starts_token htoks c t).symm
  simp only [peek, wp_bind, wp_get, wp_set, wp_pure, hstarts]
  exact h _ (tokens_skip s)

section
variable {α : Type} {m m' : P α} {Q : α → List Char → Prop} (htoks : toks ⊆ symbols)
include htoks

theorem wp_peek_then (hs : tokens s = tok :: ts) (htok : tok.starts toks = true)
    (h : ∀ s', tokens s' = tok :: ts → wp E m Q s') :
    wp E (peek toks >>= fun b => if b = true then m else m') Q s := by
  rw [wp_bind]
  refine wp_peek htoks fun s' hs' => ?_
  rw [hs, head?_cons, Option.any_some, htok, if_pos rfl]
  exact h s' (hs'.trans hs)

theorem wp_peek_else (htok : (tokens s).head?.any (Tok.starts toks) = false)
    (h : ∀ s', tokens s' = tokens s → wp E m' Q s') :
    wp E (peek toks >>= fun b => if b = true then m else m') Q s := by
  rw [wp_bind]
  refine wp_peek htoks fun s' hs' => ?_
  rw [htok, if_neg Bool.false_ne_true]
  exact h s' hs'

/-- Both answers of `peek`. -/
theorem wp_peek_if (hthen : ∀ tok ts s', tokens s = tok :: ts → tokens s' = tok :: ts →
      tok.starts toks = true → wp E m Q s') (helse : ∀ s', tokens s' = tokens s → wp E m' Q s') :
    wp E (peek toks >>= fun b => if b = true then m else m') Q s := by
  cases hany : (tokens s).head?.any (Tok.starts toks) with
  | false => exact wp_peek_else htoks hany helse
  | true =>
    cases hs : tokens s with
    | nil =>
      rw [hs] at hany
      cases hany
    | cons tok ts =>
      rw [hs] at hany
      exact wp_peek_then htoks hs hany fun s' hs' => hthen tok ts s' hs hs' hany

end

/-- The kinds of `gettoken`: `+` for `>>`, a symbol, or `a` for a word. -/
theorem token_kind (c : Char) (t : List Char) : (token (c :: t)).1 = '+' ∨
    (token (c :: t)).1 ∈ symbols ∨ (token (c :: t)).1 = 'a' := by
  unfold token
  split
  · next h => cases h
  · exact .inl rfl
  · next h =>
    cases h
    split
    · next hc => exact .inr (.inl (contains_iff_mem.mp hc))
    · exact .inr (.inr rfl)

/-- `gettoken` takes the first token. -/
theorem wp_gettoken (hs : tokens s = tok :: ts) {Q : Char × List Char → List Char → Prop}
    (h : ∀ r s', tokens s' = ts → r.1 ≠ '\x00' → tok = Tok.of r.1 r.2 → Q r s') :
    wp E gettoken Q s := by
  cases hskip : skip s with
  | nil =>
    rw [tokens_nil hskip] at hs
    cases hs
  | cons c t =>
    rw [tokens_cons hskip] at hs
    obtain ⟨htok, hts⟩ := List.cons.inj hs
    have hkind : (token (c :: t)).1 ≠ '\x00' := by
      intro h0
      have := token_kind c t
      rw [h0] at this
      exact absurd this (by decide)
    simp only [gettoken, wp_bind, wp_get, wp_set, wp_pure, hskip]
    exact h _ _ (by rw [tokens_skip, hts]) hkind htok.symm

theorem wp_gettoken_end (hs : tokens s = []) {Q : Char × List Char → List Char → Prop}
    (h : ∀ r s', tokens s' = [] → r.1 = '\x00' → Q r s') : wp E gettoken Q s := by
  simp only [gettoken, wp_bind, wp_get, wp_set, wp_pure, tokens_eq_nil.mp hs]
  exact h _ _ (tokens_nil rfl) rfl

theorem Tok.of_word {k : Char} {w v : List Char} (h : Tok.word v = Tok.of k w) :
    k = 'a' ∧ w = v := by
  unfold Tok.of at h
  split at h
  · next hk =>
    cases h
    exact ⟨hk, rfl⟩
  · cases h

theorem Tok.of_sym {k c : Char} {w : List Char} (h : Tok.sym c = Tok.of k w) :
    k = c ∧ k ≠ 'a' := by
  unfold Tok.of at h
  split at h
  · cases h
  · next hk =>
    cases h
    exact ⟨rfl, hk⟩

end

/-! ## The grammar -/

/-- The three redirections, by the kind of their token. -/
inductive Arrow
  | input
  | output
  | append
  deriving DecidableEq, Repr

def Arrow.kind : Arrow → Char
  | .input => '<'
  | .output => '>'
  | .append => '+'

/-- `redir` -/
structure Redir where
  arrow : Arrow
  file : List Char
  deriving DecidableEq, Repr

def Redir.toks (r : Redir) : List Tok := [.sym r.arrow.kind, .word r.file]

def Redir.around (c : Cmd) (r : Redir) : Cmd :=
  match r.arrow with
  | .input => .redir c r.file O_RDONLY 0
  | .output => .redir c r.file (O_WRONLY ||| O_CREATE ||| O_TRUNC) 1
  | .append => .redir c r.file (O_WRONLY ||| O_CREATE) 1

/-- Redirections nested in source order: the first one stands inside. -/
def nest (c : Cmd) (rs : List Redir) : Cmd := rs.foldl Redir.around c

/-- What a simple command is written with. -/
inductive Item
  | word (w : List Char)
  | redir (r : Redir)
  deriving DecidableEq, Repr

def Item.toks : Item → List Tok
  | .word w => [.word w]
  | .redir r => r.toks

def Item.word? : Item → Option (List Char)
  | .word w => some w
  | .redir _ => none

def Item.redir? : Item → Option Redir
  | .word _ => none
  | .redir r => some r

def words (items : List Item) : List (List Char) := items.filterMap Item.word?

def redirs (items : List Item) : List Redir := items.filterMap Item.redir?

/-- The words of a simple command, inside its redirections. -/
def simple (items : List Item) : Cmd := nest (.exec (words items)) (redirs items)

inductive Nonterminal
  | line
  | pipe
  | exec
  deriving DecidableEq, Repr

/-- The tokens `ts` are derivable as a `line`, `pipe` or `exec`, and `c` is the tree. -/
inductive Derives : Nonterminal → List Tok → Cmd → Prop
  | line {ts c} (n : Nat) (h : Derives .pipe ts c) :
      Derives .line (ts ++ List.replicate n (.sym '&')) (Cmd.back^[n] c)
  | list {ts us c d} (n : Nat) (h : Derives .pipe ts c) (h' : Derives .line us d) :
      Derives .line (ts ++ List.replicate n (.sym '&') ++ .sym ';' :: us)
        (.list (Cmd.back^[n] c) d)
  | exec {ts c} (h : Derives .exec ts c) : Derives .pipe ts c
  | pipe {ts us c d} (h : Derives .exec ts c) (h' : Derives .pipe us d) :
      Derives .pipe (ts ++ .sym '|' :: us) (.pipe c d)
  | block {ts c} (h : Derives .line ts c) (rs : List Redir) :
      Derives .exec (.sym '(' :: ts ++ .sym ')' :: rs.flatMap Redir.toks) (nest c rs)
  | simple (items : List Item) (h : (words items).length < MAXARGS) :
      Derives .exec (items.flatMap Item.toks) (simple items)

end Xv6.Sh
