import Xv6.Sh.Grammar

/-!
# Xv6.Sh.Accept — the parser accepts exactly the grammar

Soundness is an induction on the rounds that are left: what a function has taken from the line
is derivable, and with four rounds for each token none of them runs out. Completeness is an
induction on the derivation. A function takes the whole of it because of what can follow: behind
a line the end or `)`, behind a pipe also `&` and `;`, behind a command also `|`.
-/

namespace Xv6.Sh

open Lib List

/-! ## Redirections and arguments -/

section
variable {s : List Char} {c : Cmd} {fuel : Nat} {tok : Tok} {ts : List Tok}

theorem redirect_kind (c : Cmd) (r : Redir) : redirect c r.arrow.kind r.file = r.around c := by
  obtain ⟨a, w⟩ := r
  cases a <;> rfl

theorem Redir.addArg_around (c : Cmd) (r : Redir) (w : List Char) :
    (r.around c).addArg w = r.around (c.addArg w) := by
  obtain ⟨a, v⟩ := r
  cases a <;> rfl

theorem addArg_nest (rs : List Redir) (c : Cmd) (w : List Char) :
    (nest c rs).addArg w = nest (c.addArg w) rs := by
  induction rs generalizing c with
  | nil => rfl
  | cons r rs ih =>
    have hr := ih (r.around c)
    rw [r.addArg_around] at hr
    exact hr

theorem nest_append (c : Cmd) (rs rs' : List Redir) : nest c (rs ++ rs') = nest (nest c rs) rs' :=
  foldl_append

theorem words_append (items more : List Item) :
    words (items ++ more) = words items ++ words more := filterMap_append

theorem redirs_append (items more : List Item) :
    redirs (items ++ more) = redirs items ++ redirs more := filterMap_append

theorem words_redirs (rs : List Redir) : words (rs.map .redir) = [] := by
  rw [words, filterMap_map, filterMap_eq_nil_iff]
  exact fun _ _ => rfl

theorem redirs_redirs (rs : List Redir) : redirs (rs.map .redir) = rs := by
  rw [redirs, filterMap_map]
  exact filterMap_some

/-- One more word goes to the end of `argv`. -/
theorem simple_word (items : List Item) (w : List Char) :
    simple (items ++ [.word w]) = (simple items).addArg w := by
  have hredirs : redirs [Item.word w] = [] := rfl
  rw [simple, words_append, redirs_append, hredirs, append_nil, simple, addArg_nest]
  rfl

/-- More redirections stand around what is there. -/
theorem simple_redirs (items : List Item) (rs : List Redir) :
    simple (items ++ rs.map .redir) = nest (simple items) rs := by
  rw [simple, words_append, redirs_append, words_redirs, redirs_redirs, append_nil,
    nest_append, simple]

/-- The step of the loop of `parseexec`: a word and the redirections behind it. -/
theorem append_arg (items more : List Item) (w : List Char) (rs : List Redir) :
    items ++ [.word w] ++ rs.map .redir ++ more = items ++ (.word w :: rs.map .redir ++ more) := by
  simp only [append_assoc, cons_append, nil_append]

theorem length_words_arg (items : List Item) (w : List Char) (rs : List Redir) :
    (words (items ++ [.word w] ++ rs.map .redir)).length = (words items).length + 1 := by
  rw [words_append, words_redirs, append_nil, words_append, length_append]
  rfl

theorem starts_arrow (h : tok.starts ['<', '>'] = true) : ∃ a : Arrow, tok = .sym a.kind := by
  cases tok with
  | word w => cases h
  | sym k =>
    rw [Tok.starts, contains_iff_mem] at h
    split at h
    · next hk => exact ⟨.append, by rw [hk]; rfl⟩
    · simp only [mem_cons, not_mem_nil, or_false] at h
      obtain rfl | rfl := h
      · exact ⟨.input, rfl⟩
      · exact ⟨.output, rfl⟩

theorem starts_sym {k : Char} (hk : k ≠ '>') (h : tok.starts [k] = true) : tok = .sym k := by
  cases tok with
  | word w => cases h
  | sym j =>
    rw [Tok.starts, contains_iff_mem, mem_singleton] at h
    split at h
    · exact absurd h.symm hk
    · rw [h]

/-- What is taken are redirections, the last one outermost. -/
theorem parseredirs_sound (hf : (tokens s).length < fuel) :
    wp (· ≠ .fuel) (parseredirs fuel c)
      (fun d s' => ∃ rs, d = nest c rs ∧ tokens s = rs.flatMap Redir.toks ++ tokens s') s := by
  induction fuel generalizing s c with
  | zero => omega
  | succ fuel ih =>
    rw [parseredirs]
    refine wp_peek_if (by decide) (fun tok ts s' hs hs' harrow => ?_) fun s' hs' => ?_
    · obtain ⟨a, rfl⟩ := starts_arrow harrow
      rw [wp_bind]
      refine wp_gettoken hs' fun r t ht _ hr => ?_
      obtain ⟨hra, -⟩ := Tok.of_sym hr
      rw [wp_bind]
      cases hts : ts with
      | nil =>
        refine wp_gettoken_end (ht.trans hts) fun q u _ hq => ?_
        rw [if_pos (by rw [hq]; decide), wp_throw]
        exact nofun
      | cons tok' us =>
        refine wp_gettoken (ht.trans hts) fun q u hu _ hq => ?_
        cases tok' with
        | sym k =>
          rw [if_pos (Tok.of_sym hq).2, wp_throw]
          exact nofun
        | word w =>
          obtain ⟨hqa, hqw⟩ := Tok.of_word hq
          have hlen : (tokens u).length < fuel := by
            rw [hs, hts, length_cons, length_cons] at hf
            rw [hu]
            omega
          rw [if_neg (not_not_intro hqa), hra, hqw]
          refine wp_mono (ih hlen) fun d v hd => ?_
          obtain ⟨rs, rfl, hrs⟩ := hd
          refine ⟨⟨a, w⟩ :: rs, ?_, ?_⟩
          · rw [redirect_kind c ⟨a, w⟩]
            rfl
          · rw [hs, hts, ← hu, hrs]
            rfl
    · exact wp_ret ⟨[], rfl, hs'.symm⟩

theorem toks_redirs (rs : List Redir) :
    (rs.map Item.redir).flatMap Item.toks = rs.flatMap Redir.toks := by
  rw [flatMap_map]
  rfl

/-- What is taken are redirections, and words, all in all fewer than `MAXARGS`. -/
theorem parseargs_sound (items : List Item) (hlen : (words items).length < MAXARGS)
    (hf : (tokens s).length < fuel) :
    wp (· ≠ .fuel) (parseargs fuel (words items).length (simple items))
      (fun d s' => ∃ more, d = simple (items ++ more) ∧ (words (items ++ more)).length < MAXARGS ∧
        tokens s = more.flatMap Item.toks ++ tokens s') s := by
  induction fuel generalizing s items with
  | zero => omega
  | succ fuel ih =>
    have hdone : ∀ s', tokens s' = tokens s → ∃ more, simple items = simple (items ++ more) ∧
        (words (items ++ more)).length < MAXARGS ∧
        tokens s = more.flatMap Item.toks ++ tokens s' := fun s' hs' =>
      ⟨[], by rw [append_nil], by rwa [append_nil], hs'.symm⟩
    rw [parseargs]
    refine wp_peek_if (by decide) (fun tok ts s' hs hs' _ => ?_) fun s' hs' => ?_
    · exact wp_ret (hdone s' (hs'.trans hs.symm))
    rw [wp_bind]
    cases hs : tokens s with
    | nil =>
      refine wp_gettoken_end (hs'.trans hs) fun r t ht hr => ?_
      rw [if_pos hr, wp_pure, ← hs]
      exact hdone t (ht.trans hs.symm)
    | cons tok ts =>
      refine wp_gettoken (hs'.trans hs) fun r t ht hr0 hr => ?_
      rw [if_neg hr0]
      cases tok with
      | sym k =>
        rw [if_pos (Tok.of_sym hr).2, wp_throw]
        exact nofun
      | word w =>
        obtain ⟨hra, hrw⟩ := Tok.of_word hr
        rw [if_neg (not_not_intro hra)]
        split
        · rw [wp_throw]
          exact nofun
        next hargc =>
        have hshort : (tokens t).length < fuel := by
          rw [hs, length_cons] at hf
          rw [ht]
          omega
        rw [wp_bind, hrw, ← simple_word]
        refine wp_mono (parseredirs_sound hshort) fun d u hd => ?_
        obtain ⟨rs, rfl, hrs⟩ := hd
        have hwords := length_words_arg items w rs
        have hleft : (tokens u).length < fuel := by
          rw [hrs, length_append] at hshort
          omega
        rw [← simple_redirs, ← hwords]
        refine wp_mono (ih _ (by omega) hleft) fun d v hd => ?_
        obtain ⟨more, rfl, hmore, hu⟩ := hd
        refine ⟨.word w :: rs.map .redir ++ more, by rw [append_arg], by rwa [← append_arg], ?_⟩
        rw [← ht, hrs, hu, cons_append, flatMap_cons, flatMap_append,
          toks_redirs, append_assoc, append_assoc]
        rfl

theorem parseback_sound (hf : (tokens s).length < fuel) :
    wp (· ≠ .fuel) (parseback fuel c)
      (fun d s' => ∃ n, d = Cmd.back^[n] c ∧
        tokens s = List.replicate n (.sym '&') ++ tokens s') s := by
  induction fuel generalizing s c with
  | zero => omega
  | succ fuel ih =>
    rw [parseback]
    refine wp_peek_if (by decide) (fun tok ts s' hs hs' hamp => ?_) fun s' hs' => ?_
    · have htok := starts_sym (by decide) hamp
      rw [wp_bind]
      refine wp_gettoken hs' fun _ t ht _ _ => ?_
      have hlen : (tokens t).length < fuel := by
        rw [hs, length_cons] at hf
        rw [ht]
        omega
      refine wp_mono (ih hlen) fun d u hd => ?_
      obtain ⟨n, rfl, hn⟩ := hd
      refine ⟨n + 1, rfl, ?_⟩
      rw [hs, htok, ← ht, hn]
      rfl
    · exact wp_ret ⟨0, rfl, hs'.symm⟩

end

/-! ## Nothing else is accepted -/

/-- What a function has taken from the line, and the tree it returns. -/
def Taken (k : Nonterminal) (s : List Char) (c : Cmd) (s' : List Char) : Prop :=
  ∃ ts, Derives k ts c ∧ tokens s = ts ++ tokens s'

theorem Taken.congr {k : Nonterminal} {s t : List Char} (h : tokens s = tokens t) :
    Taken k s = Taken k t := by
  unfold Taken
  rw [h]

/-- With these rounds none of the functions runs out. -/
structure Sound (fuel : Nat) : Prop where
  line : ∀ s, 4 * (tokens s).length + 4 ≤ fuel →
    wp (· ≠ .fuel) (parseline fuel) (Taken .line s) s
  pipe : ∀ s, 4 * (tokens s).length + 3 ≤ fuel →
    wp (· ≠ .fuel) (parsepipe fuel) (Taken .pipe s) s
  exec : ∀ s, 4 * (tokens s).length + 2 ≤ fuel →
    wp (· ≠ .fuel) (parseexec fuel) (Taken .exec s) s
  block : ∀ s, 4 * (tokens s).length + 1 ≤ fuel →
    wp (· ≠ .fuel) (parseblock fuel) (Taken .exec s) s

variable {fuel : Nat} {s : List Char}

theorem Sound.parseblock (ih : Sound fuel) (hf : 4 * (tokens s).length + 1 ≤ fuel + 1) :
    wp (· ≠ .fuel) (parseblock (fuel + 1)) (Taken .exec s) s := by
  rw [Sh.parseblock]
  refine wp_peek_if (by decide) (fun tok ts s' hs hs' hopen => ?_) fun s' _ => ?_
  · have htok := starts_sym (by decide) hopen
    rw [hs, length_cons] at hf
    rw [wp_bind]
    refine wp_gettoken hs' fun _ t ht _ _ => ?_
    refine wp_call (ih.line t (by rw [ht]; omega)) fun c u hc => ?_
    obtain ⟨us, hus, hu⟩ := hc
    refine wp_peek_if (by decide) (fun tok' vs u' hvs hu' hclose => ?_) fun u' _ => ?_
    · have htok' := starts_sym (by decide) hclose
      rw [wp_bind]
      refine wp_gettoken hu' fun _ v hv _ _ => ?_
      have hlen : (tokens v).length < fuel := by
        rw [hv]
        rw [← ht, hu, hvs, length_append, length_cons] at hf
        omega
      refine wp_mono (parseredirs_sound hlen) fun d w hd => ?_
      obtain ⟨rs, rfl, hrs⟩ := hd
      refine ⟨_, .block hus rs, ?_⟩
      rw [hs, ← ht, hu, hvs, ← hv, hrs, htok, htok']
      simp only [cons_append, append_assoc]
    · rw [wp_throw]
      exact nofun
  · rw [wp_throw]
    exact nofun

theorem Sound.parseexec (ih : Sound fuel) (hf : 4 * (tokens s).length + 2 ≤ fuel + 1) :
    wp (· ≠ .fuel) (parseexec (fuel + 1)) (Taken .exec s) s := by
  rw [Sh.parseexec]
  refine wp_peek_if (by decide) (fun tok ts s' hs hs' _ => ?_) fun s' hs' => ?_
  · have hblock := ih.block s' (by rw [hs', ← hs]; omega)
    rwa [Taken.congr (hs'.trans hs.symm)] at hblock
  rw [wp_bind]
  have hlen : (tokens s').length < fuel := by
    rw [hs']
    omega
  refine wp_mono (parseredirs_sound hlen) fun d t hd => ?_
  obtain ⟨rs, rfl, hrs⟩ := hd
  have hbase : nest (.exec []) rs = simple (rs.map .redir) := (simple_redirs [] rs).symm
  have hnone : (words (rs.map Item.redir)).length = 0 := by
    rw [words_redirs]
    rfl
  have hargs := parseargs_sound (rs.map .redir) (by rw [hnone]; decide)
    (show (tokens t).length < fuel by rw [hrs, length_append] at hlen; omega)
  rw [hnone] at hargs
  rw [hbase]
  refine wp_mono hargs fun c u hc => ?_
  obtain ⟨more, rfl, hshort, hmore⟩ := hc
  refine ⟨_, .simple _ hshort, ?_⟩
  rw [← hs', hrs, hmore, flatMap_append, toks_redirs, append_assoc]

theorem Sound.parsepipe (ih : Sound fuel) (hf : 4 * (tokens s).length + 3 ≤ fuel + 1) :
    wp (· ≠ .fuel) (parsepipe (fuel + 1)) (Taken .pipe s) s := by
  rw [Sh.parsepipe]
  refine wp_call (ih.exec s (by omega)) fun c t hc => ?_
  obtain ⟨ts, hts, hs⟩ := hc
  refine wp_peek_if (by decide) (fun tok us t' ht ht' hbar => ?_) fun t' ht' => ?_
  · have htok := starts_sym (by decide) hbar
    rw [hs, ht, length_append, length_cons] at hf
    rw [wp_bind]
    refine wp_gettoken ht' fun _ u hu _ _ => ?_
    refine wp_call (ih.pipe u (by rw [hu]; omega)) fun d v hd => ?_
    obtain ⟨vs, hvs, huv⟩ := hd
    rw [wp_pure]
    refine ⟨_, .pipe hts hvs, ?_⟩
    rw [hs, ht, htok, ← hu, huv, append_assoc]
    rfl
  · exact wp_ret ⟨ts, .exec hts, by rw [hs, ht']⟩

theorem Sound.parseline (ih : Sound fuel) (hf : 4 * (tokens s).length + 4 ≤ fuel + 1) :
    wp (· ≠ .fuel) (parseline (fuel + 1)) (Taken .line s) s := by
  rw [Sh.parseline]
  refine wp_call (ih.pipe s (by omega)) fun c t hc => ?_
  obtain ⟨ts, hts, hs⟩ := hc
  rw [hs, length_append] at hf
  refine wp_call (parseback_sound (s := t) (by omega)) fun d t hd => ?_
  obtain ⟨n, rfl, hn⟩ := hd
  refine wp_peek_if (by decide) (fun tok us t' ht ht' hsemi => ?_) fun t' ht' => ?_
  · have htok := starts_sym (by decide) hsemi
    rw [hn, ht, length_append, length_cons] at hf
    rw [wp_bind]
    refine wp_gettoken ht' fun _ u hu _ _ => ?_
    refine wp_call (ih.line u (by rw [hu]; omega)) fun d v hd => ?_
    obtain ⟨vs, hvs, huv⟩ := hd
    rw [wp_pure]
    refine ⟨_, .list n hts hvs, ?_⟩
    rw [hs, hn, ht, htok, ← hu, huv, append_assoc, append_assoc]
    rfl
  · exact wp_ret ⟨_, .line n hts, by rw [hs, hn, ht', append_assoc]⟩

/-- By induction on the rounds, the four functions at once. -/
theorem sound (fuel : Nat) : Sound fuel := by
  induction fuel with
  | zero => constructor <;> (intro s hf; omega)
  | succ fuel ih =>
    exact ⟨fun _ => ih.parseline, fun _ => ih.parsepipe, fun _ => ih.parseexec,
      fun _ => ih.parseblock⟩

/-! ## Everything derivable is accepted -/

def Nonterminal.parse : Nonterminal → Nat → P Cmd
  | .line => parseline
  | .pipe => parsepipe
  | .exec => parseexec

/-- The rounds for `n` tokens. -/
def Nonterminal.rounds (n : Nat) : Nonterminal → Nat
  | .line => 4 * n + 4
  | .pipe => 4 * n + 3
  | .exec => 4 * n + 2

/-- The symbols that can stand behind a phrase. -/
def Nonterminal.follow : Nonterminal → List Char
  | .line => [')']
  | .pipe => [')', '&', ';']
  | .exec => [')', '&', ';', '|']

/-- The phrase ends where `vs` begins. -/
def Follows (k : Nonterminal) (vs : List Tok) : Prop :=
  ∀ tok ∈ vs.head?, ∃ c ∈ k.follow, tok = .sym c

section
variable {k : Nonterminal} {vs ts : List Tok} {c : Cmd} {toks : List Char}

theorem follows_sym {c : Char} (hc : c ∈ k.follow) : Follows k (.sym c :: ts) := by
  intro tok htok
  rw [head?_cons, Option.mem_some_iff] at htok
  exact ⟨c, hc, htok.symm⟩

theorem Follows.mono {j : Nonterminal} (h : Follows k vs) (hkj : k.follow ⊆ j.follow) :
    Follows j vs := by
  intro tok htok
  obtain ⟨c, hc, rfl⟩ := h tok htok
  exact ⟨c, hkj hc, rfl⟩

/-- None of these symbols stands behind the phrase. -/
theorem Follows.not_starts (h : Follows k vs) (hdisj : k.follow.all fun c => c ∉ toks)
    (hplus : '+' ∉ k.follow) : vs.head?.any (Tok.starts toks) = false := by
  cases vs with
  | nil => rfl
  | cons tok ts =>
    obtain ⟨c, hc, rfl⟩ := h tok rfl
    have hne : c ≠ '+' := by
      rintro rfl
      exact hplus hc
    rw [head?_cons, Option.any_some, Tok.starts, if_neg hne, contains_eq_mem,
      decide_eq_false_iff_not]
    exact of_decide_eq_true (all_eq_true.mp hdisj c hc)

theorem parseredirs_complete (rs : List Redir) (hs : tokens s = rs.flatMap Redir.toks ++ vs)
    (hend : vs.head?.any (Tok.starts ['<', '>']) = false) (hf : (tokens s).length < fuel) :
    wp (fun _ => False) (parseredirs fuel c) (fun d s' => d = nest c rs ∧ tokens s' = vs) s := by
  induction rs generalizing s c fuel with
  | nil =>
    obtain _ | fuel := fuel
    · omega
    have htok : tokens s = vs := hs
    rw [parseredirs]
    refine wp_peek_else (by decide) (by rwa [htok]) fun s' hs' => ?_
    exact wp_ret ⟨rfl, hs'.trans htok⟩
  | cons r rs ih =>
    obtain _ | fuel := fuel
    · omega
    have hfirst : tokens s = .sym r.arrow.kind :: .word r.file :: (rs.flatMap Redir.toks ++ vs) :=
      hs
    have hstarts : (Tok.sym r.arrow.kind).starts ['<', '>'] = true := by cases r.arrow <;> rfl
    rw [hfirst, length_cons, length_cons] at hf
    rw [parseredirs]
    refine wp_peek_then (by decide) hfirst hstarts fun s' hs' => ?_
    rw [wp_bind]
    refine wp_gettoken hs' fun q t ht _ hq => ?_
    rw [wp_bind]
    refine wp_gettoken ht fun q' u hu _ hq' => ?_
    obtain ⟨hword, hfile⟩ := Tok.of_word hq'
    rw [if_neg (not_not_intro hword), (Tok.of_sym hq).1, hfile, redirect_kind]
    exact ih hu (by rw [hu]; omega)

/-- The redirections at the front. -/
theorem exists_redirs (items : List Item) : ∃ (rs : List Redir) (rest : List Item),
    items = rs.map .redir ++ rest ∧ ∀ i ∈ rest.head?, ∃ w, i = .word w := by
  induction items with
  | nil => exact ⟨[], [], rfl, nofun⟩
  | cons i items ih =>
    cases i with
    | word w =>
      refine ⟨[], .word w :: items, rfl, fun i hi => ?_⟩
      rw [head?_cons, Option.mem_some_iff] at hi
      exact ⟨w, hi.symm⟩
    | redir r =>
      obtain ⟨rs, rest, rfl, hrest⟩ := ih
      exact ⟨r :: rs, rest, rfl, hrest⟩

/-- A word, or what stands behind the command. -/
theorem not_starts_words {rest : List Item} (hrest : ∀ i ∈ rest.head?, ∃ w, i = .word w)
    (hvs : Follows .exec vs) (hdisj : Nonterminal.exec.follow.all fun c => c ∉ toks) :
    (rest.flatMap Item.toks ++ vs).head?.any (Tok.starts toks) = false := by
  cases rest with
  | nil => exact hvs.not_starts hdisj (by decide)
  | cons i rest =>
    obtain ⟨w, rfl⟩ := hrest i rfl
    rfl

/-- Where the loop of `parseexec` stops. -/
theorem starts_follow : ∀ c ∈ Nonterminal.exec.follow,
    (Tok.sym c).starts ['|', ')', '&', ';'] = true := all_eq_true.mp (by decide)

theorem parseargs_complete (items rest : List Item) (hrest : ∀ i ∈ rest.head?, ∃ w, i = .word w)
    (hs : tokens s = rest.flatMap Item.toks ++ vs) (hvs : Follows .exec vs)
    (hlen : (words (items ++ rest)).length < MAXARGS) (hf : (tokens s).length < fuel) :
    wp (fun _ => False) (parseargs fuel (words items).length (simple items))
      (fun d s' => d = simple (items ++ rest) ∧ tokens s' = vs) s := by
  induction fuel generalizing s items rest with
  | zero => omega
  | succ fuel ih =>
    rw [parseargs]
    cases rest with
    | nil =>
      have htok : tokens s = vs := hs
      rw [append_nil]
      cases vs with
      | nil =>
        refine wp_peek_else (by decide) (by rw [htok]; rfl) fun s' hs' => ?_
        rw [wp_bind]
        refine wp_gettoken_end (hs'.trans htok) fun r t ht hr => ?_
        rw [if_pos hr, wp_pure]
        exact ⟨rfl, ht⟩
      | cons tok vs =>
        obtain ⟨c, hc, rfl⟩ := hvs tok rfl
        refine wp_peek_then (by decide) htok (starts_follow c hc) fun s' hs' => ?_
        exact wp_ret ⟨rfl, hs'⟩
    | cons i rest =>
      obtain ⟨w, rfl⟩ := hrest i rfl
      obtain ⟨rs, rest, rfl, hrest'⟩ := exists_redirs rest
      have hfirst : tokens s = .word w :: (rs.flatMap Redir.toks ++
          (rest.flatMap Item.toks ++ vs)) := by
        rw [hs, flatMap_cons, flatMap_append, toks_redirs, append_assoc,
          append_assoc]
        rfl
      have hwords := length_words_arg items w rs
      rw [← cons_append, ← append_arg] at hlen ⊢
      have hargc : ¬ MAXARGS ≤ (words items).length + 1 := by
        rw [words_append, length_append, hwords] at hlen
        omega
      rw [hfirst, length_cons] at hf
      refine wp_peek_else (by decide) (by rw [hfirst]; rfl) fun s' hs' => ?_
      rw [wp_bind]
      refine wp_gettoken (hs'.trans hfirst) fun r t ht hr0 hr => ?_
      obtain ⟨hra, hrw⟩ := Tok.of_word hr
      rw [if_neg hr0, if_neg (not_not_intro hra), if_neg hargc, wp_bind, hrw, ← simple_word]
      refine wp_mono (parseredirs_complete rs ht (not_starts_words hrest' hvs (by decide))
        (by rw [ht]; omega)) fun d u hd => ?_
      obtain ⟨rfl, hu⟩ := hd
      rw [← simple_redirs, ← hwords]
      refine ih _ rest hrest' hu hlen ?_
      rw [hu]
      rw [length_append] at hf
      omega

theorem parseback_complete (n : Nat) (hs : tokens s = List.replicate n (.sym '&') ++ vs)
    (hend : vs.head?.any (Tok.starts ['&']) = false) (hf : (tokens s).length < fuel) :
    wp (fun _ => False) (parseback fuel c)
      (fun d s' => d = Cmd.back^[n] c ∧ tokens s' = vs) s := by
  induction n generalizing s c fuel with
  | zero =>
    obtain _ | fuel := fuel
    · omega
    have htok : tokens s = vs := hs
    rw [parseback]
    refine wp_peek_else (by decide) (by rwa [htok]) fun s' hs' => ?_
    exact wp_ret ⟨rfl, hs'.trans htok⟩
  | succ n ih =>
    obtain _ | fuel := fuel
    · omega
    have hfirst : tokens s = .sym '&' :: (List.replicate n (.sym '&') ++ vs) := hs
    rw [hfirst, length_cons] at hf
    rw [parseback]
    refine wp_peek_then (by decide) hfirst rfl fun s' hs' => ?_
    rw [wp_bind]
    refine wp_gettoken hs' fun _ t ht _ _ => ?_
    exact ih ht (by rw [ht]; omega)

/-- A simple command does not begin with `(`. -/
theorem not_open (items : List Item) (hvs : Follows .exec vs) :
    (items.flatMap Item.toks ++ vs).head?.any (Tok.starts ['(']) = false := by
  cases items with
  | nil => exact hvs.not_starts (by decide) (by decide)
  | cons i items =>
    cases i with
    | word w => rfl
    | redir r =>
      obtain ⟨a, w⟩ := r
      cases a <;> rfl

/-- Behind a pipe stand the `&` of the line. -/
theorem follows_back (n : Nat) (h : Follows .pipe vs) :
    Follows .pipe (List.replicate n (.sym '&') ++ vs) := by
  cases n with
  | zero => exact h
  | succ n => exact follows_sym (by decide)

end

section
variable {vs ts us : List Tok} {c d : Cmd}

/-- A phrase is parsed wherever it stands before what can follow it. -/
def Complete (k : Nonterminal) (ts : List Tok) (c : Cmd) : Prop :=
  ∀ s vs fuel, tokens s = ts ++ vs → Follows k vs → k.rounds (tokens s).length ≤ fuel →
    wp (fun _ => False) (k.parse fuel) (fun d s' => d = c ∧ tokens s' = vs) s

theorem Complete.line (n : Nat) (h : Complete .pipe ts c) :
    Complete .line (ts ++ List.replicate n (.sym '&')) (Cmd.back^[n] c) := by
  intro s vs fuel hs hvs hf
  obtain _ | fuel := fuel
  · cases hf
  have hpipe : Follows .pipe vs := hvs.mono (by decide)
  simp only [Nonterminal.rounds] at hf
  rw [append_assoc] at hs
  rw [Nonterminal.parse, parseline]
  refine wp_call (h s _ fuel hs (follows_back n hpipe) (by simp only [Nonterminal.rounds]; omega))
    fun d t hd => ?_
  obtain ⟨rfl, ht⟩ := hd
  refine wp_call (parseback_complete n ht (hvs.not_starts (by decide) (by decide)) ?_)
    fun e u he => ?_
  · rw [ht]
    rw [hs, length_append] at hf
    omega
  · obtain ⟨rfl, hu⟩ := he
    refine wp_peek_else (by decide) (by rw [hu]; exact hvs.not_starts (by decide) (by decide))
      fun v hv => ?_
    exact wp_ret ⟨rfl, hv.trans hu⟩

theorem Complete.list (n : Nat) (h : Complete .pipe ts c) (h' : Complete .line us d) :
    Complete .line (ts ++ List.replicate n (.sym '&') ++ .sym ';' :: us)
      (.list (Cmd.back^[n] c) d) := by
  intro s vs fuel hs hvs hf
  obtain _ | fuel := fuel
  · cases hf
  have hpipe : Follows .pipe (.sym ';' :: (us ++ vs)) := follows_sym (by decide)
  simp only [Nonterminal.rounds] at hf
  rw [append_assoc, append_assoc, cons_append] at hs
  rw [Nonterminal.parse, parseline]
  refine wp_call (h s _ fuel hs (follows_back n hpipe) (by simp only [Nonterminal.rounds]; omega))
    fun d t hd => ?_
  obtain ⟨rfl, ht⟩ := hd
  rw [hs, length_append, length_append, length_cons] at hf
  refine wp_call (parseback_complete n ht rfl ?_) fun e u he => ?_
  · rw [ht, length_append, length_cons]
    omega
  obtain ⟨rfl, hu⟩ := he
  refine wp_peek_then (by decide) hu rfl fun u' hu' => ?_
  rw [wp_bind]
  refine wp_gettoken hu' fun _ v hv _ _ => ?_
  refine wp_call (h' v vs fuel hv hvs (by simp only [Nonterminal.rounds, hv]; omega))
    fun e w he => ?_
  exact wp_ret ⟨by rw [he.1], he.2⟩

theorem Complete.exec (h : Complete .exec ts c) : Complete .pipe ts c := by
  intro s vs fuel hs hvs hf
  obtain _ | fuel := fuel
  · cases hf
  simp only [Nonterminal.rounds] at hf
  rw [Nonterminal.parse, parsepipe]
  refine wp_call (h s vs fuel hs (hvs.mono (by decide)) (by simp only [Nonterminal.rounds]; omega))
    fun d t hd => ?_
  obtain ⟨rfl, ht⟩ := hd
  refine wp_peek_else (by decide) (by rw [ht]; exact hvs.not_starts (by decide) (by decide))
    fun u hu => ?_
  exact wp_ret ⟨rfl, hu.trans ht⟩

theorem Complete.pipe (h : Complete .exec ts c) (h' : Complete .pipe us d) :
    Complete .pipe (ts ++ .sym '|' :: us) (.pipe c d) := by
  intro s vs fuel hs hvs hf
  obtain _ | fuel := fuel
  · cases hf
  simp only [Nonterminal.rounds] at hf
  rw [append_assoc, cons_append] at hs
  rw [Nonterminal.parse, parsepipe]
  refine wp_call (h s _ fuel hs (follows_sym (by decide)) (by
    simp only [Nonterminal.rounds]; omega)) fun d t hd => ?_
  obtain ⟨rfl, ht⟩ := hd
  rw [hs, length_append, length_cons] at hf
  refine wp_peek_then (by decide) ht rfl fun t' ht' => ?_
  rw [wp_bind]
  refine wp_gettoken ht' fun _ u hu _ _ => ?_
  refine wp_call (h' u vs fuel hu hvs (by simp only [Nonterminal.rounds, hu]; omega))
    fun e v he => ?_
  exact wp_ret ⟨by rw [he.1], he.2⟩

theorem Complete.block (h : Complete .line ts c) (rs : List Redir) :
    Complete .exec (.sym '(' :: ts ++ .sym ')' :: rs.flatMap Redir.toks) (nest c rs) := by
  intro s vs fuel hs hvs hf
  simp only [Nonterminal.rounds] at hf
  obtain _ | _ | fuel := fuel
  · omega
  · omega
  have hfirst : tokens s = .sym '(' :: (ts ++ .sym ')' :: (rs.flatMap Redir.toks ++ vs)) := by
    rw [hs, cons_append, cons_append, append_assoc, cons_append]
  rw [hfirst, length_cons] at hf
  rw [Nonterminal.parse, parseexec]
  -- `parseblock` looks for the parenthesis once more
  refine wp_peek_then (by decide) hfirst rfl fun s' hs' => ?_
  rw [parseblock]
  refine wp_peek_then (by decide) hs' rfl fun s'' hs'' => ?_
  rw [wp_bind]
  refine wp_gettoken hs'' fun _ t ht _ _ => ?_
  refine wp_call (h t _ fuel ht (follows_sym (by decide)) (by
    simp only [Nonterminal.rounds, ht]; omega)) fun d u hd => ?_
  obtain ⟨rfl, hu⟩ := hd
  refine wp_peek_then (by decide) hu rfl fun u' hu' => ?_
  rw [wp_bind]
  refine wp_gettoken hu' fun _ v hv _ _ => ?_
  refine parseredirs_complete rs hv (hvs.not_starts (by decide) (by decide)) ?_
  rw [length_append, length_cons] at hf
  rw [hv]
  omega

theorem Complete.simple (items : List Item) (h : (words items).length < MAXARGS) :
    Complete .exec (items.flatMap Item.toks) (simple items) := by
  intro s vs fuel hs hvs hf
  obtain _ | fuel := fuel
  · cases hf
  simp only [Nonterminal.rounds] at hf
  rw [Nonterminal.parse, parseexec]
  refine wp_peek_else (by decide) (by rw [hs]; exact not_open items hvs) fun s' hs' => ?_
  obtain ⟨rs, rest, rfl, hrest⟩ := exists_redirs items
  rw [flatMap_append, toks_redirs, append_assoc] at hs
  refine wp_call (parseredirs_complete rs (hs'.trans hs)
    (not_starts_words hrest hvs (by decide)) (by rw [hs']; omega)) fun d t hd => ?_
  obtain ⟨rfl, ht⟩ := hd
  have hbase : nest (.exec []) rs = Sh.simple (rs.map .redir) := (simple_redirs [] rs).symm
  have hnone : 0 = (words (rs.map Item.redir)).length := by
    rw [words_redirs]
    rfl
  rw [hbase, hnone]
  refine parseargs_complete _ rest hrest ht hvs h ?_
  rw [hs, length_append] at hf
  rw [ht]
  omega

end

/-- By induction on the derivation. -/
theorem Derives.complete {k : Nonterminal} {ts : List Tok} {c : Cmd} (h : Derives k ts c) :
    Complete k ts c := by
  induction h with
  | line n h ih => exact ih.line n
  | list n h h' ih ih' => exact ih.list n ih'
  | exec h ih => exact ih.exec
  | pipe h h' ih ih' => exact ih.pipe ih'
  | block h rs ih => exact ih.block rs
  | simple items h => exact .simple items h

/-! ## The whole line -/

/-- A line is parsed only to a command that it derives. -/
theorem parseall_sound (hf : 4 * (tokens s).length + 4 ≤ fuel) :
    wp (· ≠ .fuel) (parseall fuel) (fun c _ => Derives .line (tokens s) c) s := by
  rw [parseall]
  refine wp_call ((sound fuel).line s hf) fun c t hc => ?_
  obtain ⟨ts, hts, hs⟩ := hc
  simp only [peek, wp_bind, wp_get, wp_set, wp_pure]
  split
  · rw [wp_throw]
    rintro ⟨⟩
  · next hleft =>
    rw [wp_pure, hs, tokens_nil (not_not.mp hleft), append_nil]
    exact hts

/-- A line of the grammar is parsed to its command. -/
theorem parseall_complete {c : Cmd} (h : Derives .line (tokens s) c)
    (hf : 4 * (tokens s).length + 4 ≤ fuel) :
    wp (fun _ => False) (parseall fuel) (fun d _ => d = c) s := by
  rw [parseall]
  refine wp_call (h.complete s [] fuel (append_nil _).symm nofun hf) fun d t hd => ?_
  obtain ⟨rfl, ht⟩ := hd
  simp only [peek, wp_bind, wp_get, wp_set, wp_pure]
  rw [if_neg (not_not_intro (tokens_eq_nil.mp ht)), wp_pure]

/-- Every line is parsed to its end or refused with a message, and it is parsed to the tree `c`
exactly when its tokens derive `c`. -/
theorem parsecmd_derives (buf : List Char) :
    parsecmd buf ≠ .error .fuel ∧
      ∀ c, parsecmd buf = .ok c ↔ Derives .line (tokens (line buf)) c := by
  have hf : 4 * (tokens (line buf)).length + 4 ≤ 4 * (line buf).length + 4 := by
    have := length_tokens (line buf)
    omega
  have hsound := parseall_sound hf
  cases hrun : parseall (4 * (line buf).length + 4) (line buf) with
  | error e =>
    have hcmd : parsecmd buf = .error e := by
      rw [parsecmd, StateT.run', hrun]
      rfl
    rw [wp_of_error hrun] at hsound
    rw [hcmd]
    refine ⟨fun h => hsound (Except.error.inj h), fun c => ⟨nofun, fun h => ?_⟩⟩
    exact ((wp_of_error hrun).mp (parseall_complete h hf)).elim
  | ok r =>
    have hcmd : parsecmd buf = .ok r.1 := by
      rw [parsecmd, StateT.run', hrun]
      rfl
    rw [wp_of_eq hrun] at hsound
    rw [hcmd]
    refine ⟨nofun, fun c => ⟨fun h => ?_, fun h => ?_⟩⟩
    · rw [← Except.ok.inj h]
      exact hsound
    · exact congrArg _ ((wp_of_eq hrun).mp (parseall_complete h hf))

example : parsecmd "echo hi>f;(ls&)|wc".toList = .ok
    (.list (.redir (.exec ["echo".toList, "hi".toList]) "f".toList 0x601 1)
      (.pipe (.back (.exec ["ls".toList])) (.exec ["wc".toList]))) := by decide +kernel

end Xv6.Sh
