import Xv6.Log.Crash

/-!
# Xv6.Log.Recovery — crash atomicity of the log

`Logged start s τ` is what the disk alone says at any moment: its header names the blocks of
`τ`, its log blocks hold their contents, and replaying `τ` over the home blocks gives the
disk with the first `done` transactions applied (`St.target`). Between commits `τ` is empty
and the home blocks are that disk already. A crash keeps `Logged`, since it only keeps the
disk; `recover_from_log` replays `τ`, and being interrupted in the middle of it only means
that `τ` is replayed again (`crash_atomicity`).
-/

namespace Xv6.Log

open Lib Function List

/-! ## Reading back a header -/

variable {i : Nat}

theorem getWord_foldl_setWord (lh : List Nat) : ∀ (k : Nat) (b : Block),
    4 * (k + lh.length) ≤ BSIZE →
    ((lh.zipIdx k).foldl (fun b e => b.setWord e.2 (BitVec.ofNat 32 e.1)) b).getWord i =
      if k ≤ i ∧ i < k + lh.length then BitVec.ofNat 32 (lh.getD (i - k) 0) else b.getWord i := by
  induction lh with
  | nil =>
    intro k b _
    have hout : ¬ (k ≤ i ∧ i < k + ([] : List Nat).length) := by
      rw [length_nil]
      omega
    rw [if_neg hout]
    rfl
  | cons x lh ih =>
    intro k b hk
    rw [length_cons] at hk ⊢
    rw [zipIdx_cons, foldl_cons, ih (k + 1) _ (by omega)]
    by_cases hi : i = k
    · -- the first word of the list, not written again
      subst hi
      rw [if_neg (by omega), if_pos (by omega), Block.getWord_setWord_same _ _ (by omega)]
      simp
    · rw [Block.getWord_setWord_other _ _ hi]
      by_cases hlt : k + 1 ≤ i ∧ i < k + 1 + lh.length
      · have hidx : i - k = i - (k + 1) + 1 := by omega
        rw [if_pos hlt, if_pos (by omega), hidx, getD_cons_succ]
      · rw [if_neg hlt, if_neg (by omega)]

/-- A header that fits. -/
structure HeaderOk (start : Nat) (lh : List Nat) : Prop where
  nodup : lh.Nodup
  length : lh.length ≤ LOGBLOCKS
  home : ∀ b ∈ lh, Crash.Home start b
  bound : ∀ b ∈ lh, b < 2 ^ 32

/-- `read_head` returns what `write_head` wrote, whatever was in the block before. -/
theorem getHead_setHead (b : Block) {lh : List Nat} (hlen : lh.length ≤ LOGBLOCKS)
    (hbound : ∀ x ∈ lh, x < 2 ^ 32) : getHead (setHead b lh) = lh := by
  simp only [LOGBLOCKS, MAXOPBLOCKS] at hlen
  have hsize : 4 * (1 + lh.length) ≤ BSIZE := by
    simp only [BSIZE]
    omega
  have hzero : (setHead b lh).getWord 0 = BitVec.ofNat 32 lh.length := by
    rw [setHead, getWord_foldl_setWord lh 1 _ hsize, if_neg (by omega)]
    exact Block.getWord_setWord_same _ _ (by decide)
  have hn : ((setHead b lh).getWord 0).toInt.toNat = lh.length := by
    have hnat : (BitVec.ofNat 32 lh.length).toNat = lh.length := by
      rw [BitVec.toNat_ofNat]
      exact Nat.mod_eq_of_lt (by omega)
    rw [hzero, BitVec.toInt_eq_toNat_of_lt (by rw [hnat]; omega), hnat, Int.toNat_natCast]
  refine ext_getElem ?_ fun i hi hi' => ?_
  · simp [getHead, hn]
  · have hx := hbound lh[i] (getElem_mem hi')
    simp only [getHead, getElem_map, getElem_range]
    rw [setHead, getWord_foldl_setWord lh 1 _ hsize, if_pos (by omega)]
    simp only [Nat.add_sub_cancel, getD_eq_getElem?_getD, getElem?_eq_getElem hi',
      Option.getD_some, BitVec.toNat_ofNat]
    exact Nat.mod_eq_of_lt hx

namespace Crash

/-! ## What the disk says -/

/-- The disk with the first `done` transactions applied, and nothing else. -/
def St.target (s : St) : Nat → Block := (s.begun.take s.done).foldl writes s.base

/-- The disk has the transaction `τ` in its log, to be replayed. -/
structure Logged (start : Nat) (s : St) (τ : Txn) : Prop where
  head : getHead (s.disk start) = τ.map Prod.fst
  ok : HeaderOk start (τ.map Prod.fst)
  blocks : ∀ i (h : i < τ.length), s.disk (start + i + 1) = τ[i].2
  replay : ∀ b, Home start b → writes s.disk τ b = s.target b

/-- The cache agrees with the disk on the log area. -/
def Coherent (start : Nat) (s : St) : Prop :=
  ∀ b, ¬ Home start b → s.cache b = none ∨ s.cache b = some (s.disk b)

variable {start : Nat} {s : St} {b : Nat}

theorem Coherent.bread (h : Coherent start s) (hb : ¬ Home start b) :
    s.bread b = s.disk b := by
  unfold St.bread
  rcases h b hb with hc | hc <;> rw [hc] <;> rfl

theorem not_home (h : i ≤ LOGBLOCKS) : ¬ Home start (start + i) := by
  unfold Home
  omega

variable {s' : St} {τ : Txn} {d : Block}

/-- A write to a home block that the logged transaction writes too. -/
theorem Logged.install (h : Logged start s τ) (hb : b ∈ τ.map Prod.fst)
    (hdisk : s'.disk = update s.disk b d) (htarget : s'.target = s.target) :
    Logged start s' τ := by
  have hhome := h.ok.home b hb
  have harea : ∀ i ≤ LOGBLOCKS, s'.disk (start + i) = s.disk (start + i) := by
    intro i hi
    rw [hdisk, update_of_ne]
    rintro rfl
    exact not_home hi hhome
  refine ⟨?_, h.ok, fun i hi => ?_, fun x hx => ?_⟩
  · have := harea 0 (Nat.zero_le _)
    rw [Nat.add_zero] at this
    rw [this]
    exact h.head
  · have hlen := h.ok.length
    rw [length_map] at hlen
    rw [Nat.add_assoc, harea (i + 1) (by omega), ← Nat.add_assoc]
    exact h.blocks i hi
  · rw [hdisk, writes_update d hb, htarget]
    exact h.replay x hx

/-- A write to a log block while the log on disk is empty. -/
theorem Logged.scribble (h : Logged start s []) (hi : i < LOGBLOCKS)
    (hdisk : s'.disk = update s.disk (start + i + 1) d) (htarget : s'.target = s.target) :
    Logged start s' [] := by
  refine ⟨?_, h.ok, fun i hi => absurd hi (Nat.not_lt_zero _), fun x hx => ?_⟩
  · rw [hdisk, update_of_ne (by omega)]
    exact h.head
  · rw [writes_nil, hdisk, update_of_ne, htarget]
    · exact h.replay x hx
    · rintro rfl
      exact not_home (by omega : i + 1 ≤ LOGBLOCKS) hx

/-- The header is written: from now on the disk has `τ` in its log. -/
theorem Logged.write_head (b : Block) (hok : HeaderOk start (τ.map Prod.fst))
    (hblocks : ∀ i (h : i < τ.length), s.disk (start + i + 1) = τ[i].2)
    (hdisk : s'.disk = update s.disk start (setHead b (τ.map Prod.fst)))
    (hreplay : ∀ b, Home start b → writes s.disk τ b = s'.target b) : Logged start s' τ := by
  refine ⟨?_, hok, fun i hi => ?_, fun x hx => ?_⟩
  · rw [hdisk, update_self]
    exact getHead_setHead b hok.length hok.bound
  · rw [hdisk, update_of_ne (by omega)]
    exact hblocks i hi
  · rw [← hreplay x hx]
    apply writes_congr
    right
    rw [hdisk, update_of_ne]
    rintro rfl
    exact not_home (Nat.zero_le _) hx

/-- Once every block is installed the home blocks are those of the target. -/
theorem Logged.installed (h : Logged start s τ)
    (hdone : ∀ i (hi : i < τ.length), s.disk τ[i].1 = τ[i].2) (b : Nat) (hb : Home start b) :
    s.disk b = s.target b := by
  rw [← h.replay b hb, writes_eq_self]
  intro w hw
  rcases getElem_of_mem hw with ⟨i, hi, rfl⟩
  exact hdone i hi

/-! ## The invariant -/

/-- In `write_log`, with the first `tail` blocks copied: the last of the begun transactions
is the header with its cached contents. -/
structure Copying (start : Nat) (s : St) (tail : Nat) : Prop where
  ok : HeaderOk start s.lh
  pins : ∀ b ∈ s.lh, (s.cache b).isSome = true
  clean : Logged start s []
  txn : ∃ B τ, s.begun = B ++ [τ] ∧ s.done = B.length ∧
    τ = (s.lh.map fun b => (b, s.bread b)) ∧
    ∀ i (h : i < τ.length), i < tail → s.disk (start + i + 1) = τ[i].2

/-- In `install_trans`, with the first `tail` blocks installed. -/
def Installing (start : Nat) (s : St) (tail : Nat) : Prop :=
  ∃ τ, Logged start s τ ∧ s.lh = τ.map Prod.fst ∧
    ∀ i (h : i < τ.length), i < tail → s.disk τ[i].1 = τ[i].2

/-- All blocks are installed, and the header is about to be cleared. -/
structure Installed (start : Nat) (s : St) : Prop where
  lh : s.lh = []
  logged : ∃ τ, Logged start s τ
  clean : ∀ b, Home start b → s.disk b = s.target b

/-- What holds in each phase. -/
def PhaseInv (start : Nat) (s : St) : Phase → Prop
  | .running => HeaderOk start s.lh ∧ (∀ b ∈ s.lh, (s.cache b).isSome = true) ∧
      Logged start s [] ∧ s.done = s.begun.length
  | .writeLog tail => Copying start s tail
  | .commitHead => Copying start s s.lh.length
  | .install tail => Installing start s tail ∧ s.done = s.begun.length
  | .clearHead => Installed start s ∧ s.done = s.begun.length
  | .readHead => ∃ τ, Logged start s τ
  | .recInstall tail => Installing start s tail
  | .recClear => Installed start s
  | .recovered => s.lh = [] ∧ Logged start s []

structure Inv (start : Nat) (s : St) : Prop where
  coherent : Coherent start s
  done_le : s.done ≤ s.begun.length
  phase : PhaseInv start s s.phase

theorem headerOk_nil (start : Nat) : HeaderOk start [] :=
  ⟨nodup_nil, Nat.zero_le _, nofun, nofun⟩

/-- With the whole disk as target the log is empty. -/
theorem logged_nil (hhead : getHead (s.disk start) = [])
    (htarget : ∀ b, Home start b → s.disk b = s.target b) : Logged start s [] :=
  ⟨hhead, headerOk_nil start, nofun, htarget⟩

theorem init_inv (h : Init start s) : Inv start s := by
  rcases h with ⟨hn, hcache, hlh, hphase, hbase, hbegun, hdone⟩
  have hhead : getHead (s.disk start) = [] := by
    simp [getHead, hn]
  refine ⟨fun b _ => Or.inl (hcache b), by simp [hdone], ?_⟩
  rw [hphase]
  refine ⟨[], logged_nil hhead fun b _ => ?_⟩
  simp [St.target, hbegun, hbase]

/-- At every moment the disk has some transaction to replay. -/
theorem PhaseInv.logged {phase : Phase} (h : PhaseInv start s phase) :
    ∃ τ, Logged start s τ := by
  cases phase with
  | running => exact ⟨[], h.2.2.1⟩
  | writeLog tail => exact ⟨[], Copying.clean h⟩
  | commitHead => exact ⟨[], Copying.clean h⟩
  | install tail =>
    rcases h.1 with ⟨τ, hτ, -⟩
    exact ⟨τ, hτ⟩
  | clearHead => exact h.1.logged
  | readHead => exact h
  | recInstall tail =>
    rcases h with ⟨τ, hτ, -⟩
    exact ⟨τ, hτ⟩
  | recClear => exact Installed.logged h
  | recovered => exact ⟨[], h.2⟩

/-- `Logged` is about the disk and the history alone. -/
theorem Logged.congr (h : Logged start s τ) (hdisk : s'.disk = s.disk)
    (htarget : s'.target = s.target) : Logged start s' τ := by
  constructor
  · rw [hdisk]; exact h.head
  · exact h.ok
  · rw [hdisk]; exact h.blocks
  · rw [hdisk, htarget]; exact h.replay

/-- Writing a block through the cache keeps the cache coherent. -/
theorem Coherent.bwrite (h : Coherent start s) (hdisk : s'.disk = (s.bwrite b d).disk)
    (hcache : s'.cache = (s.bwrite b d).cache) :
    Coherent start s' := by
  intro x hx
  rw [hdisk, hcache]
  by_cases hxb : x = b
  · right
    simp [St.bwrite, hxb]
  · simp only [St.bwrite, update_of_ne hxb]
    exact h x hx

theorem bread_congr (hdisk : s'.disk b = s.disk b) (hcache : s'.cache b = s.cache b) :
    s'.bread b = s.bread b := by
  unfold St.bread
  rw [hdisk, hcache]

/-! ## Steps of the file system -/

theorem absorb_headerOk {lh : List Nat} (h : HeaderOk start lh) (hlen : lh.length < LOGBLOCKS)
    (hb : Home start b) (hbound : b < 2 ^ 32) :
    HeaderOk start (absorb lh b) := by
  unfold absorb
  split
  · exact h
  next hin =>
  refine ⟨?_, ?_, ?_, ?_⟩
  · refine nodup_append.mpr ⟨h.nodup, nodup_singleton b, fun x hx y hy hxy => ?_⟩
    rw [mem_singleton.mp hy] at hxy
    exact hin (hxy ▸ hx)
  · rw [length_append, length_singleton]
    exact hlen
  · intro x hx
    rcases mem_append.mp hx with hx | hx
    · exact h.home x hx
    · rw [mem_singleton.mp hx]; exact hb
  · intro x hx
    rcases mem_append.mp hx with hx | hx
    · exact h.bound x hx
    · rw [mem_singleton.mp hx]; exact hbound

/-- Only the cache changes, not at the blocks pinned for a commit. While no commit is
running, pinned blocks may change too. -/
theorem Inv.recache {c : Nat → Option Block} (h : Inv start s)
    (hcoherent : Coherent start { s with cache := c })
    (hpins : ∀ b ∈ s.pinned, (s.cache b).isSome = true → (c b).isSome = true)
    (hsame : s.phase ≠ .running → ∀ b ∈ s.pinned, c b = s.cache b) :
    Inv start { s with cache := c } := by
  have hlogged : ∀ {τ}, Logged start s τ → Logged start { s with cache := c } τ :=
    fun hτ => hτ.congr rfl rfl
  have hcopy : ∀ {tail}, (∀ b ∈ s.lh, c b = s.cache b) → Copying start s tail →
      Copying start { s with cache := c } tail := by
    intro tail hsame hc
    rcases hc.txn with ⟨B, τ, hbegun, hdone, hτ, hcopied⟩
    refine ⟨hc.ok, fun x hx => ?_, hlogged hc.clean, B, τ, hbegun, hdone, ?_, hcopied⟩
    · change (c x).isSome = true
      rw [hsame x hx]
      exact hc.pins x hx
    · rw [hτ]
      exact map_congr_left fun x hx =>
        congrArg (Prod.mk x) (bread_congr (by rfl) (hsame x hx)).symm
  have hinstalling : ∀ {tail}, Installing start s tail →
      Installing start { s with cache := c } tail :=
    fun ⟨τ, hτ, hrest⟩ => ⟨τ, hlogged hτ, hrest⟩
  have hinstalled : Installed start s → Installed start { s with cache := c } :=
    fun hi => ⟨hi.lh, hi.logged.imp fun _ => hlogged, hi.clean⟩
  have hinv := h.phase
  unfold St.pinned at hpins hsame
  refine ⟨hcoherent, h.done_le, ?_⟩
  suffices hall : ∀ φ, s.phase = φ → PhaseInv start { s with cache := c } φ from hall _ rfl
  intro φ hp
  rw [hp] at hinv
  cases φ
  case running =>
    rw [hp] at hpins
    rcases hinv with ⟨hok, hpinned, hclean, hdone⟩
    exact ⟨hok, fun x hx => hpins x hx (hpinned x hx), hlogged hclean, hdone⟩
  case writeLog | commitHead =>
    rw [hp] at hsame
    exact hcopy (hsame nofun) hinv
  case install => exact ⟨hinstalling hinv.1, hinv.2⟩
  case clearHead => exact ⟨hinstalled hinv.1, hinv.2⟩
  case readHead => exact hinv.imp fun _ => hlogged
  case recInstall => exact hinstalling hinv
  case recClear => exact hinstalled hinv
  case recovered => exact ⟨hinv.1, hlogged hinv.2⟩

/-- A cached block changes, or its unpinned buffer is reused. -/
theorem Coherent.update {c : Option Block} (h : Coherent start s) (hb : Home start b ∨ c = none) :
    Coherent start { s with cache := Function.update s.cache b c } := by
  intro x hx
  change Function.update s.cache b c x = none ∨ Function.update s.cache b c x = some (s.disk x)
  by_cases hxb : x = b
  · rcases hb with hb | rfl
    · exact absurd (hxb ▸ hb) hx
    · left
      simp [hxb]
  · rw [update_of_ne hxb]
    exact h x hx

/-! ## Steps of `commit()` and `recover_from_log()` -/

variable {tail : Nat}

/-- One pass of `write_log`. -/
theorem Copying.copy (h : Copying start s tail) (htail : tail < s.lh.length) :
    Copying start { s.bwrite (start + tail + 1) (s.bread (s.lh.getD tail 0)) with
      phase := .writeLog (tail + 1) } (tail + 1) := by
  have hlen := h.ok.length
  have hne : ∀ b ∈ s.lh, b ≠ start + tail + 1 := by
    rintro b hb rfl
    exact not_home (by omega : tail + 1 ≤ LOGBLOCKS) (h.ok.home _ hb)
  have hcache : ∀ b ∈ s.lh, (s.bwrite (start + tail + 1) (s.bread (s.lh.getD tail 0))).cache b =
      s.cache b := fun b hb => update_of_ne (hne b hb) _ _
  rcases h.txn with ⟨B, τ, hbegun, hdone, hτ, hcopied⟩
  refine ⟨h.ok, fun b hb => (congrArg Option.isSome (hcache b hb)).trans (h.pins b hb),
    h.clean.scribble (by omega) rfl rfl, B, τ, hbegun, hdone, ?_, fun i hi hit => ?_⟩
  · rw [hτ]
    exact map_congr_left fun b hb =>
      congrArg (Prod.mk b) (bread_congr (update_of_ne (hne b hb) _ _) (hcache b hb)).symm
  · by_cases heq : i = tail
    · -- the block just written
      subst heq
      refine (update_self _ _ _).trans ?_
      simp [hτ, getD_eq_getElem?_getD, getElem?_eq_getElem htail]
    · refine (update_of_ne (by omega) _ _).trans ?_
      exact hcopied i hi (by omega)

/-- One pass of `install_trans`. -/
theorem Installing.one (hco : Coherent start s) (h : Installing start s tail)
    (htail : tail < s.lh.length) (hdisk : s'.disk = (s.installOne start tail).disk)
    (hlh : s'.lh = s.lh) (htarget : s'.target = s.target) :
    Installing start s' (tail + 1) := by
  rcases h with ⟨τ, hτ, hkeys, hinst⟩
  have hlen : tail < τ.length := by rw [hkeys, length_map] at htail; exact htail
  have hle := hτ.ok.length
  rw [length_map] at hle
  have hdst : s.lh.getD tail 0 = τ[tail].1 := by
    simp [hkeys, getD_eq_getElem?_getD, getElem?_eq_getElem hlen]
  -- the log block is read from the cache or the disk: both hold the logged contents
  have hsrc : s.bread (start + tail + 1) = τ[tail].2 := by
    have harea : ¬ Home start (start + tail + 1) := not_home (by omega : tail + 1 ≤ LOGBLOCKS)
    rw [hco.bread harea]
    exact hτ.blocks tail hlen
  have hdisk' : s'.disk = update s.disk τ[tail].1 τ[tail].2 := by
    rw [hdisk, St.installOne, hdst, hsrc]
    rfl
  have hmem : τ[tail].1 ∈ τ.map Prod.fst := mem_map_of_mem (getElem_mem hlen)
  refine ⟨τ, hτ.install hmem hdisk' htarget, hlh.trans hkeys, fun i hi hit => ?_⟩
  rw [hdisk']
  by_cases heq : i = tail
  · subst heq
    exact update_self ..
  -- the blocks of a transaction are distinct
  rw [update_of_ne]
  · exact hinst i hi (by omega)
  · intro hsame
    have hinj := nodup_iff_injective_get.mp hτ.ok.nodup
    have hidx := @hinj ⟨i, by rwa [length_map]⟩ ⟨tail, by rwa [length_map]⟩
      (by simpa using hsame)
    exact heq (Fin.mk.inj hidx)

/-- The end of `install_trans`'s loop. -/
theorem Installing.finish (h : Installing start s tail) (htail : ¬ tail < s.lh.length)
    (hdisk : s'.disk = s.disk) (hlh : s'.lh = []) (htarget : s'.target = s.target) :
    Installed start s' := by
  rcases h with ⟨τ, hτ, hkeys, hinst⟩
  rw [hkeys, length_map] at htail
  refine ⟨hlh, ⟨τ, hτ.congr hdisk htarget⟩, ?_⟩
  rw [hdisk, htarget]
  exact hτ.installed fun i hi => hinst i hi (by omega)

/-- Clearing the header. -/
theorem Installed.clear (h : Installed start s) (hdisk : s'.disk = (s.writeHead start).disk)
    (htarget : s'.target = s.target) :
    Logged start s' [] := by
  rw [St.writeHead, h.lh] at hdisk
  refine Logged.write_head (s := s) (s.bread start) (headerOk_nil start) nofun hdisk fun b hb => ?_
  rw [writes_nil, htarget]
  exact h.clean b hb

/-- The header of the transaction is written. -/
theorem Copying.commit_head (h : Copying start s s.lh.length) :
    Installing start { s.writeHead start with phase := .install 0, done := s.done + 1 } 0 ∧
      s.done + 1 = s.begun.length := by
  rcases h.txn with ⟨B, τ, hbegun, hdone, hτ, hcopied⟩
  have hkeys : s.lh = τ.map Prod.fst := by
    rw [hτ, map_map]
    exact (map_id s.lh).symm
  have hlen : τ.length = s.lh.length := by rw [hkeys, length_map]
  refine ⟨⟨τ, ?_, hkeys, fun i _ hi => absurd hi (Nat.not_lt_zero i)⟩, ?_⟩
  · refine Logged.write_head (s := s) (s.bread start) (hkeys ▸ h.ok)
      (fun i hi => hcopied i hi (by omega)) (by rw [← hkeys]; rfl) fun b hb => ?_
    -- one more transaction is done
    have htake : s.begun.take (s.done + 1) = s.begun.take s.done ++ [τ] := by
      rw [hbegun, hdone, take_left, take_of_length_le (by simp)]
    change writes s.disk τ b = (s.begun.take (s.done + 1)).foldl writes s.base b
    rw [htake, foldl_append]
    apply writes_congr
    right
    exact h.clean.replay b hb
  · rw [hbegun, hdone]
    simp

theorem tick_inv (h : Inv start s) (hs : tick start s = some s') :
    Inv start s' := by
  have hco := h.coherent
  have hinv := h.phase
  unfold tick at hs
  split at hs
  · cases hs
  · cases hs
  · next tail hp =>
    -- write_log
    rw [hp] at hinv
    cases hs
    split
    · next htail => exact ⟨hco.bwrite rfl rfl, h.done_le, Copying.copy hinv htail⟩
    · next htail =>
      refine ⟨hco, h.done_le, hinv.ok, hinv.pins, hinv.clean.congr rfl rfl, ?_⟩
      rcases hinv.txn with ⟨B, τ, hbegun, hdone, hτ, hcopied⟩
      refine ⟨B, τ, hbegun, hdone, hτ, fun i hi hit => hcopied i hi ?_⟩
      exact lt_of_lt_of_le hit (not_lt.mp htail)
  · next hp =>
    -- the commit point
    rw [hp] at hinv
    cases hs
    rcases Copying.commit_head hinv with ⟨hinst, hdone⟩
    exact ⟨hco.bwrite rfl rfl, Nat.le_of_eq hdone, hinst, hdone⟩
  · next tail hp =>
    -- install_trans(0)
    rw [hp] at hinv
    cases hs
    split
    · next htail =>
      exact ⟨hco.bwrite rfl rfl, h.done_le, hinv.1.one hco htail rfl rfl rfl, hinv.2⟩
    · next htail => exact ⟨hco, h.done_le, hinv.1.finish htail rfl rfl rfl, hinv.2⟩
  · next hp =>
    rw [hp] at hinv
    cases hs
    refine ⟨hco.bwrite rfl rfl, h.done_le, ?_, ?_, hinv.1.clear rfl rfl, hinv.2⟩
    · change HeaderOk start s.lh
      rw [hinv.1.lh]
      exact headerOk_nil start
    · change ∀ b ∈ s.lh, _
      rw [hinv.1.lh]
      exact nofun
  · next hp =>
    -- read_head
    rw [hp] at hinv
    cases hs
    rcases hinv with ⟨τ, hτ⟩
    refine ⟨hco, h.done_le, τ, hτ.congr rfl rfl, ?_, fun i _ hi => absurd hi (Nat.not_lt_zero i)⟩
    have hstart : ¬ Home start start := not_home (Nat.zero_le _)
    change getHead (s.bread start) = _
    rw [hco.bread hstart]
    exact hτ.head
  · next tail hp =>
    -- install_trans(1)
    rw [hp] at hinv
    cases hs
    split
    · next htail => exact ⟨hco.bwrite rfl rfl, h.done_le, hinv.one hco htail rfl rfl rfl⟩
    · next htail => exact ⟨hco, h.done_le, hinv.finish htail rfl rfl rfl⟩
  · next hp =>
    rw [hp] at hinv
    cases hs
    exact ⟨hco.bwrite rfl rfl, h.done_le, hinv.lh, hinv.clear rfl rfl⟩

theorem step_inv {l : Lbl} (h : Inv start s) (hs : step start s l = some s') :
    Inv start s' := by
  cases l with
  | touch b d =>
    simp only [step, Option.ite_none_right_eq_some, Option.some.injEq] at hs
    rcases hs with ⟨⟨hp, hb⟩, rfl⟩
    refine h.recache (h.coherent.update (Or.inl hb)) (fun x _ hx => ?_) fun hne => absurd hp hne
    by_cases hxb : x = b
    · simp [hxb]
    · rwa [update_of_ne hxb]
  | logWrite b =>
    simp only [step, Option.ite_none_right_eq_some, Option.some.injEq] at hs
    rcases hs with ⟨⟨hp, hb, hbound, hcached, hlen⟩, rfl⟩
    have hinv := h.phase
    rw [hp] at hinv
    rcases hinv with ⟨hok, hpins, hclean, hdone⟩
    refine ⟨h.coherent, h.done_le, ?_⟩
    change PhaseInv start _ s.phase
    rw [hp]
    refine ⟨absorb_headerOk hok hlen hb hbound, fun x hx => ?_, hclean.congr rfl rfl, hdone⟩
    change x ∈ absorb s.lh b at hx
    unfold absorb at hx
    split at hx
    · exact hpins x hx
    · rcases mem_append.mp hx with hx | hx
      · exact hpins x hx
      · rw [mem_singleton.mp hx]; exact hcached
  | evict b =>
    simp only [step, Option.ite_none_right_eq_some, Option.some.injEq] at hs
    rcases hs with ⟨hb, rfl⟩
    have hsame : ∀ x ∈ s.pinned, update s.cache b none x = s.cache x := by
      intro x hx
      refine update_of_ne ?_ _ _
      rintro rfl
      exact hb hx
    refine h.recache (h.coherent.update (Or.inr rfl)) (fun x hx hc => ?_) fun _ => hsame
    rw [hsame x hx]
    exact hc
  | commit =>
    simp only [step, Option.ite_none_right_eq_some, Option.some.injEq] at hs
    rcases hs with ⟨hp, rfl⟩
    split
    swap
    · exact h
    have hinv := h.phase
    rw [hp] at hinv
    rcases hinv with ⟨hok, hpins, hclean, hdone⟩
    have htarget : ((s.begun ++ [s.lh.map fun b => (b, s.bread b)]).take s.done).foldl writes s.base =
        s.target := by
      rw [St.target, hdone]
      simp
    refine ⟨h.coherent, ?_, hok, hpins, hclean.congr rfl htarget, ?_⟩
    · change s.done ≤ (s.begun ++ [_]).length
      rw [hdone, length_append]
      exact Nat.le_add_right _ _
    · exact ⟨s.begun, _, rfl, hdone, rfl, fun i _ hi => absurd hi (Nat.not_lt_zero i)⟩
  | tick => exact tick_inv h hs
  | crash =>
    simp only [step, Option.some.injEq] at hs
    subst hs
    rcases h.phase.logged with ⟨τ, hτ⟩
    exact ⟨fun _ _ => Or.inl rfl, h.done_le, τ, hτ.congr rfl rfl⟩
  | resume =>
    simp only [step, Option.ite_none_right_eq_some, Option.some.injEq] at hs
    rcases hs with ⟨hp, rfl⟩
    have hinv := h.phase
    rw [hp] at hinv
    refine ⟨h.coherent, le_rfl, ?_, ?_, logged_nil hinv.2.head fun _ _ => rfl, rfl⟩
    · change HeaderOk start s.lh
      rw [hinv.1]
      exact headerOk_nil start
    · change ∀ b ∈ s.lh, _
      rw [hinv.1]
      exact nofun

theorem reachable_inv (h : (sys start).Reachable s) : Inv start s :=
  System.Reachable.invariant (Inv start) (fun _ => init_inv) (fun _ _ _ => step_inv) h

/-- Crash atomicity. Whenever `recover_from_log` has returned, after any number of crashes
at any points, the home blocks are the disk of the last recovery with exactly the first
`done` transactions applied, those whose header reached the disk. -/
theorem crash_atomicity {start : Nat} {s : St} (h : (sys start).Reachable s)
    (hrec : s.phase = .recovered) :
    s.done ≤ s.begun.length ∧
      ∀ b, Home start b → s.disk b = (s.begun.take s.done).foldl writes s.base b := by
  have hi := reachable_inv h
  have hinv := hi.phase
  rw [hrec] at hinv
  exact ⟨hi.done_le, fun b hb => hinv.2.replay b hb⟩

/-! ## A crash in the middle of an installation -/

/-- A machine that has just been switched on, with a disk of zeroes. -/
def blank : St where
  disk := fun _ _ => 0
  cache := fun _ => none
  lh := []
  phase := .readHead
  base := fun _ _ => 0
  begun := []
  done := 0

theorem blank_init : Init 2 blank :=
  ⟨by decide, fun _ => rfl, rfl, rfl, rfl, rfl, rfl⟩

/-- Two blocks are logged and committed; the machine crashes with one of them installed, and
again in the recovery. -/
def crashRun : List Lbl :=
  [.tick, .tick, .tick, .resume,
    .touch 100 (fun _ => 1), .logWrite 100, .touch 101 (fun _ => 2), .logWrite 101, .commit,
    .tick, .tick, .tick, .tick, .tick, .crash, .tick, .tick, .crash, .tick, .tick, .tick, .tick,
    .tick]

/-- Crash atomicity at the end of that run. -/
theorem crash_atomicity_crashRun :
    ∃ s, (sys 2).Reachable s ∧ s.phase = .recovered ∧ s.done = 1 ∧
      ∀ b, Home 2 b → s.disk b = (s.begun.take s.done).foldl writes s.base b := by
  obtain ⟨s, hreach, hrec, hdone⟩ : ∃ s, (sys 2).Reachable s ∧ s.phase = .recovered ∧ s.done = 1 :=
    System.reaches blank_init crashRun (by decide +kernel)
  exact ⟨s, hreach, hrec, hdone, (crash_atomicity hreach hrec).2⟩

end Crash

end Xv6.Log
