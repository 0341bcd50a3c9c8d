import Bindery.Proofs.Listing.Level
import Bindery.Proofs.Listing.Scan

/-!
# Tilings of a source

What the tokeniser finds covers the whole source: its logical lines follow each other from the first byte to the
last, and each byte lies in one token, in one comment, or between them (`tiles_tokenize`). A bracket and the one
that closes it have the same depth.
-/

namespace Bindery.Listing.Python

open Text

/-- Lines one behind the other from an offset up to another. None of them is empty. -/
inductive Consecutive : Nat → List LogicalLine → Nat → Prop
  | nil (i : Nat) : Consecutive i [] i
  | cons {l : LogicalLine} {ls : List LogicalLine} {stop : Nat} (h : l.start < l.stop)
      (hrest : Consecutive l.stop ls stop) : Consecutive l.start (l :: ls) stop

def Token.Covers (t : Token) (i : Nat) : Prop := t.start ≤ i ∧ i < t.stop

def Comment.Covers (c : Comment) (i : Nat) : Prop := c.start ≤ i ∧ i < c.stop

/-- A byte of a source lies in one token, or in one comment, or separates them, and in no two of these. -/
def InOnePart (source : Bytes) (tokens : List Token) (comments : List Comment) (i : Nat) : Prop :=
  (∃! t, t ∈ tokens ∧ t.Covers i) ∧ (∀ c ∈ comments, ¬ c.Covers i) ∨
  (∃! c, c ∈ comments ∧ c.Covers i) ∧ (∀ t ∈ tokens, ¬ t.Covers i) ∨
  (∀ t ∈ tokens, ¬ t.Covers i) ∧ (∀ c ∈ comments, ¬ c.Covers i) ∧ Separates source i

/-- Logical lines and comments cover a source. -/
structure Tiles (source : Bytes) (lines : List LogicalLine) (comments : List Comment) : Prop where
  consecutive : Consecutive 0 lines source.length
  within : ∀ l ∈ lines, ∀ t ∈ l.tokens, l.start ≤ t.start ∧ t.stop ≤ l.stop
  ordered : ∀ l ∈ lines, l.tokens.Pairwise fun a b => a.stop ≤ b.start
  text : ∀ l ∈ lines, ∀ t ∈ l.tokens, t.start < t.stop ∧ slice? source t.start t.stop = some t.text
  apart : ∀ l ∈ lines, ∀ t ∈ l.tokens, ∀ c ∈ comments, t.stop ≤ c.start ∨ c.stop ≤ t.start
  parts : ∀ i < source.length, InOnePart source (lines.flatMap LogicalLine.tokens) comments i
  /-- Brackets with matching brackets between them have the same depth. -/
  brackets : ∀ front opening inside closing behind,
    lines.flatMap LogicalLine.tokens = front ++ opening :: (inside ++ closing :: behind) →
    opening.opens = true → closing.closes = true → Balanced inside → closing.depth = opening.depth

/-! ## Lines -/

theorem Consecutive.concat {i : Nat} {ls : List LogicalLine} {l : LogicalLine}
    (h : Consecutive i ls l.start) (hl : l.start < l.stop) : Consecutive i (ls ++ [l]) l.stop := by
  generalize hstop : l.start = stop at h
  induction h with
  | nil i =>
    subst hstop
    exact .cons hl (.nil l.stop)
  | cons hfirst _ ih => exact .cons hfirst (ih hstop)

theorem Consecutive.le {i j : Nat} {ls : List LogicalLine} (h : Consecutive i ls j) : i ≤ j := by
  induction h with
  | nil => exact Nat.le_refl _
  | cons hfirst _ ih => exact hfirst.le.trans ih

theorem Consecutive.bounds {i j : Nat} {ls : List LogicalLine} (h : Consecutive i ls j) :
    ∀ l ∈ ls, i ≤ l.start ∧ l.start < l.stop ∧ l.stop ≤ j := by
  induction h with
  | nil => simp
  | cons hfirst hrest ih =>
    refine List.forall_mem_cons.2 ⟨⟨Nat.le_refl _, hfirst, hrest.le⟩, ?_⟩
    intro l hl
    obtain ⟨hstart, hline, hstop⟩ := ih l hl
    exact ⟨hfirst.le.trans hstart, hline, hstop⟩

/-- Between two lexemes, the finished lines follow each other up to the present one, tokens stand on their lines,
and comments one behind the other. -/
structure State.Rows (s : State) : Prop where
  logicals : Consecutive 0 s.logicals.reverse s.logicalStart
  start : s.logicalStart ≤ s.offset
  within : ∀ l ∈ s.logicals, ∀ t ∈ l.tokens, l.start ≤ t.start ∧ t.stop ≤ l.stop
  tokens : ∀ t ∈ s.tokens, s.logicalStart ≤ t.start ∧ t.stop ≤ s.offset
  behind : ∀ c ∈ s.comments, c.stop ≤ s.offset
  comments : s.comments.Pairwise fun a b => b.stop ≤ a.start

section

variable {s : State}

theorem State.Rows.step (h : s.Rows) (c : UInt8) (rest : Bytes) (lexeme : Lexeme) :
    (s.step c rest lexeme).Rows := by
  have hoffset : s.offset < (s.step c rest lexeme).offset := by
    rw [offset_step, List.length_cons]
    omega
  have htokens : ∀ t ∈ s.tokens, s.logicalStart ≤ t.start ∧ t.stop ≤ (s.step c rest lexeme).offset :=
    fun t ht => ⟨(h.tokens t ht).1, (h.tokens t ht).2.trans hoffset.le⟩
  have hbehind : ∀ c' ∈ s.comments, c'.stop ≤ (s.step c rest lexeme).offset :=
    fun c' hc => (h.behind c' hc).trans hoffset.le
  have hstart : s.logicalStart < (s.step c rest lexeme).offset := h.start.trans_lt hoffset
  cases lexeme with
  | newline =>
    unfold State.step at hoffset htokens hbehind hstart ⊢
    dsimp only at hoffset htokens hbehind hstart ⊢
    split
    · next hdepth =>
      rw [if_pos hdepth] at hoffset htokens hbehind hstart
      refine ⟨?_, Nat.le_refl _, ?_, List.forall_mem_nil _, hbehind, h.comments⟩
      · rw [List.reverse_cons]
        exact h.logicals.concat hstart
      · refine List.forall_mem_cons.2 ⟨?_, h.within⟩
        exact fun t ht => htokens t (List.mem_reverse.1 ht)
    · next hdepth =>
      rw [if_neg hdepth] at hoffset htokens hbehind hstart
      exact ⟨h.logicals, hstart.le, h.within, htokens, hbehind, h.comments⟩
  | continuation => exact ⟨h.logicals, hstart.le, h.within, htokens, hbehind, h.comments⟩
  | blank => exact ⟨h.logicals, hstart.le, h.within, htokens, hbehind, h.comments⟩
  | comment n =>
    refine ⟨h.logicals, hstart.le, h.within, htokens, ?_, ?_⟩
    · exact List.forall_mem_cons.2 ⟨Nat.le_refl _, hbehind⟩
    · exact List.pairwise_cons.2 ⟨h.behind, h.comments⟩
  | token kind n =>
    refine ⟨h.logicals, hstart.le, h.within, ?_, hbehind, h.comments⟩
    exact List.forall_mem_cons.2 ⟨⟨h.start, Nat.le_refl _⟩, htokens⟩

theorem State.Rows.run (h : s.Rows) (source : Bytes) : (s.run source).Rows := by
  fun_induction State.run s source with
  | case1 => exact h
  | case2 s c rest lexeme ih => exact ih (h.step c rest lexeme)

end

theorem State.rows (source : Bytes) : (State.run {} source).Rows := by
  have hstart : State.Rows {} :=
    ⟨.nil 0, Nat.le_refl _, List.forall_mem_nil _, List.forall_mem_nil _, List.forall_mem_nil _, .nil⟩
  exact hstart.run source

/-! ## Tokens and comments of a source -/

/-- What stands one behind the other does not overlap. -/
theorem eq_of_covers {α : Type} {start stop : α → Nat} {xs : List α}
    (h : xs.Pairwise fun a b => stop a ≤ start b) {i : Nat} {a b : α} (ha : a ∈ xs) (hb : b ∈ xs)
    (hai : start a ≤ i ∧ i < stop a) (hbi : start b ≤ i ∧ i < stop b) : a = b := by
  induction xs with
  | nil => cases ha
  | cons x xs ih =>
    obtain ⟨hx, hxs⟩ := List.pairwise_cons.1 h
    rcases List.mem_cons.1 ha with rfl | ha'
    · rcases List.mem_cons.1 hb with rfl | hb'
      · rfl
      · have hle := hx b hb'
        omega
    · rcases List.mem_cons.1 hb with rfl | hb'
      · have hle := hx a ha'
        omega
      · exact ih hxs ha' hb'

theorem Token.Stands.slice?_eq {source : Bytes} {t : Token} (h : t.Stands source) :
    t.start < t.stop ∧ slice? source t.start t.stop = some t.text := by
  obtain ⟨before, following, n, rfl, hstart, hstop, -, hlexed⟩ := h
  have hlength := List.length_pos_of_ne_nil hlexed.ne_nil
  have hdrop : (before ++ (t.text ++ following)).drop before.length = t.text ++ following :=
    List.drop_left
  refine ⟨by omega, ?_⟩
  rw [hstart, hstop, slice?_take hdrop (by simp) (by simp), List.take_left]

theorem depth_eq_of_balanced {front inside behind : List Token} {opening closing : Token} {d e : Nat}
    (h : Levelled d (front ++ opening :: (inside ++ closing :: behind)) e) (hopens : opening.opens = true)
    (hcloses : closing.closes = true) (hinside : Balanced inside) : closing.depth = opening.depth := by
  obtain ⟨m, -, hrest⟩ := levelled_append.1 h
  cases hrest with
  | cons _ hrest =>
    -- What stands between the brackets leads back to the level behind the opening one.
    rw [if_pos hopens] at hrest
    obtain ⟨l, hlevel, hrest⟩ := levelled_append.1 hrest
    obtain ⟨rfl, -⟩ := hinside.levelled hlevel
    cases hrest with
    | cons hdepth _ => rwa [if_pos hcloses, Nat.add_sub_cancel] at hdepth

/-- The logical lines of a source follow each other to its end, with their tokens on them. -/
theorem consecutive_tokenize (source : Bytes) :
    Consecutive 0 (tokenize source).1 source.length ∧
      ∀ l ∈ (tokenize source).1, ∀ t ∈ l.tokens, l.start ≤ t.start ∧ t.stop ≤ l.stop := by
  have hrows := State.rows source
  have hoffset := offset_run source
  have htokens : ∀ t ∈ (State.run {} source).tokens, t.start < t.stop := by
    intro t ht
    have hfound : t ∈ (State.run {} source).found := List.mem_append_right _ (List.mem_reverse.2 ht)
    exact ((State.reads source).tokens t hfound).1.slice?_eq.1
  rw [tokenize]
  generalize State.run {} source = s at hrows hoffset htokens
  have hwithin : ∀ l ∈ s.logicals.reverse, ∀ t ∈ l.tokens, l.start ≤ t.start ∧ t.stop ≤ l.stop :=
    fun l hl => hrows.within l (List.mem_reverse.1 hl)
  have hstart := hrows.start
  dsimp only
  split
  · next hlast =>
    have hlt : s.logicalStart < source.length := by
      rw [Bool.or_eq_true, decide_eq_true_eq] at hlast
      rcases hlast with hlt | hne
      · exact hlt
      · -- A token that is left over has bytes, so its line does not begin at the end of the source.
        obtain ⟨t, ht⟩ := List.exists_mem_of_ne_nil s.tokens (by simpa using hne)
        have hplace := hrows.tokens t ht
        have hpos := htokens t ht
        omega
    refine ⟨hrows.logicals.concat hlt, List.forall_mem_append.2 ⟨hwithin, ?_⟩⟩
    rw [List.forall_mem_singleton, ← hoffset]
    exact fun t ht => hrows.tokens t (List.mem_reverse.1 ht)
  · next hlast =>
    have hend : s.logicalStart = source.length := by
      rw [Bool.or_eq_true, decide_eq_true_eq, not_or] at hlast
      omega
    rw [List.append_nil, ← hend]
    exact ⟨hrows.logicals, hwithin⟩

/-- The logical lines and the comments of a source, found by offsets. -/
def tokenizeAt? (source : Bytes) : Option (List LogicalLine × List Comment) := do
  let s ← State.runAt? source {}
  let last : List LogicalLine :=
    if s.logicalStart < source.length || !s.tokens.isEmpty then
      [{ start := s.logicalStart, stop := source.length, tokens := s.tokens.reverse }]
    else []
  some (s.logicals.reverse ++ last, s.comments.reverse)

theorem pairwise_comments (source : Bytes) :
    (tokenize source).2.Pairwise fun a b => a.stop ≤ b.start :=
  List.pairwise_reverse.2 (State.rows source).comments

theorem inOnePart_tokenize (source : Bytes) :
    ∀ i < source.length, InOnePart source (tokensOf source) (tokenize source).2 i := by
  obtain ⟨-, hordered, -, happart⟩ := reads_tokenize source
  intro i hi
  have hnot : ∀ t ∈ tokensOf source, ∀ c ∈ (tokenize source).2, t.Covers i → ¬ c.Covers i := by
    intro t ht c hc htoken hcomment
    have hplaces := happart t ht c hc
    rw [Token.Covers] at htoken
    rw [Comment.Covers] at hcomment
    omega
  by_cases htoken : ∃ t ∈ tokensOf source, t.Covers i
  · obtain ⟨t, ht, hcovers⟩ := htoken
    refine .inl ⟨⟨t, ⟨ht, hcovers⟩, ?_⟩, fun c hc => hnot t ht c hc hcovers⟩
    exact fun u hu => eq_of_covers hordered hu.1 ht hu.2 hcovers
  by_cases hcomment : ∃ c ∈ (tokenize source).2, c.Covers i
  · obtain ⟨c, hc, hcovers⟩ := hcomment
    refine .inr (.inl ⟨⟨c, ⟨hc, hcovers⟩, ?_⟩, fun t ht hcovered => htoken ⟨t, ht, hcovered⟩⟩)
    exact fun d hd => eq_of_covers (pairwise_comments source) hd.1 hc hd.2 hcovers
  · refine .inr (.inr ⟨fun t ht hcovers => htoken ⟨t, ht, hcovers⟩,
      fun c hc hcovers => hcomment ⟨c, hc, hcovers⟩, ?_⟩)
    rcases exists_covers_tokenize source i hi with hseparates | hcovers | hcovers
    · exact hseparates
    · exact absurd hcovers htoken
    · exact absurd hcovers hcomment

/-- **A source is tiled by what is found in it**, and no offset is out of range on the way. -/
theorem tiles_tokenize (source : Bytes) :
    tokenizeAt? source = some (tokenize source) ∧ Tiles source (tokenize source).1 (tokenize source).2 := by
  obtain ⟨hstands, hordered, -, happart⟩ := reads_tokenize source
  obtain ⟨hconsecutive, hwithin⟩ := consecutive_tokenize source
  obtain ⟨d, hlevel⟩ := exists_levelled_tokensOf source
  have hmem : ∀ l ∈ (tokenize source).1, ∀ t ∈ l.tokens, t ∈ tokensOf source :=
    fun l hl t ht => List.mem_flatMap.2 ⟨l, hl, ht⟩
  refine ⟨?_, hconsecutive, hwithin, ?_, ?_, ?_, inOnePart_tokenize source, ?_⟩
  · rw [tokenizeAt?, State.runAt?_eq {} (Nat.zero_le _) rfl]
    rfl
  · exact (List.pairwise_flatMap.1 hordered).1
  · exact fun l hl t ht => (hstands t (hmem l hl t ht)).slice?_eq
  · exact fun l hl t ht => happart t (hmem l hl t ht)
  · intro front opening inside closing behind hsplit hopens hcloses hinside
    rw [tokensOf, hsplit] at hlevel
    exact depth_eq_of_balanced hlevel hopens hcloses hinside

end Bindery.Listing.Python
