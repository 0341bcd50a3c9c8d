import Bindery.Listing.Python.Cut
import Bindery.Listing.Python.Wrap
import Bindery.Proofs.Listing.Layout
import Bindery.Proofs.Listing.Lexeme
import Bindery.Proofs.Listing.Span

/-!
# Cuts in indented sources

The tokeniser cuts a source where characters begin: a name takes all bytes beyond ASCII that follow it,
and everything else ends in ASCII. So whatever span is left out, the source goes on at the start of a
character behind it. A line is wrapped behind a comma.
-/

namespace Bindery.Listing.Python

open Text

/-! ## Lexemes -/

/-- Where a lexeme ends, no character is cut. -/
theorem fresh_firstLexeme {c : UInt8} {rest : Bytes} (h : Tidy (c :: rest)) :
    Fresh (rest.drop (firstLexeme c rest).more) := by
  have hlexed := lexed_firstLexeme c rest
  apply hlexed.parted.fresh hlexed.ne_nil
  rw [List.cons_append, List.take_append_drop]
  exact h

/-! ## Tokens -/

/-- A place of a source where a character begins. -/
def Boundary (source : Bytes) (position : Nat) : Prop := Fresh (source.drop position)

/-- Tokens that begin and end where characters begin. -/
def Aligned (source : Bytes) (tokens : List Token) : Prop :=
  ∀ t ∈ tokens, Boundary source t.start ∧ Boundary source t.stop

theorem Aligned.subset {source : Bytes} {ts us : List Token} (h : Aligned source ts) (hsub : us ⊆ ts) :
    Aligned source us := fun t ht => h t (hsub ht)

/-- What the tokeniser has found lies between places where characters begin. -/
structure State.Aligned (source : Bytes) (s : State) : Prop where
  tokens : Python.Aligned source s.tokens
  logicals : ∀ l ∈ s.logicals, Boundary source l.stop ∧ Python.Aligned source l.tokens
  comments : ∀ c ∈ s.comments, Boundary source c.stop ∧ Boundary source (c.stop + 1)

theorem drop_of_lexeme {source rest : Bytes} {c : UInt8} {offset : Nat}
    (h : source.drop offset = c :: rest) (n : Nat) :
    source.drop (offset + (c :: rest.take n).length) = rest.drop n := by
  rw [← List.drop_drop, h, List.length_cons, List.drop_succ_cons, List.length_take]
  rcases Nat.le_total n rest.length with hn | hn
  · rw [Nat.min_eq_left hn]
  · rw [Nat.min_eq_right hn, List.drop_length, List.drop_eq_nil_of_le hn]

theorem firstLexeme_comment {c : UInt8} {rest : Bytes} {n : Nat}
    (h : firstLexeme c rest = .comment n) : n = (rest.takeWhile (!isNewline ·)).length := by
  cases h ▸ begins_firstLexeme c rest with
  | comment => rfl

/-- A step keeps what was found aligned, and goes on where a character begins. -/
theorem aligned_step {source rest : Bytes} (htidy : Tidy source) {s : State} (hs : s.Aligned source)
    {c : UInt8} (hoffset : source.drop s.offset = c :: rest) (hfresh : Fresh (c :: rest)) :
    (s.step c rest (firstLexeme c rest)).Aligned source ∧
      source.drop (s.step c rest (firstLexeme c rest)).offset =
        rest.drop (firstLexeme c rest).more := by
  have hsuffix : c :: rest <:+ source := hoffset ▸ List.drop_suffix _ _
  have htail : Tidy (c :: rest) := htidy.piece hsuffix.isInfix hfresh
  have hdrop := drop_of_lexeme hoffset (firstLexeme c rest).more
  have hstart : Boundary source s.offset := by
    rw [Boundary, hoffset]
    exact hfresh
  have hstop : Boundary source
      (s.offset + (c :: rest.take (firstLexeme c rest).more).length) := by
    rw [Boundary, hdrop]
    exact fresh_firstLexeme htail
  have hcomment : ∀ n, firstLexeme c rest = .comment n →
      Boundary source (s.offset + (c :: rest.take n).length + 1) := by
    intro n hn
    rw [Boundary, ← List.drop_drop, drop_of_lexeme hoffset, firstLexeme_comment hn,
      drop_length_takeWhile]
    exact (tidy_dropWhile_newline (p := [c]) htail).2.fresh
  generalize hlexeme : firstLexeme c rest = lexeme at *
  unfold State.step
  cases lexeme with
  | newline =>
    dsimp only
    split
    · refine ⟨⟨by simp [Python.Aligned], List.forall_mem_cons.2 ⟨⟨hstop, ?_⟩, hs.logicals⟩, hs.comments⟩, hdrop⟩
      exact hs.tokens.subset (List.reverse_subset.2 (List.Subset.refl _))
    · exact ⟨⟨hs.tokens, hs.logicals, hs.comments⟩, hdrop⟩
  | continuation => exact ⟨⟨hs.tokens, hs.logicals, hs.comments⟩, hdrop⟩
  | blank => exact ⟨⟨hs.tokens, hs.logicals, hs.comments⟩, hdrop⟩
  | comment n =>
    refine ⟨⟨hs.tokens, hs.logicals, ?_⟩, hdrop⟩
    exact List.forall_mem_cons.2 ⟨⟨hstop, hcomment n rfl⟩, hs.comments⟩
  | token kind n =>
    exact ⟨⟨List.forall_mem_cons.2 ⟨⟨hstart, hstop⟩, hs.tokens⟩, hs.logicals, hs.comments⟩, hdrop⟩

theorem aligned_run {source : Bytes} (htidy : Tidy source) (s : State) (rest : Bytes)
    (hs : s.Aligned source) (hoffset : source.drop s.offset = rest) (hfresh : Fresh rest) :
    (s.run rest).Aligned source := by
  fun_induction State.run s rest with
  | case1 => exact hs
  | case2 s c rest lexeme ih =>
    obtain ⟨hstep, hdrop⟩ := aligned_step htidy hs hoffset hfresh
    have hsuffix : c :: rest <:+ source := hoffset ▸ List.drop_suffix _ _
    have htail : Tidy (c :: rest) := htidy.piece hsuffix.isInfix hfresh
    exact ih hstep hdrop (fresh_firstLexeme htail)

theorem aligned_tokenize {source : Bytes} (htidy : Tidy source) :
    (∀ l ∈ (tokenize source).1, Boundary source l.stop ∧ Aligned source l.tokens) ∧
      ∀ c ∈ (tokenize source).2, Boundary source c.stop ∧ Boundary source (c.stop + 1) := by
  have hrun : (State.run {} source).Aligned source :=
    aligned_run htidy {} source ⟨by simp [Aligned], by simp, by simp⟩ rfl htidy.fresh
  rw [tokenize]
  refine ⟨fun l hl => ?_, fun c hc => hrun.comments c (List.mem_reverse.1 hc)⟩
  rcases List.mem_append.1 hl with hl | hl
  · exact hrun.logicals l (List.mem_reverse.1 hl)
  · split at hl
    · obtain rfl := List.mem_singleton.1 hl
      refine ⟨?_, hrun.tokens.subset (List.reverse_subset.2 (List.Subset.refl _))⟩
      rw [Boundary, List.drop_length]
      exact fresh_nil
    · cases hl

/-! ## Spans -/

/-- Spans behind which a character begins. -/
def Cuts (source : Bytes) (spans : List Span) : Prop := ∀ span ∈ spans, Boundary source span.stop

theorem cuts_nil (source : Bytes) : Cuts source [] := by simp [Cuts]

theorem Cuts.append {source : Bytes} {spans more : List Span} (h : Cuts source spans)
    (hmore : Cuts source more) : Cuts source (spans ++ more) := List.forall_mem_append.2 ⟨h, hmore⟩

theorem boundary_commentSpan {source : Bytes} {c : Comment} (hstop : Boundary source c.stop)
    (hnext : Boundary source (c.stop + 1)) : Boundary source (commentSpan source c).stop := by
  unfold commentSpan
  dsimp only
  split
  · dsimp only
    split
    · exact hnext
    · exact hstop
  · exact hstop

theorem cuts_docSpansFrom {source : Bytes} {logicals : List LogicalLine}
    (h : ∀ l ∈ logicals, Boundary source l.stop) (expected : Bool) :
    Cuts source (docSpansFrom expected logicals) :=
  @spanning_docSpansFrom (fun _ stop => Boundary source stop) logicals h expected

theorem Aligned.reaches {source : Bytes} {tokens : List Token} (h : Aligned source tokens) :
    Reaches (fun _ stop => Boundary source stop) tokens := by
  refine ⟨fun t ht _ _ => (h t ht).2, ?_⟩
  exact List.pairwise_iff_forall_sublist.2 fun hsub => h _ (hsub.subset (by simp))

theorem cuts_hintSpans {source : Bytes} {logicals : List LogicalLine}
    (h : ∀ l ∈ logicals, Boundary source l.stop ∧ Aligned source l.tokens) :
    Cuts source (hintSpans logicals) :=
  @spanning_hintSpans (fun _ stop => Boundary source stop) logicals fun l hl =>
    ⟨(h l hl).2.reaches, (h l hl).1⟩

/-! ## Cutting -/

theorem tidy_cutFrom {source : Bytes} (h : Tidy source) {position : Nat}
    (hposition : Boundary source position) {spans : List Span} (hspans : Cuts source spans) :
    Tidy (cutFrom source position spans) := by
  induction spans generalizing position with
  | nil => exact h.drop position hposition
  | cons span rest ih =>
    obtain ⟨hspan, hrest⟩ := List.forall_mem_cons.1 hspans
    rw [cutFrom]
    split
    · exact ih hposition hrest
    · exact ((h.drop position hposition).start (List.take_prefix _ _)).append (ih hspan hrest)

theorem tidy_applyCuts {source : Bytes} (h : Tidy source) {spans : List Span}
    (hspans : Cuts source spans) : Tidy (applyCuts source spans) := by
  have hstart : Boundary source 0 := h.fresh
  exact tidy_cutFrom h hstart fun span hspan => hspans span (List.mem_mergeSort.1 hspan)

/-! ## Wrapping -/

/-- A line from a column on is broken behind a comma that does not end it. -/
def BreaksBehindComma (column : Nat) (s : Bytes) (b : Break) : Prop :=
  ∃ p q, s = p ++ 44 :: q ∧ q ≠ [] ∧ b.keep = column + p.length + 1

theorem BreaksBehindComma.cons {column : Nat} {s : Bytes} {b : Break}
    (h : BreaksBehindComma (column + 1) s b) (c : UInt8) : BreaksBehindComma column (c :: s) b := by
  obtain ⟨p, q, rfl, hq, hkeep⟩ := h
  exact ⟨c :: p, q, rfl, hq, by rw [hkeep, List.length_cons]; omega⟩

theorem breakFrom_eq_some {column : Nat} {opened : List Nat} {quote : Option UInt8}
    {best : Option Break} {s : Bytes} {b : Break}
    (h : breakFrom column opened quote best s = some b) :
    best = some b ∨ BreaksBehindComma column s b := by
  fun_induction breakFrom column opened quote best s with
  | case1 | case2 | case3 | case6 | case8 => exact .inl h
  | case4 column opened best _ q d rest ih =>
    exact (ih h).imp_right fun hrest => (hrest.cons d).cons _
  | case5 _ _ _ _ _ _ _ _ ih | case7 _ _ _ _ _ _ _ _ ih =>
    exact (ih h).imp_right fun hrest => hrest.cons _
  | case9 _ _ _ _ _ _ _ _ _ ih | case10 _ _ _ _ _ _ _ _ _ _ ih | case12 _ _ _ _ _ _ _ _ _ _ _ ih =>
    exact (ih h).imp_right fun hrest => hrest.cons _
  | case11 column opened best c rest _ _ _ _ _ hc ih =>
    right
    rcases ih h with heq | hrest
    · obtain rfl := Option.some.inj heq
      obtain ⟨rfl, -, hrest⟩ := hc
      have hne : rest ≠ [] := by
        rintro rfl
        exact absurd hrest (by decide)
      exact ⟨[], rest, rfl, hne, rfl⟩
    · exact hrest.cons c

/-- A line is broken into what ends with the comma and what follows it. -/
theorem exists_of_breakFrom {opened : List Nat} {line : Bytes} {b : Break}
    (h : breakFrom 0 opened none none line = some b) :
    ∃ p q, line = p ++ 44 :: q ∧ q ≠ [] ∧ line.take b.keep = p ++ [44] ∧ line.drop b.keep = q := by
  rcases breakFrom_eq_some h with hnone | ⟨p, q, rfl, hq, hkeep⟩
  · cases hnone
  · have hlength : b.keep = (p ++ [44]).length := by
      rw [hkeep, List.length_append]
      simp
    refine ⟨p, q, rfl, hq, ?_, ?_⟩
    · rw [List.append_cons, hlength, List.take_left]
    · rw [List.append_cons, hlength, List.drop_left]

theorem tidy_wrapWithin (bound : Nat) (opened : List Nat) {line : Bytes} (h : Tidy line) :
    TidyLines (wrapWithin bound opened line) := by
  induction bound generalizing opened line with
  | zero => simpa [wrapWithin, TidyLines] using h
  | succ bound ih =>
    rw [wrapWithin]
    split
    · simpa [TidyLines] using h
    · split
      · simpa [TidyLines] using h
      · next b hb =>
        obtain ⟨p, q, rfl, -, -, hback⟩ := exists_of_breakFrom hb
        have hq : Tidy q := Behind.tidy ⟨p, 44, by decide, List.prefix_rfl⟩ h
        have hspaces : Tidy (List.replicate b.indent 32) := tidy_of_ascii fun c hc => by
          rw [List.eq_of_mem_replicate hc]
          decide
        refine List.forall_mem_cons.2 ⟨?_, ih b.open' ?_⟩
        · exact (h.start (List.take_prefix _ _)).start (isPrefix_trimEnd _ _)
        · rw [hback]
          refine hspaces.append (hq.dropWhile fun c hc => ?_)
          rw [eq_of_beq hc]
          decide

theorem tidy_wrap {line : Bytes} (h : Tidy line) : TidyLines (wrap line) := tidy_wrapWithin _ _ h

end Bindery.Listing.Python
