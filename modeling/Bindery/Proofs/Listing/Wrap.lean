import Mathlib.Logic.Relation
import Bindery.Proofs.Listing.Bracket
import Bindery.Proofs.Listing.Python

/-!
# What wrapping makes of a line

A line is wrapped in rounds. Every round leaves less of the line than there was, so the rounds come to an
end, and what they make of the line are segments of it (`wrap_layout`): each stands behind an indentation,
all but the last fit and end with a comma, and the next one is aligned with the bracket that is innermost
at that comma. The columns of the open brackets increase from the outermost to the innermost and lie within
the indentation of what is left; this is why aligning a line never makes it as long as it was.
-/

namespace Bindery.Listing.Python

open Text

/-- What is left of a line: the columns of the brackets that are open in front of it, the innermost first,
and its bytes. -/
structure Remainder where
  opened : List Nat
  line : Bytes

/-- A round of wrapping: the line that is done and what is left, when there is too much and it can be
broken. -/
def Remainder.round? (r : Remainder) : Option (Bytes × Remainder) :=
  if r.line.length ≤ wrapWidth then none
  else (breakFrom 0 r.opened none none r.line).map fun b =>
    (trimEnd (· == 32) (r.line.take b.keep),
      ⟨b.open', List.replicate b.indent 32 ++ (r.line.drop b.keep).dropWhile (· == 32)⟩)

/-- Rounds up to the end, with the lines that they make. -/
inductive Rounds : Remainder → List Bytes → Prop
  | stop {r : Remainder} (h : r.round? = none) : Rounds r [r.line]
  | next {r r' : Remainder} {done : Bytes} {ls : List Bytes} (h : r.round? = some (done, r'))
      (hrest : Rounds r' ls) : Rounds r (done :: ls)

/-- What is left after some rounds. -/
def Remainder.Reaches : Remainder → Remainder → Prop :=
  Relation.ReflTransGen fun r r' => ∃ done, r.round? = some (done, r')

/-- A part of a line that is shown as a line of its own: the columns in front of it, its text, and the
spaces behind it that are not shown. -/
structure Segment where
  indent : Nat
  text : Bytes
  gap : Bytes

def Segment.shown (p : Segment) : Bytes := List.replicate p.indent 32 ++ p.text

/-- What a segment is of the line. -/
def Segment.whole (p : Segment) : Bytes := p.text ++ p.gap

/-- A segment fits and ends with a comma, and behind it only spaces are left out. -/
structure Segment.Precedes (p q : Segment) : Prop where
  fits : p.shown.length ≤ wrapWidth
  comma : p.text.getLast? = some 44
  spaces : ∀ c ∈ p.gap, c = 32
  starts : ∃ c ∈ q.text.head?, c ≠ 32

/-- Lines show the segments of a text, which is indented. -/
structure Shows (indent : Nat) (text : Bytes) (ls : List Bytes) (ps : List Segment) : Prop where
  shown : ls = ps.map Segment.shown
  whole : text = ps.flatMap Segment.whole
  first : ∀ p ∈ ps.head?, p.indent = indent
  last : ∀ p ∈ ps.getLast?, p.gap = []
  chain : ps.IsChain Segment.Precedes

/-- How much of a text some segments are. -/
def extent (ps : List Segment) : Nat := (ps.flatMap Segment.whole).length

/-- The byte of a source at an offset is shown in a column of one of the segments of a line. The line
starts at `start`. -/
def ShownAt (start : Nat) (ps : List Segment) (offset column : Nat) : Prop :=
  ∃ above p below k, ps = above ++ p :: below ∧ offset = start + extent above + k ∧ k < p.text.length ∧
    column = p.indent + k

/-- Right in front of an offset of a source stands a comma that is a token of its own, and `bracket` is
the innermost bracket that is open there. -/
def BehindComma (source : Bytes) (bracket : Token) (offset : Nat) : Prop :=
  ∃ before comma after outer, tokensOf source = before ++ comma :: after ∧ comma.kind = .operator ∧
    comma.text = [44] ∧ comma.stop = offset ∧ openBrackets before = bracket :: outer

/-- A line that starts at the offset `start` of a source is broken between two of its segments as the
tokens of the source want it: behind a comma, aligned with the bracket that is innermost there, and not in
a string. -/
structure BreaksAtToken (source : Bytes) (start : Nat) (before : List Segment) (p q : Segment) : Prop where
  aligned : ∃ bracket column, BehindComma source bracket (start + extent before + p.text.length) ∧
    ShownAt start (before ++ [p]) bracket.start column ∧ q.indent = column + 1
  outside : ∀ t ∈ tokensOf source, t.kind = .string →
    t.stop < start + extent before + p.text.length ∨ start + extent before + p.text.length ≤ t.start

/-! ## Rounds -/

/-- Columns of open brackets that lie in front of a column, the innermost first. -/
structure Nested (column : Nat) (opened : List Nat) : Prop where
  increasing : opened.Pairwise (· > ·)
  below : ∀ x ∈ opened, x < column

/-- What is left of a line is indented beyond the brackets that are open in front of it. -/
def Remainder.Indented (r : Remainder) : Prop :=
  ∃ column rest, r.line = List.replicate column 32 ++ rest ∧ Nested column r.opened

section

variable {column : Nat} {opened : List Nat} {quote : Option UInt8} {best : Option Break} {b : Break}
  {s line : Bytes} {r r' : Remainder} {done : Bytes} {ls : List Bytes}

theorem nested_nil (column : Nat) : Nested column [] := ⟨.nil, nofun⟩

theorem Nested.mono (h : Nested column opened) {column' : Nat} (hle : column ≤ column') :
    Nested column' opened := ⟨h.increasing, fun x hx => (h.below x hx).trans_le hle⟩

theorem Nested.open (h : Nested column opened) : Nested (column + 1) (column :: opened) := by
  refine ⟨List.pairwise_cons.2 ⟨h.below, h.increasing⟩, List.forall_mem_cons.2 ⟨Nat.lt_succ_self _, ?_⟩⟩
  exact (h.mono (Nat.le_succ _)).below

theorem Nested.close (h : Nested column opened) : Nested column (opened.drop 1) :=
  ⟨h.increasing.sublist (List.drop_sublist 1 _), fun x hx => h.below x (List.mem_of_mem_drop hx)⟩

/-- A line is broken within the width, behind a column of an open bracket. -/
theorem nested_of_breakFrom (hopened : Nested column opened)
    (h : breakFrom column opened quote best s = some b) :
    best = some b ∨ b.keep ≤ wrapWidth ∧ b.open' ≠ [] ∧ Nested (b.keep - 1) b.open' := by
  fun_induction breakFrom column opened quote best s with
  | case1 | case2 | case3 | case6 | case8 => exact .inl h
  | case4 column opened best _ q d rest ih => exact ih (hopened.mono (Nat.le_add_right _ _)) h
  | case5 _ _ _ _ _ _ _ _ ih | case7 _ _ _ _ _ _ _ _ ih => exact ih (hopened.mono (Nat.le_succ _)) h
  | case9 _ _ _ _ _ _ _ _ _ ih => exact ih hopened.open h
  | case10 _ _ _ _ _ _ _ _ _ _ ih => exact ih (hopened.close.mono (Nat.le_succ _)) h
  | case12 _ _ _ _ _ _ _ _ _ _ _ ih => exact ih (hopened.mono (Nat.le_succ _)) h
  | case11 column opened best c rest hwidth _ _ _ _ hc ih =>
    right
    rcases ih (hopened.mono (Nat.le_succ _)) h with heq | hfound
    · obtain rfl := Option.some.inj heq
      refine ⟨Nat.lt_of_not_le hwidth, ?_, hopened⟩
      rintro (rfl : opened = [])
      cases hc.2.1
    · exact hfound

theorem exists_of_round (h : r.round? = some (done, r')) :
    wrapWidth < r.line.length ∧ ∃ b, breakFrom 0 r.opened none none r.line = some b ∧
      done = trimEnd (· == 32) (r.line.take b.keep) ∧ r'.opened = b.open' ∧
      r'.line = List.replicate b.indent 32 ++ (r.line.drop b.keep).dropWhile (· == 32) := by
  rw [Remainder.round?] at h
  split at h
  · cases h
  · next hlong =>
    obtain ⟨b, hb, heq⟩ := Option.map_eq_some_iff.1 h
    cases heq
    exact ⟨Nat.lt_of_not_le hlong, b, hb, rfl, rfl, rfl⟩

/-- The indentation of what is left holds no place to break it. -/
theorem breakFrom_indented {rest : Bytes}
    (h : breakFrom 0 opened none none (List.replicate column 32 ++ rest) = some b) :
    breakFrom column opened none none rest = some b := by
  rcases breakFrom_passed (fun c hc => by rw [List.eq_of_mem_replicate hc]; rfl) h with hnone | hrest
  · cases hnone
  · rwa [List.length_replicate, Nat.zero_add] at hrest

theorem exists_of_round_indented {rest : Bytes} (hline : r.line = List.replicate column 32 ++ rest)
    (hopened : Nested column r.opened) (hround : r.round? = some (done, r')) :
    ∃ b u v, breakFrom column r.opened none none rest = some b ∧ rest = u ++ 44 :: v ∧ v ≠ [] ∧
      b.keep = column + u.length + 1 ∧ b.keep ≤ wrapWidth ∧ b.open' ≠ [] ∧ Nested b.indent b.open' ∧
      b.indent < b.keep ∧ done = List.replicate column 32 ++ (u ++ [44]) ∧
      r' = ⟨b.open', List.replicate b.indent 32 ++ v.dropWhile (· == 32)⟩ := by
  obtain ⟨-, b, hb, hdone, hopened', hline'⟩ := exists_of_round hround
  rw [hline] at hb
  have hrest := breakFrom_indented hb
  rcases breakFrom_eq_some hrest with hnone | ⟨u, v, rfl, hv, hkeep⟩
  · cases hnone
  rcases nested_of_breakFrom hopened hrest with hnone | ⟨hfits, hne, hnested⟩
  · cases hnone
  obtain ⟨x, more, hmore⟩ := List.exists_cons_of_ne_nil hne
  have hindent : b.indent = x + 1 := by rw [Break.indent, hmore]; rfl
  have hx : x < b.keep - 1 := hnested.below x (hmore ▸ List.mem_cons_self)
  have hsplit : r.line = List.replicate column 32 ++ (u ++ [44]) ++ v := by
    rw [hline, List.append_cons u, List.append_assoc, List.append_assoc, List.append_assoc]
  have hlength : b.keep = (List.replicate column (32 : UInt8) ++ (u ++ [44])).length := by
    rw [hkeep, List.length_append, List.length_replicate, List.length_append, List.length_singleton]
    omega
  refine ⟨b, u, v, hrest, rfl, hv, hkeep, hfits, hne, ?_, by omega, ?_, ?_⟩
  · have hpairs := hnested.increasing
    rw [hmore, List.pairwise_cons] at hpairs
    rw [hindent, hmore]
    exact Nested.open ⟨hpairs.2, hpairs.1⟩
  · rw [hdone, hsplit, hlength, List.take_left, trimEnd, ← List.append_assoc, List.reverse_append]
    simp
  · rw [hsplit, hlength, List.drop_left] at hline'
    rw [← hopened', ← hline']

/-- What a round leaves is indented again, and shorter than what there was. -/
theorem Remainder.Indented.round (h : r.Indented) (hround : r.round? = some (done, r')) :
    r'.Indented ∧ r'.line.length < r.line.length := by
  obtain ⟨column, rest, hline, hopened⟩ := h
  obtain ⟨b, u, v, -, rfl, -, hkeep, -, -, hnested, hlt, -, rfl⟩ :=
    exists_of_round_indented hline hopened hround
  refine ⟨⟨b.indent, _, rfl, hnested⟩, ?_⟩
  have hshort := (List.dropWhile_suffix (· == 32) (l := v)).length_le
  rw [hline, List.length_append, List.length_append, List.length_append, List.length_replicate,
    List.length_replicate, List.length_cons]
  omega

theorem Remainder.Indented.reaches (h : r.Indented) (hreaches : r.Reaches r') : r'.Indented := by
  induction hreaches with
  | refl => exact h
  | tail _ hround ih =>
    obtain ⟨done, hround⟩ := hround
    exact (ih.round hround).1

theorem wrapWithin_succ (bound : Nat) (r : Remainder) :
    wrapWithin (bound + 1) r.opened r.line =
      match r.round? with
      | none => [r.line]
      | some (done, r') => done :: wrapWithin bound r'.opened r'.line := by
  rw [wrapWithin, Remainder.round?]
  split
  · rfl
  · cases breakFrom 0 r.opened none none r.line <;> rfl

/-- The length of what is left bounds the number of rounds. -/
theorem Remainder.Indented.rounds {bound : Nat} (h : r.Indented) (hbound : r.line.length ≤ bound) :
    Rounds r (wrapWithin bound r.opened r.line) := by
  induction bound generalizing r with
  | zero =>
    rw [wrapWithin]
    refine .stop ?_
    rw [Remainder.round?, if_pos (hbound.trans (Nat.zero_le _))]
  | succ bound ih =>
    rw [wrapWithin_succ]
    cases hround : r.round? with
    | none => exact .stop hround
    | some next =>
      obtain ⟨done, r'⟩ := next
      obtain ⟨hindented, hshorter⟩ := h.round hround
      exact .next hround (ih hindented (Nat.le_of_lt_succ (hshorter.trans_le hbound)))

theorem indented_start (line : Bytes) : (Remainder.mk [] line).Indented := ⟨0, line, rfl, nested_nil 0⟩

theorem rounds_wrap (line : Bytes) : Rounds ⟨[], line⟩ (wrap line) := (indented_start line).rounds le_rfl

end

/-! ## Tokens -/

section

variable {source rest tail : Bytes} {s : State} {start : Nat} {above : List Segment} {p : Segment}

theorem extent_concat (ps : List Segment) (p : Segment) :
    extent (ps ++ [p]) = extent ps + p.text.length + p.gap.length := by
  rw [extent, List.flatMap_append, List.length_append, List.flatMap_singleton, Segment.whole,
    List.length_append, Nat.add_assoc, extent]

theorem ShownAt.append {ps : List Segment} {offset column : Nat} (h : ShownAt start ps offset column)
    (more : List Segment) : ShownAt start (ps ++ more) offset column := by
  obtain ⟨above, p, below, k, rfl, hoffset, hk, hcolumn⟩ := h
  exact ⟨above, p, below ++ more, k, by simp, hoffset, hk, hcolumn⟩

theorem State.At.start_lt (h : s.At source rest) {t : Token} (ht : t ∈ s.found) : t.start < s.offset := by
  obtain ⟨⟨before, following, n, -, hstart, hstop, -, hlexed⟩, hle⟩ := h.reads.tokens t ht
  have hpos := List.length_pos_of_ne_nil hlexed.ne_nil
  omega

/-- No string reaches over a place behind a comma. -/
theorem State.At.outside (h : s.At source (44 :: rest)) :
    ∀ t ∈ tokensOf source, t.kind = .string → t.stop < s.offset + 1 ∨ s.offset + 1 ≤ t.start := by
  obtain ⟨s', comma, hs', -, hfound, -, hkind, -, hstart, hstop⟩ := h.comma
  obtain ⟨more, hmore⟩ := hs'.tokensOf_eq
  obtain ⟨-, hordered, -⟩ := reads_tokenize source
  rw [hmore, hfound, List.append_assoc, List.pairwise_append] at hordered
  obtain ⟨-, hafter, hbefore⟩ := hordered
  intro t ht hstring
  rw [hmore, hfound, List.append_assoc] at ht
  rcases List.mem_append.1 ht with ht | ht
  · left
    rw [← hstart]
    exact Nat.lt_succ_of_le (hbefore t ht comma List.mem_cons_self)
  · rcases List.mem_cons.1 ht with rfl | ht
    · rw [hkind] at hstring
      cases hstring
    · right
      rw [← hstop]
      exact (List.pairwise_cons.1 hafter).1 t ht

theorem State.At.behindComma (h : s.At source (44 :: rest)) {bracket : Token} {outer : List Token}
    (hbracket : openBrackets s.found = bracket :: outer) : BehindComma source bracket (s.offset + 1) := by
  obtain ⟨s', comma, hs', -, hfound, -, hkind, htext, -, hstop⟩ := h.comma
  obtain ⟨more, hmore⟩ := hs'.tokensOf_eq
  exact ⟨s.found, comma, more, outer, by rw [hmore, hfound, List.append_assoc]; rfl, hkind, htext, hstop,
    hbracket⟩

end

/-! ## Segments -/

section

variable {source tail : Bytes} {start : Nat}

theorem eq_of_mem_takeWhile {v : Bytes} {c : UInt8} (hc : c ∈ v.takeWhile (· == 32)) : c = 32 := by
  have hspace := List.mem_takeWhile_imp hc
  exact eq_of_beq hspace

/-- What is left behind a break starts with no space, and ends as the line did. -/
theorem exists_dropWhile_spaces {v : Bytes} (hv : v ≠ []) (hbare : v.getLast? ≠ some 32) :
    (v.dropWhile (· == 32)).getLast? = v.getLast? ∧ ∃ c ∈ (v.dropWhile (· == 32)).head?, c ≠ 32 := by
  have hsplit := List.takeWhile_append_dropWhile (p := (· == 32)) (l := v)
  have hne : v.dropWhile (· == 32) ≠ [] := by
    intro hnil
    rw [hnil, List.append_nil] at hsplit
    have hspaces : ∀ c ∈ v, c = 32 := by
      rw [← hsplit]
      exact fun c hc => eq_of_mem_takeWhile hc
    rw [List.getLast?_eq_some_getLast hv, hspaces _ (List.getLast_mem hv)] at hbare
    exact hbare rfl
  constructor
  · conv_rhs => rw [← hsplit, List.getLast?_append_of_ne_nil _ hne]
  · obtain ⟨c, more, hmore⟩ := List.exists_cons_of_ne_nil hne
    have hhead := List.head?_dropWhile_not (· == 32) v
    rw [hmore] at hhead ⊢
    exact ⟨c, rfl, by simpa using hhead⟩

/-- A segment with which lines begin that show a text begins as the text does. -/
theorem Shows.head? {column : Nat} {text : Bytes} {ls : List Bytes} {p : Segment} {ps : List Segment}
    (h : Shows column text ls (p :: ps)) : p.text.head? = text.head? := by
  cases ps with
  | nil =>
    rw [h.whole, List.flatMap_singleton, Segment.whole, h.last p rfl, List.append_nil]
  | cons q ps =>
    have hne : p.text ≠ [] := by
      intro hnil
      have hcomma := (List.isChain_cons_cons.1 h.chain).1.comma
      rw [hnil] at hcomma
      cases hcomma
    rw [h.whole, List.flatMap_cons, Segment.whole, List.append_assoc, List.head?_append_of_ne_nil _ hne]

/-- Where the tokeniser comes to a segment, it comes to the comma at the end of the segment, and the columns
of the break are those in which the brackets are shown that are open there. -/
theorem exists_comma_of_breakFrom {s : State} {above : List Segment} {opened : List Nat} {b : Break}
    {u v : Bytes} {p : Segment} (htext : p.text = u ++ [44]) (hsingle : 10 ∉ u ++ 44 :: v)
    (htail : ∀ x ∈ tail.head?, isSkipped x = true)
    (hb : breakFrom p.indent opened none none (u ++ 44 :: v) = some b)
    (hkeep : b.keep = p.indent + u.length + 1) (hs : s.At source (u ++ 44 :: v ++ tail))
    (hoffset : s.offset = start + extent above)
    (hcolumns : Columns (fun x t => ShownAt start above t.start x) opened (openBrackets s.found)) :
    ∃ s' : State, s'.At source (44 :: (v ++ tail)) ∧
      start + extent above + p.text.length = s'.offset + 1 ∧
      Columns (fun x t => ShownAt start (above ++ [p]) t.start x) b.open' (openBrackets s'.found) := by
  -- The brackets that are opened on the way are shown in this segment.
  let R : Nat → Token → Prop := fun x t =>
    ShownAt start above t.start x ∨ s.offset ≤ t.start ∧ x = p.indent + (t.start - s.offset)
  have hbefore : Columns R opened (openBrackets s.found) := hcolumns.imp fun x t _ hx => .inl hx
  rcases at_comma_of_breakFrom (fun t ht => .inr ⟨ht, rfl⟩) htail hsingle hs le_rfl (by simp) hbefore hb with
    hnone | ⟨s', u', v', heq, -, hs', hoffset', hkeep', -, -, hbrackets⟩
  · cases hnone
  have hlength : u.length = u'.length := by omega
  obtain ⟨rfl, hrest⟩ := List.append_inj heq hlength
  obtain rfl := (List.cons.inj hrest).2
  have hplace : p.text.length = u.length + 1 := by rw [htext, List.length_append, List.length_singleton]
  refine ⟨s', hs', by omega, hbrackets.imp fun x t ht hx => ?_⟩
  have hlt := hs'.start_lt (mem_of_mem_openBrackets ht)
  rcases hx with hx | ⟨hle, rfl⟩
  · exact hx.append [p]
  · exact ⟨above, p, [], t.start - s.offset, rfl, by omega, by omega, rfl⟩

/-- Wrapping shows segments of what is left. Where the tokeniser comes to what is left, with the columns of
brackets that are open there, the segments are broken as the tokens want it. -/
theorem Rounds.exists_segments {r : Remainder} {ls : List Bytes} (h : Rounds r ls) :
    ∀ {column : Nat} {rest : Bytes}, r.line = List.replicate column 32 ++ rest → Nested column r.opened →
      10 ∉ rest → rest.getLast? ≠ some 32 → ∃ p ps, Shows column rest ls (p :: ps) ∧
        ∀ {s : State} {above : List Segment}, s.At source (rest ++ tail) →
          (∀ x ∈ tail.head?, isSkipped x = true) → s.offset = start + extent above →
          Columns (fun x t => ShownAt start above t.start x) r.opened (openBrackets s.found) →
          ∀ before q q' after, p :: ps = before ++ q :: q' :: after →
            BreaksAtToken source start (above ++ before) q q' := by
  induction h with
  | stop _ =>
    intro column rest hline _ _ _
    refine ⟨⟨column, rest, []⟩, [], ⟨by rw [hline]; rfl, by simp [Segment.whole], ?_, ?_, ?_⟩, ?_⟩
    · simp
    · simp
    · exact List.IsChain.singleton _
    · intro s above _ _ _ _ before q q' after hsplit
      have hlength := congrArg List.length hsplit
      simp only [List.length_append, List.length_cons, List.length_nil] at hlength
      omega
  | @next r r' done ls hround _ ih =>
    intro column rest hline hopened hsingle hbare
    obtain ⟨b, u, v, hb, rfl, hv, hkeep, hfits, hne, hnested, -, rfl, rfl⟩ :=
      exists_of_round_indented hline hopened hround
    have hlast : v.getLast? ≠ some 32 := by
      rwa [List.append_cons, List.getLast?_append_of_ne_nil _ hv] at hbare
    obtain ⟨hends, hstarts⟩ := exists_dropWhile_spaces hv hlast
    have hsingle' : 10 ∉ v.dropWhile (· == 32) := fun hmem =>
      hsingle (List.mem_append_right _ (List.mem_cons_of_mem _ ((List.dropWhile_subset _) hmem)))
    obtain ⟨q, ps, hshows, htokens⟩ := ih rfl hnested hsingle' (hends ▸ hlast)
    obtain ⟨p, rfl, htext, hgap⟩ : ∃ p : Segment, p.indent = column ∧ p.text = u ++ [44] ∧
        p.gap = v.takeWhile (· == 32) := ⟨⟨column, _, _⟩, rfl, rfl, rfl⟩
    have hv' : p.gap ++ v.dropWhile (· == 32) = v := by rw [hgap, List.takeWhile_append_dropWhile]
    have hspaces : ∀ c ∈ p.gap, c = 32 := by
      intro c hc
      rw [hgap] at hc
      exact eq_of_mem_takeWhile hc
    have hprecedes : p.Precedes q := by
      refine ⟨?_, by rw [htext, List.getLast?_concat], hspaces, hshows.head? ▸ hstarts⟩
      rw [Segment.shown, List.length_append, List.length_replicate, htext, List.length_append,
        List.length_singleton, ← Nat.add_assoc, ← hkeep]
      exact hfits
    refine ⟨p, q :: ps, ⟨?_, ?_, fun _ hp => by cases hp; rfl, ?_, ?_⟩, ?_⟩
    · rw [List.map_cons, ← hshows.shown, Segment.shown, htext]
    · rw [List.flatMap_cons, ← hshows.whole, Segment.whole, htext, List.append_assoc, hv', List.append_assoc]
      rfl
    · rw [List.getLast?_cons_cons]
      exact hshows.last
    · exact List.isChain_cons_cons.2 ⟨hprecedes, hshows.chain⟩
    · intro s above hs htail hoffset hcolumns before q₁ q₂ after heq
      obtain ⟨s', hs', hplace, hbrackets⟩ :=
        exists_comma_of_breakFrom htext hsingle htail hb hkeep hs hoffset hcolumns
      cases before with
      | nil =>
        obtain ⟨rfl, hnext⟩ := List.cons.inj heq
        obtain ⟨rfl, -⟩ := List.cons.inj hnext
        obtain ⟨bracket, outer, hbracket, hcolumn⟩ := hbrackets.innermost hne
        rw [List.append_nil]
        refine ⟨⟨bracket, _, ?_, hcolumn, hshows.first q rfl⟩, ?_⟩
        · rw [hplace]
          exact hs'.behindComma hbracket
        · rw [hplace]
          exact hs'.outside
      | cons p' before =>
        obtain ⟨rfl, hnext⟩ := List.cons.inj heq
        obtain ⟨s₁, comma, hs₁, hoffset₁, -, hbrackets₁, -⟩ := hs'.comma
        rw [← hv', List.append_assoc] at hs₁
        obtain ⟨s₂, hs₂, hoffset₂, hfound₂⟩ := hs₁.blanks fun c hc => by rw [hspaces c hc]; rfl
        rw [List.append_cons above]
        refine htokens hs₂ htail ?_ ?_ before q₁ q₂ after hnext
        · rw [extent_concat]
          omega
        · rw [hfound₂, hbrackets₁]
          exact hbrackets

end

/-- **How a line is wrapped.** Every round leaves less of the line than there was, and the rounds run to
their end. The lines that are made show the segments of the line one by one. Between two of them stands a
comma in front of the spaces that are left out, a token of its own in no string, and the next segment is
shown one column behind the innermost bracket that is open at the comma. -/
theorem wrap_layout {line : Bytes} (hsingle : 10 ∉ line) (hbare : ∀ c ∈ line.getLast?, isBlank c = false) :
    (∀ r, Remainder.Reaches ⟨[], line⟩ r → ∀ done r', r.round? = some (done, r') →
      r'.line.length < r.line.length) ∧
    Rounds ⟨[], line⟩ (wrap line) ∧
    ∃ ps, Shows 0 line (wrap line) ps ∧ ∀ before p q after, ps = before ++ p :: q :: after →
      BreaksAtToken line 0 before p q := by
  refine ⟨fun r hr done r' hround => ?_, rounds_wrap line, ?_⟩
  · exact (((indented_start line).reaches hr).round hround).2
  · have hlast : line.getLast? ≠ some 32 := by
      intro hspace
      have hblank := hbare 32 hspace
      cases hblank
    obtain ⟨p, ps, hshows, htokens⟩ :=
      (rounds_wrap line).exists_segments (List.nil_append line).symm (nested_nil 0) hsingle hlast
    have hstart : State.At line (line ++ []) {} := by
      rw [List.append_nil]
      exact State.at_start line
    have hnone : ({} : State).offset = 0 + extent [] := rfl
    exact ⟨p :: ps, hshows, htokens hstart nofun hnone (columns_nil _ _)⟩

/-- What follows the first break is aligned with the inner bracket, what follows the second with the outer
one, which is open since the first line; the commas in the strings do not count. -/
theorem wrap_layout_call :
    let line := bytes ("combine(first_operand, [\"one, (two\", three, four, " ++
      "\"five, six, seven, eight, nine\", ten], second_operand, third_operand, fourth_operand)")
    wrap line = [
        bytes "combine(first_operand, [\"one, (two\", three, four,",
        bytes "                        \"five, six, seven, eight, nine\", ten],",
        bytes "        second_operand, third_operand, fourth_operand)"] ∧
      Rounds ⟨[], line⟩ (wrap line) ∧
      ∃ ps, Shows 0 line (wrap line) ps ∧ ∀ before p q after, ps = before ++ p :: q :: after →
        BreaksAtToken line 0 before p q := by
  intro line
  have hsingle : 10 ∉ line := by decide +kernel
  have hbare : ∀ c ∈ line.getLast?, isBlank c = false := by decide +kernel
  exact ⟨by decide +kernel, (wrap_layout hsingle hbare).2⟩

end Bindery.Listing.Python
