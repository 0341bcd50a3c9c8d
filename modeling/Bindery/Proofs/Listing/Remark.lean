import Bindery.Proofs.Listing.Cut
import Bindery.Proofs.Listing.Token

/-!
# Leaving out comments of indented sources

With a comment only white space next to it is left out: what is in front of it on its line, as far as
nothing else follows there, and the end of the line if it stands alone. All tokens that can be seen stay,
byte for byte and in order (`uncovered_comments`).
-/

namespace Bindery.Listing.Python

open Text

/-- A span of a source that holds a comment, white space in front of it and at most the end of its line. -/
def Comment.CutBy (source : Bytes) (c : Comment) (span : Span) : Prop :=
  ∃ front gap text after following, source = front ++ (gap ++ (35 :: text ++ (after ++ following))) ∧
    White gap ∧ 10 ∉ text ∧ (after = [] ∨ after = [10]) ∧ (∀ x ∈ (after ++ following).head?, x = 10) ∧
    span.start = front.length ∧ c.start = span.start + gap.length ∧
    c.stop = c.start + (35 :: text).length ∧ span.stop = c.stop + after.length

section

variable {source : Bytes} {c : Comment} {t : Token}

theorem slice_append {a b d : Bytes} : slice (a ++ (b ++ d)) a.length (a.length + b.length) = b := by
  rw [slice, List.drop_left, Nat.add_sub_cancel_left, List.take_left]

theorem exists_of_append_eq {a b d e : Bytes} (h : a ++ b = d ++ e) (hle : d.length ≤ a.length) :
    ∃ g, a = d ++ g ∧ e = g ++ b := by
  rcases List.append_eq_append_iff.1 h with ⟨g, hd, hb⟩ | ⟨g, ha, he⟩
  · have hlength := congrArg List.length hd
    rw [List.length_append] at hlength
    have hnil : g = [] := List.eq_nil_of_length_eq_zero (by omega)
    subst hnil
    exact ⟨[], by simpa using hd.symm, hb.symm⟩
  · exact ⟨g, ha, he⟩

/-- Where a text that is cut in two places ends inside a part, the part is cut in two. -/
theorem exists_overlap {a b d gap e : Bytes} (h : a ++ b = d ++ (gap ++ e)) (hlt : d.length < a.length)
    (hle : a.length ≤ d.length + gap.length) : ∃ g u, g ≠ [] ∧ a = d ++ g ∧ gap = g ++ u ∧ b = u ++ e := by
  obtain ⟨g, rfl, hg⟩ := exists_of_append_eq h hlt.le
  rw [List.length_append] at hlt hle
  obtain ⟨u, hgap, hb⟩ := exists_of_append_eq hg (by omega)
  refine ⟨g, u, ?_, rfl, hgap, hb⟩
  rintro rfl
  simp at hlt

theorem Token.Stands.slice_eq (h : t.Stands source) :
    t.start ≤ t.stop ∧ slice source t.start t.stop = t.text := by
  obtain ⟨before, following, n, rfl, hstart, hstop, -, -⟩ := h
  rw [hstart, hstop, slice_append]
  exact ⟨Nat.le_add_right _ _, rfl⟩

theorem Lexed.comment_inv {n : Nat} {text following : Bytes} (h : Lexed (.comment n) text following) :
    (∃ more, text = 35 :: more ∧ 10 ∉ more) ∧ ∀ x ∈ following.head?, x = 10 := by
  cases h with
  | comment hline hend => exact ⟨⟨_, rfl, hline⟩, hend⟩

/-- The span of a comment begins behind what else stands on the line, and takes in the end of the line when
nothing does. -/
theorem commentSpan_eq {front line text following : Bytes}
    (hsource : source = front ++ (line ++ (text ++ following))) (hend : ∀ x ∈ following.head?, x = 10)
    (hlineStart : c.lineStart = front.length) (hstart : c.start = front.length + line.length)
    (hstop : c.stop = c.start + text.length) : ∃ body gap after rest,
      line = body ++ gap ∧ following = after ++ rest ∧ (after = [] ∨ after = [10]) ∧
      (body = [] ∧ White gap ∨ ∀ x ∈ gap, isBlank x = true) ∧
      (commentSpan source c).start = front.length + body.length ∧
      (commentSpan source c).stop = c.stop + after.length := by
  have hlength := congrArg List.length hsource
  simp only [List.length_append] at hlength
  rw [commentSpan, hlineStart, hstart, hsource, slice_append, ← hsource]
  split
  · next hwhite =>
    rcases following with - | ⟨x, following⟩
    · have hout : ¬ c.stop < source.length := by
        rw [List.length_nil] at hlength
        omega
      exact ⟨[], line, [], [], rfl, rfl, .inl rfl, .inl ⟨rfl, isWhite_iff.1 hwhite⟩, rfl, if_neg hout⟩
    · obtain rfl := hend x rfl
      have hin : c.stop < source.length := by
        rw [List.length_cons] at hlength
        omega
      exact ⟨[], line, [10], following, rfl, rfl, .inr rfl, .inl ⟨rfl, isWhite_iff.1 hwhite⟩, rfl, if_pos hin⟩
  · obtain ⟨gap, hcut, hblank, -, hgap⟩ := exists_trimEnd isBlank line
    have hsum := congrArg List.length hcut
    rw [List.length_append] at hsum
    refine ⟨trimEnd isBlank line, gap, [], following, hcut, rfl, .inl rfl, .inr hblank, ?_, rfl⟩
    dsimp only
    omega

theorem commentSpan_cutBy (h : c.Stands source) : c.CutBy source (commentSpan source c) := by
  obtain ⟨front, line, text, following, n, hsource, -, -, hlineStart, hstart, hstop, hlexed⟩ := h
  obtain ⟨⟨text, rfl, hline⟩, hend⟩ := hlexed.comment_inv
  obtain ⟨body, gap, after, rest, rfl, rfl, hafter, hgap, hspan, hspan'⟩ :=
    commentSpan_eq hsource hend hlineStart hstart hstop
  have hwhite : White gap := by
    rcases hgap with ⟨-, hgap⟩ | hgap
    · exact hgap
    · exact white_of_isBlank hgap
  refine ⟨front ++ body, gap, text, after, rest, by simp [hsource], hwhite, hline, hafter, hend, ?_, ?_,
    hstop, hspan'⟩
  · rw [hspan, List.length_append]
  · rw [hspan, hstart, List.length_append, Nat.add_assoc]

theorem Comment.CutBy.within {span : Span} (h : c.CutBy source span) :
    span.start ≤ span.stop ∧ span.stop ≤ source.length := by
  obtain ⟨front, gap, text, after, following, rfl, -, -, -, -, hstart, hcstart, hcstop, hstop⟩ := h
  simp only [List.length_append]
  omega

/-- A string that is not cut off by the end of a line ends in a quote. -/
theorem Lexed.quote_of_closed {n : Nat} {text following : Bytes} (h : Lexed (.token .string n) text following)
    (hclosed : ¬ ∀ x ∈ following.head?, x = 10) : ∃ q ∈ text.getLast?, q = 34 ∨ q = 39 := by
  rcases h.string_ends with ⟨init, q, rfl, hq⟩ | hopen
  · exact ⟨q, by simp, hq⟩
  · exact absurd hopen hclosed

/-- A token that ends in the white space at the start of a line, with something else behind it, is white
space. A token of a line above would be a string, with its quote in the white space. -/
theorem isWhite_of_line {before text behind front g u : Bytes} {kind : TokenKind} {n : Nat}
    (hlexed : Lexed (.token kind n) text behind) (hparted : Parted before (text ++ behind))
    (hsplit : before ++ text = front ++ g) (hfront : ∀ x ∈ front.getLast?, x = 10) (hwhite : White (g ++ u))
    (hu : u <+: behind) (hne : g ≠ []) (hclosed : ¬ ∀ x ∈ behind.head?, x = 10) : isWhite text = true := by
  obtain ⟨behind, rfl⟩ := hu
  rcases Nat.lt_or_ge before.length front.length with hlt | hle
  · obtain ⟨f, rfl, rfl⟩ := exists_of_append_eq hsplit.symm hlt.le
    obtain ⟨f, x, rfl⟩ := (List.eq_nil_or_concat f).resolve_left (by
      rintro rfl
      rw [List.append_nil] at hlt
      omega)
    rw [List.concat_eq_append] at hfront hlexed
    have hx : x = 10 := hfront x (by simp [← List.append_assoc])
    rw [isString_of_mem_newline hlexed (by simp [hx])] at hlexed
    obtain ⟨q, hlast, hq⟩ := hlexed.quote_of_closed hclosed
    rw [List.getLast?_append_of_ne_nil _ hne] at hlast
    have hquote : q ∈ g ++ u := List.mem_append_left u (List.mem_of_getLast? hlast)
    exact absurd hquote (hwhite.notMem (visible_quote hq).1 (visible_quote hq).2)
  · obtain ⟨a, rfl, rfl⟩ := exists_of_append_eq hsplit hle
    rw [List.append_assoc] at hwhite
    rw [← List.append_assoc] at hparted
    have hwhite := (hwhite.of_parted hparted.within).2
    have htext : Parted text u := by
      apply @Parted.within [] _ _ behind
      exact hlexed.parted
    exact isWhite_iff.2 (hwhite.of_parted htext).1

/-- A token that can be seen ends in front of what is cut with a comment behind it. -/
theorem stop_le_commentSpan (ht : t.Stands source) (hc : c.Stands source)
    (hvisible : isWhite t.text = false) (h : t.stop ≤ c.start) : t.stop ≤ (commentSpan source c).start := by
  obtain ⟨before, behind, n, hsource, htstart, htstop, hparted, hlexed⟩ := ht
  obtain ⟨front, line, text, following, m, hsource', hfront, hnewline, hlineStart, hstart, hstop, hcomment⟩ := hc
  obtain ⟨⟨text, rfl, -⟩, hend⟩ := hcomment.comment_inv
  obtain ⟨body, gap, after, rest, rfl, -, -, hgap, hspan, -⟩ :=
    commentSpan_eq hsource' hend hlineStart hstart hstop
  rw [hspan]
  by_contra hlt
  -- The end of the token, `g`, lies in the gap, and `u` is the rest of the gap.
  have hwhole : (before ++ t.text) ++ behind = (front ++ body) ++ (gap ++ (35 :: text ++ following)) := by
    simpa using hsource.symm.trans hsource'
  obtain ⟨g, u, hne, hsplit, rfl, rfl⟩ := exists_overlap hwhole
    (by simp only [List.length_append]; omega)
    (by simp only [List.length_append] at hstart ⊢; omega)
  have hclosed : ¬ ∀ x ∈ (u ++ (35 :: text ++ following)).head?, x = 10 := by
    intro hopen
    rcases u with - | ⟨x, u⟩
    · exact absurd (hopen 35 rfl) (by decide)
    · rw [hopen x rfl] at hnewline
      simp at hnewline
  rcases hgap with ⟨rfl, hwhite⟩ | hblank
  · rw [List.append_nil] at hsplit
    rw [isWhite_of_line hlexed hparted hsplit hfront hwhite (List.prefix_append _ _) hne hclosed] at hvisible
    cases hvisible
  · obtain ⟨g, x, rfl⟩ := (List.eq_nil_or_concat g).resolve_left hne
    have hlast := congrArg List.getLast? hsplit
    rw [List.getLast?_append_of_ne_nil _ hlexed.ne_nil, List.concat_eq_append, ← List.append_assoc,
      List.getLast?_concat] at hlast
    rcases hlexed.last_ends with hends | hopen
    · have hx := hends x hlast
      rw [hblank x (by simp)] at hx
      cases hx
    · exact hclosed hopen

/-- A token behind a comment begins behind what is cut with the comment. -/
theorem commentSpan_le_start (ht : t.Stands source) (hc : c.CutBy source (commentSpan source c))
    (h : c.stop ≤ t.start) : (commentSpan source c).stop ≤ t.start := by
  obtain ⟨before, behind, n, hsource, htstart, -, -, hlexed⟩ := ht
  obtain ⟨front, gap, text, after, following, hsource', -, -, hafter, -, hstart, hcstart, hstop, hspan⟩ := hc
  rw [hspan]
  rcases hafter with rfl | rfl
  · exact h
  -- No token begins with the end of a line.
  by_contra hlt
  obtain ⟨g, hbefore, hg⟩ := exists_of_append_eq
    (show before ++ (t.text ++ behind) = front ++ gap ++ (35 :: text) ++ ([10] ++ following) by
      simpa using hsource.symm.trans hsource')
    (by simp only [List.length_append]; omega)
  have hnil : g = [] := by
    have hlength := congrArg List.length hbefore
    simp only [List.length_append, List.length_cons, List.length_nil] at hlength hstop hlt
    apply List.eq_nil_of_length_eq_zero
    omega
  subst hnil
  obtain ⟨x, text', htext⟩ := List.exists_cons_of_ne_nil hlexed.ne_nil
  rw [htext] at hg
  have hx : x = 10 := (List.cons.inj hg).1.symm
  exact hlexed.head?_ne x (by rw [htext]; rfl) hx

end

/-- **Without comments a source loses nothing that can be seen.** What is cut with a comment is the comment,
white space in front of it and at most the end of its line, and all other bytes are left. Apart from white
space each byte lies in a token or a comment, and no comment in a token. Strings, numbers and whatever else
of the tokens can be seen lie outside of what is cut and stand in order in what is left. -/
theorem uncovered_comments (source : Bytes) :
    let comments := (tokenize source).2
    let spans := comments.map (commentSpan source)
    (∀ c ∈ comments, c.CutBy source (commentSpan source c)) ∧
    (∀ span ∈ spans, span.start ≤ span.stop ∧ span.stop ≤ source.length) ∧
    applyCuts source spans = uncovered spans source ∧
    (∀ i, ∀ x ∈ source[i]?, isSkipped x = true ∨ (∃ t ∈ tokensOf source, t.start ≤ i ∧ i < t.stop) ∨
      ∃ c ∈ comments, c.start ≤ i ∧ i < c.stop) ∧
    (∀ t ∈ tokensOf source, t.Stands source ∧ ∀ c ∈ comments, t.stop ≤ c.start ∨ c.stop ≤ t.start) ∧
    (∀ t ∈ tokensOf source, t.kind = .string ∨ t.kind = .number → isWhite t.text = false) ∧
    (∀ t ∈ tokensOf source, isWhite t.text = false →
      ∀ span ∈ spans, t.stop ≤ span.start ∨ span.stop ≤ t.start) ∧
    InOrder (((tokensOf source).filter fun t => !isWhite t.text).map Token.text)
      (applyCuts source spans) := by
  intro comments spans
  obtain ⟨htokens, hordered, hcomments, happart⟩ := reads_tokenize source
  have hcut : ∀ c ∈ comments, c.CutBy source (commentSpan source c) := fun c hc =>
    commentSpan_cutBy (hcomments c hc)
  have hspans : ∀ span ∈ spans, span.start ≤ span.stop ∧ span.stop ≤ source.length := by
    intro span hspan
    obtain ⟨c, hc, rfl⟩ := List.mem_map.1 hspan
    exact (hcut c hc).within
  have hleft : applyCuts source spans = uncovered spans source :=
    applyCuts_eq fun span hspan => (hspans span hspan).1
  have houtside : ∀ t ∈ tokensOf source, isWhite t.text = false →
      ∀ span ∈ spans, t.stop ≤ span.start ∨ span.stop ≤ t.start := by
    intro t ht hvisible span hspan
    obtain ⟨c, hc, rfl⟩ := List.mem_map.1 hspan
    rcases happart t ht c hc with hbefore | hbehind
    · exact .inl (stop_le_commentSpan (htokens t ht) (hcomments c hc) hvisible hbefore)
    · exact .inr (commentSpan_le_start (htokens t ht) (hcut c hc) hbehind)
  refine ⟨hcut, hspans, hleft, whole_tokenize source, fun t ht => ⟨htokens t ht, happart t ht⟩, ?_, houtside, ?_⟩
  · intro t ht hkind
    obtain ⟨_, _, _, -, -, -, -, hlexed⟩ := htokens t ht
    exact hlexed.isWhite_eq_false hkind
  · rw [hleft]
    have hvisible : ∀ t ∈ (tokensOf source).filter (fun t => !isWhite t.text),
        t ∈ tokensOf source ∧ isWhite t.text = false := by
      intro t ht
      simpa using List.mem_filter.1 ht
    apply inOrder_uncovered (fun t _ => Nat.zero_le _) (hordered.filter _)
    · exact fun t ht => (htokens t (hvisible t ht).1).slice_eq
    · exact fun t ht => houtside t (hvisible t ht).1 (hvisible t ht).2

end Bindery.Listing.Python
