import Bindery.Proofs.Listing.Offset
import Bindery.Proofs.Listing.Spacing

/-!
# Leaving out comments

What is left of a source without its comments is the rest of it with other white space: `written` carries
over all pieces that the text written is `Respaced`, or that the line that was written loses its end.
-/

namespace Bindery.Listing

open Text

section

variable {raw : Bool} {c : UInt8} {s rest text : Bytes} {p : Piece} {n : Nat}

/-! ## How a source starts -/

theorem starts_of_firstPiece (h : firstPiece raw c rest = (p, n)) :
    Starts raw (c :: rest) p (rest.drop n) := by
  have hstarts := starts_firstPiece raw c rest
  rwa [h] at hstarts

theorem pieces_of_starts (h : Starts raw s p rest) : pieces raw s = p :: pieces raw rest :=
  (splits_iff.1 (.cons h (splits_iff.2 rfl))).symm

theorem joined_pieces (raw : Bool) (s : Bytes) : joined (pieces raw s) = s :=
  (Splits.eq_joined (splits_iff.2 rfl)).symm

theorem Starts.text_ne_nil (h : Starts raw s p rest) : p.text ≠ [] := by
  cases h <;> simp [Piece.text]

theorem Starts.lineComment_inv (h : Starts raw s (.lineComment text) rest) :
    (∃ t, text = 47 :: t) ∧ ∀ c ∈ rest.head?, c = 10 := by
  cases h with
  | lineComment _ hrest => exact ⟨⟨_, rfl⟩, hrest⟩

/-- A block comment ends in ASCII, so a character begins behind it. -/
theorem Starts.blockComment_inv (h : Starts raw s (.blockComment text) rest) (hs : Whole s) :
    (∃ t, text = 47 :: t) ∧ Fresh rest := by
  cases h with
  | @blockComment inside _ =>
    exact ⟨⟨_, rfl⟩, hs (47 :: 42 :: (inside ++ [42])) 47 rest (by simp) (by decide)⟩
  | openComment => exact ⟨⟨_, rfl⟩, fresh_nil⟩

/-- The quotes of literals. -/
def IsQuote (q : UInt8) : Prop := q = 34 ∨ q = 39 ∨ q = 96

theorem stringTail_end (quote : UInt8) (s : Bytes) :
    (∃ init, s.take (stringTail quote s) = init ++ [quote]) ∨
      ∀ c ∈ (s.drop (stringTail quote s)).head?, c = 10 := by
  fun_induction stringTail quote s with
  | case1 => simp
  | case2 => simp
  | case3 c _ d rest ih =>
    rcases ih with ⟨init, hinit⟩ | hrest
    · left
      refine ⟨c :: d :: init, ?_⟩
      rw [List.take_succ_cons, List.take_succ_cons, hinit]
      rfl
    · exact .inr hrest
  | case4 rest => exact .inl ⟨[], rfl⟩
  | case5 c rest _ _ hc =>
    right
    rintro d hd
    rw [List.drop_zero, List.head?_cons, Option.mem_some_iff] at hd
    rw [← hd]
    exact hc.1
  | case6 c rest _ _ _ ih =>
    rcases ih with ⟨init, hinit⟩ | hrest
    · left
      refine ⟨c :: init, ?_⟩
      rw [List.take_succ_cons, hinit]
      rfl
    · exact .inr hrest

/-- A literal ends with a quote, or its line or the source does. -/
theorem Starts.literal_inv (h : Starts raw s (.literal text) rest) :
    (∃ init q, text = init ++ [q] ∧ IsQuote q) ∨ ∀ c ∈ rest.head?, c = 10 := by
  cases h with
  | @string quote text _ hquote h =>
    have hend := stringTail_end quote (text ++ rest)
    rw [h, List.take_left, List.drop_left] at hend
    rcases hend with ⟨init, rfl⟩ | hrest
    · refine .inl ⟨quote :: init, quote, rfl, ?_⟩
      rcases hquote with rfl | ⟨rfl, -⟩
      · exact .inl rfl
      · exact .inr (.inr rfl)
    · exact .inr hrest
  | @character text _ h =>
    left
    cases htail : charTail? 11 (text ++ rest) with
    | none =>
      rw [htail] at h
      obtain rfl := List.eq_nil_of_length_eq_zero h.symm
      exact ⟨[], 39, rfl, .inr (.inl rfl)⟩
    | some n =>
      rw [htail] at h
      obtain ⟨inside, after, hsplit, rfl, -⟩ := exists_of_charTail? htail
      rw [List.append_cons] at hsplit
      have hlength : (inside ++ [39]).length = text.length := by simpa using h
      have htext := (List.append_inj hsplit hlength.symm).1
      exact ⟨39 :: inside, 39, by rw [htext]; rfl, .inr (.inl rfl)⟩

theorem pieces_white {w : Bytes} (hwhite : White w) (hline : 10 ∉ w) (s : Bytes) :
    pieces raw (w ++ s) = w.map .byte ++ pieces raw s := by
  have hplain : ∀ c ∈ w, c ≠ 10 ∧ c ≠ 34 ∧ c ≠ 39 ∧ c ≠ 96 ∧ c ≠ 47 := by
    intro c hc
    refine ⟨?_, ?_, ?_, ?_, ?_⟩
    · rintro rfl
      exact hline hc
    all_goals
      rintro rfl
      exact hwhite.notMem (by decide) (by decide) hc
  clear hwhite hline
  induction w with
  | nil => rfl
  | cons c w ih =>
    obtain ⟨⟨hnewline, hdouble, hsingle, hraw, hslash⟩, hw⟩ := List.forall_mem_cons.1 hplain
    have hstarts : Starts raw (c :: (w ++ s)) (.byte c) (w ++ s) :=
      .byte hnewline hdouble hsingle (fun h => hraw h.1) (fun h => absurd h hslash)
    rw [List.cons_append, pieces_of_starts hstarts, ih hw, List.map_cons, List.cons_append]

/-- What is kept of a source begins with a character where the source does. -/
theorem fresh_kept_pieces (hfresh : Fresh s) (hs : Whole s) : Fresh (kept (pieces raw s)) := by
  have hsplits : Splits raw s (pieces raw s) := splits_iff.2 rfl
  generalize pieces raw s = ps at hsplits
  induction hsplits with
  | nil => exact fresh_nil
  | @cons s rest p ps h _ ih =>
    have heq := h.eq_append
    cases hp : p.isComment with
    | false =>
      rw [kept_cons hp]
      rw [heq] at hfresh
      exact hfresh.of_append.append h.text_ne_nil
    | true =>
      rw [kept_cons_comment hp]
      have hrest : Fresh rest := by
        cases p with
        | lineComment =>
          rintro c q rfl
          rw [h.lineComment_inv.2 c rfl]
          decide
        | blockComment => exact (h.blockComment_inv hs).2
        | newline => cases hp
        | byte => cases hp
        | literal => cases hp
      rw [heq] at hs
      exact ih hrest hs.of_append

end

/-! ## What was written -/

/-- What comes to stand behind the finished lines `out` when the present line is `line` and the source
goes on with `s`: either the line and then the rest, or the line without white space at its end. -/
inductive Written (raw : Bool) (out line s : Bytes) : Bytes → Prop
  | keeps {t : Bytes} (h : Respaced (edgeOf line) (pieces raw s) t) :
      Written raw out line s (out ++ (line ++ t))
  | trims {line' w t : Bytes} {qs ps : List Piece} (hline : line = line' ++ w) (hne : w ≠ [])
      (hpieces : pieces raw s = qs ++ ps) (hplain : ∀ q ∈ qs, q.isPlain = true)
      (hwhite : White (w ++ joined qs)) (hfresh : Fresh (kept ps)) (hgoes : ¬ ∀ c ∈ s.head?, c = 10)
      (h : ∀ e, (line' = [] → e = .free) → Respaced e ps t) :
      Written raw out line s (out ++ (line' ++ t))

section

variable {raw : Bool} {out line s rest result text : Bytes} {c : UInt8}

theorem Written.exists_of_nil (h : Written raw out [] s result) :
    ∃ t, result = out ++ t ∧ Respaced .free (pieces raw s) t := by
  cases h with
  | keeps h => exact ⟨_, rfl, h⟩
  | trims hline hne => exact absurd (List.append_eq_nil_iff.1 hline.symm).2 hne

/-- The line loses white space at its end before a comment. -/
theorem Written.of_trim {line' w t : Bytes} (hline : line = line' ++ w) (hwhite : White w)
    (hgoes : ¬ ∀ c ∈ s.head?, c = 10) (hfresh : Fresh (kept (pieces raw s)))
    (h : ∀ e, (line' = [] → e = .free) → Respaced e (pieces raw s) t) :
    Written raw out line s (out ++ (line' ++ t)) := by
  by_cases hw : w = []
  · rw [hw, List.append_nil] at hline
    subst hline
    apply Written.keeps
    apply h
    rintro rfl
    rfl
  · apply Written.trims hline hw (List.nil_append _).symm (by simp) _ hfresh hgoes h
    simpa using hwhite

theorem eq_concat_of_append {line' w : Bytes} (h : line ++ [c] = line' ++ w) (hne : w ≠ []) :
    ∃ w', w = w' ++ [c] ∧ line = line' ++ w' := by
  obtain ⟨w', d, rfl⟩ := (List.eq_nil_or_concat w).resolve_left hne
  rw [List.concat_eq_append, ← List.append_assoc] at h
  obtain ⟨hline, hc⟩ := List.append_inj' h rfl
  exact ⟨w', by rw [List.concat_eq_append, hc], hline⟩

theorem Written.newline (h : Written raw (out ++ line ++ [10]) [] rest result) :
    Written raw out line (10 :: rest) result := by
  obtain ⟨t, rfl, ht⟩ := h.exists_of_nil
  rw [List.append_assoc, List.append_assoc]
  apply Written.keeps
  rw [pieces_of_starts (.newline rest)]
  refine Respaced.keep (p := .newline) rfl (by simp [Piece.text]) ?_ ht
  rintro - d hd
  rw [← Option.mem_some_iff.1 hd]
  rfl

theorem Written.byte (hc : c ≠ 10) (hstarts : Starts raw (c :: rest) (.byte c) rest)
    (h : Written raw out (line ++ [c]) rest result) : Written raw out line (c :: rest) result := by
  have hpieces := pieces_of_starts hstarts
  cases h with
  | @keeps t h =>
    rw [edgeOf_append (by simp)] at h
    rw [List.append_assoc]
    apply Written.keeps
    rw [hpieces]
    exact .keep rfl (by simp [Piece.text]) (fun he => absurd he (edgeOf_ne_owing line)) h
  | @trims line' w t qs ps hline hne hrest hplain hwhite hfresh hgoes h =>
    obtain ⟨w, rfl, rfl⟩ := eq_concat_of_append hline hne
    have hplain' : ∀ q ∈ .byte c :: qs, q.isPlain = true := List.forall_mem_cons.2 ⟨rfl, hplain⟩
    rw [hrest] at hpieces
    rw [List.append_assoc] at hwhite
    by_cases hw : w = []
    · subst hw
      rw [List.append_nil]
      apply Written.keeps
      rw [hpieces]
      exact .drop _ hplain' (by simp) hwhite hfresh (h .free fun _ => rfl)
    · exact .trims rfl hw hpieces hplain' hwhite hfresh (by simpa using hc) h

theorem Written.literal (hstarts : Starts raw s (.literal text) rest)
    (h : Written raw out (line ++ text) rest result) : Written raw out line s result := by
  have hne : text ≠ [] := hstarts.text_ne_nil
  cases h with
  | @keeps t h =>
    rw [edgeOf_append hne] at h
    rw [List.append_assoc]
    apply Written.keeps
    rw [pieces_of_starts hstarts]
    exact .keep (p := .literal text) rfl hne (fun he => absurd he (edgeOf_ne_owing line)) h
  | @trims line' w t qs ps hline hw hrest hplain hwhite hfresh hgoes h =>
    -- A quote is no white space, and behind an open literal the line ends.
    rcases hstarts.literal_inv with ⟨init, q, rfl, hq⟩ | hend
    · rw [← List.append_assoc] at hline
      obtain ⟨w, rfl, -⟩ := eq_concat_of_append hline hw
      have hmem : q ∈ w ++ [q] ++ joined qs := by simp
      refine absurd hmem (hwhite.notMem ?_ ?_)
      · rcases hq with rfl | rfl | rfl <;> decide
      · rcases hq with rfl | rfl | rfl <;> decide
    · exact absurd hend hgoes

theorem Written.lineComment {line' w : Bytes} (hstarts : Starts raw s (.lineComment text) rest)
    (hs : Whole s) (hline : line = line' ++ w) (hwhite : White w)
    (h : Written raw out line' rest result) : Written raw out line s result := by
  obtain ⟨⟨text, rfl⟩, hend⟩ := hstarts.lineComment_inv
  have hfresh : Fresh s := by
    rw [hstarts.eq_append]
    exact fresh_cons (by decide) _
  have hgoes : ¬ ∀ c ∈ s.head?, c = 10 := by
    rw [hstarts.eq_append]
    exact fun h => absurd (h 47 rfl) (by decide)
  cases h with
  | @keeps t h =>
    apply Written.of_trim hline hwhite hgoes (fresh_kept_pieces hfresh hs)
    rintro e -
    rw [pieces_of_starts hstarts]
    exact .line e h
  | trims _ _ _ _ _ _ hgoes => exact absurd hend hgoes

/-- White space up to the end of a line is left out together with that end. -/
theorem respaced_drop_line {tail t : Bytes} (hs : Whole (tail ++ rest)) (htail : White tail)
    (hnewline : 10 ∉ tail) (hend : ∀ c ∈ rest.head?, c = 10)
    (ht : Respaced .free (pieces raw (rest.drop 1)) t) : Respaced .free (pieces raw (tail ++ rest)) t := by
  have hplain : ∀ q ∈ tail.map Piece.byte, q.isPlain = true := by simp [Piece.isPlain]
  have hjoined : White (joined (tail.map .byte)) := by rwa [joined_map_byte]
  rw [pieces_white htail hnewline]
  rcases rest with - | ⟨d, rest⟩
  · have hnil : pieces raw [] = [] := by rw [pieces]
    rw [hnil]
    rw [List.drop_nil, hnil] at ht
    exact ht.drop_free hplain hjoined fresh_nil
  · obtain rfl := hend d rfl
    have hwhole : Whole (10 :: rest) := hs.of_append
    have hafter : Fresh rest := hwhole [] 10 rest rfl (by decide)
    have hkept := @fresh_kept_pieces raw rest hafter (hwhole.of_append (p := [10]))
    rw [List.drop_one, List.tail_cons] at ht
    rw [pieces_of_starts (.newline rest), List.append_cons]
    apply ht.drop_free _ _ hkept
    · intro q hq
      rcases List.mem_append.1 hq with hq | hq
      · exact hplain q hq
      · rw [List.mem_singleton.1 hq]
        rfl
    · rw [joined_append]
      exact hjoined.append (IsSpace.white (.inl ⟨10, rfl, by decide⟩))

theorem Written.alone {p : Piece} {tail : Bytes} (hstarts : Starts raw s p (tail ++ rest))
    (hp : p.isComment = true) (hs : Whole s) (hline : White line) (htail : White tail)
    (hnewline : 10 ∉ tail) (hend : ∀ c ∈ rest.head?, c = 10)
    (h : Written raw out [] (rest.drop 1) result) : Written raw out line s result := by
  obtain ⟨t, rfl, ht⟩ := h.exists_of_nil
  have heq := hstarts.eq_append
  have hwhole : Whole (tail ++ rest) := by
    rw [heq] at hs
    exact hs.of_append
  have hrest := respaced_drop_line hwhole htail hnewline hend ht
  obtain ⟨text, htext, hcomment⟩ : ∃ text, p.text = 47 :: text ∧
      Respaced .free (p :: pieces raw (tail ++ rest)) t := by
    cases p with
    | lineComment =>
      obtain ⟨⟨text, rfl⟩, -⟩ := hstarts.lineComment_inv
      exact ⟨text, rfl, .line _ hrest⟩
    | blockComment =>
      obtain ⟨⟨text, rfl⟩, -⟩ := hstarts.blockComment_inv hs
      exact ⟨text, rfl, .block hrest⟩
    | newline => cases hp
    | byte => cases hp
    | literal => cases hp
  rw [htext] at heq
  apply @Written.of_trim raw out line s [] line t rfl hline
  · rw [heq]
    exact fun h => absurd (h 47 rfl) (by decide)
  · apply fresh_kept_pieces _ hs
    rw [heq]
    exact fresh_cons (by decide) _
  · intro e he
    rw [he rfl, pieces_of_starts hstarts]
    exact hcomment

theorem fresh_joined {qs ps : List Piece} (h : Fresh rest) (hrest : pieces raw rest = qs ++ ps) :
    Fresh (joined qs) := by
  rw [← joined_pieces raw rest, hrest, joined_append] at h
  exact h.of_append

/-- White space is left out at the end of the line and behind a block comment. -/
theorem Written.trims_block {line' w t : Bytes} {qs ps : List Piece}
    (hstarts : Starts raw s (.blockComment text) rest) (hs : Whole s) (hline : line = line' ++ w)
    (hrest : pieces raw rest = qs ++ ps) (hplain : ∀ q ∈ qs, q.isPlain = true)
    (hw : White w) (hqs : White (joined qs)) (hfresh : Fresh (kept ps))
    (h : ∀ e, (line' = [] → e = .free) → Respaced e ps t) :
    Written raw out line s (out ++ (line' ++ t)) := by
  obtain ⟨⟨text, rfl⟩, -⟩ := hstarts.blockComment_inv hs
  have heq := hstarts.eq_append
  apply Written.of_trim hline hw
  · rw [heq]
    exact fun h => absurd (h 47 rfl) (by decide)
  · apply fresh_kept_pieces _ hs
    rw [heq]
    exact fresh_cons (by decide) _
  · intro e he
    rw [pieces_of_starts hstarts, hrest]
    apply Respaced.block
    by_cases hne : qs = []
    · rw [hne]
      apply h
      intro hnil
      rw [he hnil]
      rfl
    · exact .drop _ hplain hne hqs hfresh (h .free fun _ => rfl)

/-- Behind a block comment the line goes on as it is if a separator stands there already. -/
theorem Written.blockComment (hstarts : Starts raw s (.blockComment text) rest) (hs : Whole s)
    (hapart : edgeOf line = .inked → ∀ c ∈ rest.head?, isSeparator c = true)
    (h : Written raw out line rest result) : Written raw out line s result := by
  cases h with
  | @keeps t h =>
    obtain ⟨⟨text, rfl⟩, -⟩ := hstarts.blockComment_inv hs
    apply Written.keeps
    rw [pieces_of_starts hstarts]
    apply Respaced.block
    cases hedge : edgeOf line with
    | free => rwa [hedge] at h
    | inked =>
      rw [hedge] at h
      apply h.owing
      rw [joined_pieces]
      exact hapart hedge
    | owing => exact absurd hedge (edgeOf_ne_owing line)
  | trims hline _ hrest hplain hwhite hfresh _ h =>
    obtain ⟨hw, hqs⟩ := hwhite.of_append (fresh_joined (hstarts.blockComment_inv hs).2 hrest)
    exact .trims_block hstarts hs hline hrest hplain hw hqs hfresh h

/-- Behind a block comment the line goes on after a blank where words would meet. -/
theorem Written.blockComment_apart (hstarts : Starts raw s (.blockComment text) rest) (hs : Whole s)
    (h : Written raw out (line ++ [32]) rest result) : Written raw out line s result := by
  have hafter := (hstarts.blockComment_inv hs).2
  have hblank : White [32] := IsSpace.white (.inl ⟨32, rfl, by decide⟩)
  cases h with
  | @keeps t h =>
    obtain ⟨⟨text, rfl⟩, -⟩ := hstarts.blockComment_inv hs
    rw [edgeOf_append (by simp)] at h
    rw [List.append_assoc]
    apply Written.keeps
    rw [pieces_of_starts hstarts]
    have hwhole : Whole rest := by
      rw [hstarts.eq_append] at hs
      exact hs.of_append
    exact .block (.space _ hblank (by simp) (fresh_kept_pieces hafter hwhole) h)
  | @trims line' w t qs ps hline hne hrest hplain hwhite hfresh _ h =>
    obtain ⟨hwhite, hqs⟩ := hwhite.of_append (fresh_joined hafter hrest)
    obtain ⟨w, rfl, heq⟩ := eq_concat_of_append hline hne
    have hw := (hwhite.of_append (fresh_cons (by decide) [])).1
    exact .trims_block hstarts hs heq hrest hplain hw hqs hfresh h

/-- A block comment that ends lines ends the present line. -/
theorem Written.blockComment_lines {count : Nat} (hstarts : Starts raw s (.blockComment text) rest)
    (hs : Whole s) (hcount : count ≠ 0)
    (h : Written raw (out ++ trimEnd isBlank line ++ List.replicate count 10) [] rest result) :
    Written raw out line s result := by
  obtain ⟨t, rfl, ht⟩ := h.exists_of_nil
  obtain ⟨⟨text, rfl⟩, hafter⟩ := hstarts.blockComment_inv hs
  obtain ⟨w, hline, hw, -⟩ := exists_trimEnd isBlank line
  have hnewlines : White (List.replicate count 10) := by
    apply white_of_newlines
    intro c hc
    rw [List.eq_of_mem_replicate hc]
    rfl
  have heq := hstarts.eq_append
  have hwhole : Whole rest := by
    rw [heq] at hs
    exact hs.of_append
  rw [List.append_assoc, List.append_assoc]
  apply Written.of_trim hline (white_of_isBlank hw)
  · rw [heq]
    exact fun h => absurd (h 47 rfl) (by decide)
  · apply fresh_kept_pieces _ hs
    rw [heq]
    exact fresh_cons (by decide) _
  · rintro e -
    rw [pieces_of_starts hstarts]
    exact .block (.space _ hnewlines (by simpa using hcount) (fresh_kept_pieces hafter hwhole) ht)

end

/-- Leaving out comments writes the pieces that are kept, with other white space. -/
theorem written_stripCommentsFrom (raw : Bool) (out line s : Bytes) (hs : Whole s) :
    Written raw out line s (stripCommentsFrom raw out line s) := by
  have hwhole : ∀ {c rest p n}, Whole (c :: rest) → firstPiece raw c rest = (p, n) →
      Whole (rest.drop n) := by
    intro c rest p n hs hfirst
    rw [(starts_of_firstPiece hfirst).eq_append] at hs
    exact hs.of_append
  fun_induction stripCommentsFrom raw out line s with
  | case1 out line =>
    have h : Written raw out line [] (out ++ (line ++ [])) := by
      apply Written.keeps
      rw [pieces]
      exact .nil _
    rwa [List.append_nil] at h
  | case2 out line c rest n after hfirst ih =>
    have hstarts := starts_of_firstPiece hfirst
    obtain ⟨rfl, hafter⟩ : c = 10 ∧ rest = after := List.cons.inj hstarts.eq_append
    rw [← hafter] at ih ⊢
    exact .newline (ih (hs.of_append (p := [10])))
  | case3 out line c rest n after text hwhite hfirst ih =>
    have hstarts := starts_of_firstPiece hfirst
    rw [← List.nil_append (rest.drop n)] at hstarts
    exact .alone hstarts rfl hs (isWhite_iff.1 hwhite) .nil (by simp)
      hstarts.lineComment_inv.2 (ih ((hwhole hs hfirst).drop 1))
  | case4 out line c rest n after text hwhite hfirst ih =>
    have hstarts := starts_of_firstPiece hfirst
    obtain ⟨w, hline, hw, -⟩ := exists_trimEnd isBlank line
    exact .lineComment hstarts hs hline (white_of_isBlank hw) (ih (hwhole hs hfirst))
  | case5 out line c rest n after text tail hwhite hfirst ih =>
    have hstarts := starts_of_firstPiece hfirst
    obtain ⟨hline, htail⟩ := Bool.and_eq_true_iff.1 hwhite
    have hafter : after = tail ++ after.dropWhile (!isNewline ·) := List.takeWhile_append_dropWhile.symm
    have hnext : after.drop (tail.length + 1) = (after.dropWhile (!isNewline ·)).drop 1 := by
      rw [← List.drop_drop, drop_length_takeWhile]
    have hih := ih ((hwhole hs hfirst).drop _)
    rw [hnext] at hih ⊢
    change Starts raw (c :: rest) _ after at hstarts
    rw [hafter] at hstarts
    exact .alone hstarts rfl hs (isWhite_iff.1 hline) (isWhite_iff.1 htail) notMem_takeWhile_newline
      head?_dropWhile_newline hih
  | case6 out line c rest n after text tail hwhite count out' line' hbreak apart hfirst ih =>
    have hstarts := starts_of_firstPiece hfirst
    have hih := ih (hwhole hs hfirst)
    rw [dite_eq_ite] at hbreak hih
    by_cases hcount : count = 0
    · rw [if_pos hcount] at hbreak
      obtain ⟨rfl, rfl⟩ := Prod.mk.inj hbreak
      by_cases hapart : apart = true
      · rw [if_pos hapart] at hih ⊢
        exact .blockComment_apart hstarts hs hih
      · rw [if_neg hapart] at hih ⊢
        refine .blockComment hstarts hs ?_ hih
        intro hinked d hd
        obtain ⟨a, hlast, ha⟩ := getLast?_of_edgeOf hinked
        have hhead : after.head? = some d := hd
        simp only [apart, hlast, hhead, ha] at hapart
        simpa using hapart
    · rw [if_neg hcount] at hbreak
      obtain ⟨rfl, rfl⟩ := Prod.mk.inj hbreak
      have hapart : ¬ apart = true := by simp [apart]
      rw [if_neg hapart] at hih ⊢
      exact .blockComment_lines hstarts hs hcount hih
  | case7 out line c rest n after text hfirst ih =>
    exact .literal (starts_of_firstPiece hfirst) (ih (hwhole hs hfirst))
  | case8 out line c rest n after d hfirst ih =>
    have hstarts := starts_of_firstPiece hfirst
    obtain ⟨rfl, hafter⟩ : c = d ∧ rest = after := List.cons.inj hstarts.eq_append
    change Starts raw (c :: rest) _ after at hstarts
    rw [← hafter] at ih hstarts ⊢
    have hc : c ≠ 10 := by
      cases hstarts
      assumption
    exact .byte hc hstarts (ih (hs.of_append (p := [c])))

/-- **Leaving out comments changes nothing else but white space.** A well-formed source is cut into pieces
in one way. No slice is out of range when its comments are left out; what is written is the other pieces up
to white space, with the literals byte for byte and in order, and it keeps apart what only block comments
separated. -/
theorem stripComments_respaces (raw : Bool) {source : Bytes} (h : isUtf8 source = true) :
    (∀ ps, Splits raw source ps ↔ ps = pieces raw source) ∧
    joined (pieces raw source) = source ∧
    stripAt? raw source [] 0 0 = some (stripComments raw source) ∧
    unspaced (stripComments raw source) = unspaced (kept (pieces raw source)) ∧
    InOrder (literals (pieces raw source)) (stripComments raw source) ∧
    KeepsApart (pieces raw source) (stripComments raw source) := by
  obtain ⟨t, ht, hrespaced⟩ :=
    (written_stripCommentsFrom raw [] [] source (whole_of_isUtf8 h).2).exists_of_nil
  obtain rfl : stripComments raw source = t := ht
  exact ⟨fun ps => splits_iff, joined_pieces raw source, stripAt?_eq raw source,
    hrespaced.unspaced_eq, hrespaced.inOrder, hrespaced.keepsApart⟩

/-- A source with comments alone on their lines, between words, over lines, at the end and in literals. -/
def commentedSource : Bytes :=
  "int/* a */x; // b\n\t/* c */ \ns = \"/* d */\"/* e\n */+ '\"'; // f"

theorem stripComments_respaces_commented :
    isUtf8 commentedSource = true ∧
    stripComments false commentedSource = "int x;\ns = \"/* d */\"\n+ '\"';" ∧
    literals (pieces false commentedSource) = ["\"/* d */\"", "'\"'"] ∧
    stripAt? false commentedSource [] 0 0 = some "int x;\ns = \"/* d */\"\n+ '\"';" ∧
    InOrder ["\"/* d */\"", "'\"'"] "int x;\ns = \"/* d */\"\n+ '\"';" := by
  have hutf8 : isUtf8 commentedSource = true := by decide +kernel
  have hstrip : stripComments false commentedSource = "int x;\ns = \"/* d */\"\n+ '\"';" := by
    decide +kernel
  have hliterals : literals (pieces false commentedSource) = ["\"/* d */\"", "'\"'"] := by decide +kernel
  obtain ⟨-, -, hslices, -, hinOrder, -⟩ := stripComments_respaces false hutf8
  rw [hstrip] at hslices hinOrder
  rw [hliterals] at hinOrder
  exact ⟨hutf8, hstrip, hliterals, hslices, hinOrder⟩

end Bindery.Listing
