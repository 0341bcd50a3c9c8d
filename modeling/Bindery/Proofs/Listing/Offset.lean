import Bindery.Proofs.Listing.Piece

/-!
# Offsets into a source

Leaving out comments also works on offsets, both into the source and into what was written. `stripAt?`
does this with slices that exist only between offsets in order and within their text; all of them do, and
it writes the same (`stripAt?_eq`).
-/

namespace Bindery.Listing

open Text

/-- The bytes of a text from one offset up to another, if they are in order and within the text. -/
def slice? (s : Bytes) (start stop : Nat) : Option Bytes :=
  if start ≤ stop ∧ stop ≤ s.length then some ((s.take stop).drop start) else none

/-- Ends the present line as often as a comment does. The line starts at an offset of what was written;
it is trimmed before it ends. -/
def breakLines? : Nat → Bytes → Nat → Option (Bytes × Nat)
  | 0, written, lineStart => some (written, lineStart)
  | count + 1, written, lineStart => do
    let before ← slice? written 0 lineStart
    let line ← slice? written lineStart written.length
    let written := before ++ trimEnd isBlank line ++ [10]
    breakLines? count written written.length

/-- What one piece, from offset `i` up to `stop`, does to what was written so far, whose last line starts
at `lineStart`. The third component is how much of the source behind the piece goes with it. -/
def stepAt? (source written : Bytes) (lineStart i stop : Nat) : Piece → Option (Bytes × Nat × Nat)
  | .newline => some (written ++ [10], written.length + 1, 0)
  | .lineComment _ => do
    let before ← slice? written 0 lineStart
    let line ← slice? written lineStart written.length
    if isWhite line then some (before, lineStart, 1)
    else some (before ++ trimEnd isBlank line, lineStart, 0)
  | .blockComment _ => do
    let before ← slice? written 0 lineStart
    let line ← slice? written lineStart written.length
    let after ← slice? source stop source.length
    let tail ← slice? after 0 (after.takeWhile (!isNewline ·)).length
    if isWhite line && isWhite tail then
      some (before, lineStart, if tail.length < after.length then tail.length + 1 else tail.length)
    else
      let text ← slice? source i stop
      let (written, lineStart) ← breakLines? (newlines text) written lineStart
      let last? := if lineStart < written.length then written.getLast? else none
      let apart :=
        match last?, after.head? with
        | some a, some b => !isSeparator a && !isSeparator b
        | _, _ => false
      some (if apart then written ++ [32] else written, lineStart, 0)
  | .literal _ => do
    let text ← slice? source i stop
    some (written ++ text, lineStart, 0)
  | .byte _ => do
    let text ← slice? source i stop
    some (written ++ text, lineStart, 0)

/-- Leaves out the comments of a source from offset `i` on. There is no result when an offset is out of
range. -/
def stripAt? (raw : Bool) (source written : Bytes) (lineStart i : Nat) : Option Bytes :=
  if h : i < source.length then do
    let rest ← slice? source (i + 1) source.length
    let (piece, n) := firstPiece raw source[i] rest
    let (written, lineStart, skip) ← stepAt? source written lineStart i (i + n + 1) piece
    stripAt? raw source written lineStart (i + n + 1 + skip)
  else some written
termination_by source.length - i
decreasing_by omega

section

variable {raw : Bool} {source rest : Bytes} {c : UInt8} {i : Nat}

theorem slice?_append (before line : Bytes) :
    slice? (before ++ line) 0 before.length = some before ∧
      slice? (before ++ line) before.length (before ++ line).length = some line := by
  constructor
  · rw [slice?, if_pos ⟨Nat.zero_le _, by simp⟩, List.take_left, List.drop_zero]
  · rw [slice?, if_pos ⟨by simp, Nat.le_refl _⟩, List.take_length, List.drop_left]

theorem slice?_to_end {s : Bytes} {start : Nat} (h : start ≤ s.length) :
    slice? s start s.length = some (s.drop start) := by
  rw [slice?, if_pos ⟨h, Nat.le_refl _⟩, List.take_length]

theorem slice?_takeWhile (p : UInt8 → Bool) (s : Bytes) :
    slice? s 0 (s.takeWhile p).length = some (s.takeWhile p) := by
  have h := (slice?_append (s.takeWhile p) (s.dropWhile p)).1
  rwa [List.takeWhile_append_dropWhile] at h

theorem breakLines?_eq {count : Nat} {out line out' line' : Bytes}
    (h : (if count = 0 then (out, line)
      else (out ++ trimEnd isBlank line ++ List.replicate count 10, [])) = (out', line')) :
    breakLines? count (out ++ line) out.length = some (out' ++ line', out'.length) := by
  induction count generalizing out line with
  | zero =>
    obtain ⟨rfl, rfl⟩ := Prod.mk.inj h
    rfl
  | succ count ih =>
    obtain ⟨rfl, rfl⟩ := Prod.mk.inj h
    have hnext := @ih (out ++ trimEnd isBlank line ++ [10]) [] (by
      have htrim : trimEnd isBlank [] = [] := rfl
      rcases count with - | count
      · rfl
      · rw [if_neg (Nat.succ_ne_zero count), htrim, List.append_nil, List.append_assoc,
          List.singleton_append, ← List.replicate_succ])
    rw [List.append_nil] at hnext
    rw [breakLines?, (slice?_append out line).1, (slice?_append out line).2]
    exact hnext

theorem getLast?_line (out line : Bytes) :
    (if out.length < (out ++ line).length then (out ++ line).getLast? else none) = line.getLast? := by
  rcases List.eq_nil_or_concat line with rfl | ⟨line, c, rfl⟩
  · simp
  · rw [if_pos (by simp), List.concat_eq_append, ← List.append_assoc, List.getLast?_concat,
      List.getLast?_concat]

theorem lt_of_drop_eq_cons (h : source.drop i = c :: rest) : i < source.length := by
  have hlength := congrArg List.length h
  rw [List.length_drop, List.length_cons] at hlength
  omega

theorem getElem_of_drop (h : source.drop i = c :: rest) (hi : i < source.length) : source[i] = c := by
  rw [List.drop_eq_getElem_cons hi] at h
  exact (List.cons.inj h).1

theorem drop_succ_of_drop (h : source.drop i = c :: rest) (n : Nat) :
    source.drop (i + n + 1) = rest.drop n := by
  rw [Nat.add_assoc, ← List.drop_drop, h, List.drop_succ_cons]

theorem firstPiece_le {piece : Piece} {n : Nat} (h : firstPiece raw c rest = (piece, n)) :
    n ≤ rest.length := by
  have hn : (firstPiece raw c rest).2 = n := by rw [h]
  rw [← hn, firstPiece_eq]
  split
  · exact Nat.zero_le _
  split
  · exact (List.takeWhile_prefix _).length_le
  split
  · cases hcut : cut? [42, 47] (rest.drop 1) with
    | none => exact Nat.le_refl _
    | some cut =>
      have hlength := congrArg List.length (cut?_eq_some hcut)
      simp only [List.length_drop, List.length_append, List.length_cons, List.length_nil] at hlength
      simp only
      omega
  split
  · exact stringTail_le c rest
  split
  · cases htail : charTail? 11 rest with
    | none => exact Nat.zero_le _
    | some m => exact charTail?_le htail
  · exact Nat.zero_le _

theorem piece_le (h : source.drop i = c :: rest) {piece : Piece} {n : Nat}
    (hfirst : firstPiece raw c rest = (piece, n)) : i + n + 1 ≤ source.length := by
  have hle := firstPiece_le hfirst
  have hi := lt_of_drop_eq_cons h
  have hsource := congrArg List.length h
  rw [List.length_drop, List.length_cons] at hsource
  omega

theorem slice?_piece (h : source.drop i = c :: rest) {piece : Piece} {n : Nat}
    (hfirst : firstPiece raw c rest = (piece, n)) : slice? source i (i + n + 1) = some piece.text := by
  have hpiece : c :: rest = piece.text ++ rest.drop n := by
    have hstarts := starts_firstPiece raw c rest
    rw [hfirst] at hstarts
    exact hstarts.eq_append
  have hlength := congrArg List.length hpiece
  have hle := firstPiece_le hfirst
  simp only [List.length_append, List.length_cons, List.length_drop] at hlength
  have htext : i + n + 1 - i = piece.text.length := by omega
  rw [slice?, if_pos ⟨by omega, piece_le h hfirst⟩, List.drop_take, h, hpiece, htext, List.take_left]

theorem stripAt?_of_drop (h : source.drop i = c :: rest) {piece : Piece} {n : Nat}
    (hfirst : firstPiece raw c rest = (piece, n)) (written : Bytes) (lineStart : Nat) :
    stripAt? raw source written lineStart i =
      (stepAt? source written lineStart i (i + n + 1) piece).bind fun next =>
        stripAt? raw source next.1 next.2.1 (i + n + 1 + next.2.2) := by
  have hi := lt_of_drop_eq_cons h
  have hrest : slice? source (i + 1) source.length = some rest := by
    rw [slice?_to_end hi, drop_succ_of_drop h 0, List.drop_zero]
  rw [stripAt?, dif_pos hi, hrest]
  simp only [Option.bind_eq_bind, Option.bind_some, getElem_of_drop h hi, hfirst]

end

/-- At the end of the source there is no newline to skip, and nothing is left in both cases. -/
theorem drop_skipNewline {source after : Bytes} {i : Nat} (h : source.drop i = after) (n : Nat) :
    source.drop (i + if n < after.length then n + 1 else n) = after.drop (n + 1) := by
  rw [← List.drop_drop, h]
  split
  · rfl
  · rw [List.drop_eq_nil_of_le (by omega), List.drop_eq_nil_of_le (by omega)]

/-- Leaving out comments by offsets writes the same, and every offset is in its range. -/
theorem stripAt?_eq (raw : Bool) (source : Bytes) :
    stripAt? raw source [] 0 0 = some (stripComments raw source) := by
  suffices h : ∀ (out line s : Bytes) (i : Nat), source.drop i = s →
      stripAt? raw source (out ++ line) out.length i = some (stripCommentsFrom raw out line s) from
    h [] [] source 0 rfl
  intro out line s
  fun_induction stripCommentsFrom raw out line s with
  | case1 out line =>
    intro i h
    have hi : ¬ i < source.length := Nat.not_lt.2 (List.drop_eq_nil_iff.1 h)
    rw [stripAt?, dif_neg hi]
  | case2 out line c rest n after hfirst ih =>
    intro i h
    rw [stripAt?_of_drop h hfirst]
    have hnext := ih (i + n + 1) (drop_succ_of_drop h n)
    rw [List.append_nil, List.length_append] at hnext
    exact hnext
  | case3 out line c rest n after text hwhite hfirst ih =>
    intro i h
    have hnext := ih (i + n + 1 + 1) (by rw [← List.drop_drop, drop_succ_of_drop h n])
    rw [List.append_nil] at hnext
    rw [stripAt?_of_drop h hfirst, stepAt?, (slice?_append out line).1, (slice?_append out line).2]
    simp only [Option.bind_eq_bind, Option.bind_some, if_pos hwhite]
    exact hnext
  | case4 out line c rest n after text hwhite hfirst ih =>
    intro i h
    rw [stripAt?_of_drop h hfirst, stepAt?, (slice?_append out line).1, (slice?_append out line).2]
    simp only [Option.bind_eq_bind, Option.bind_some, if_neg hwhite]
    exact ih (i + n + 1) (drop_succ_of_drop h n)
  | case5 out line c rest n after text tail hwhite hfirst ih =>
    intro i h
    have hafter : source.drop (i + n + 1) = after := drop_succ_of_drop h n
    have hstop : i + n + 1 ≤ source.length := piece_le h hfirst
    have hnext := ih _ (drop_skipNewline hafter tail.length)
    rw [List.append_nil] at hnext
    rw [stripAt?_of_drop h hfirst, stepAt?, (slice?_append out line).1, (slice?_append out line).2,
      slice?_to_end hstop, hafter]
    simp only [Option.bind_eq_bind, Option.bind_some, slice?_takeWhile]
    rw [if_pos hwhite]
    exact hnext
  | case6 out line c rest n after text tail hwhite count out' line' hbreak apart hfirst ih =>
    intro i h
    have hafter : source.drop (i + n + 1) = after := drop_succ_of_drop h n
    have hstop : i + n + 1 ≤ source.length := piece_le h hfirst
    have hbroken := breakLines?_eq hbreak
    rw [stripAt?_of_drop h hfirst, stepAt?, (slice?_append out line).1, (slice?_append out line).2,
      slice?_to_end hstop, hafter, slice?_piece h hfirst]
    simp only [Option.bind_eq_bind, Option.bind_some, slice?_takeWhile]
    rw [if_neg hwhite, Piece.text, hbroken]
    simp only [Option.bind_some, getLast?_line]
    have hspace : (if apart then out' ++ line' ++ [32] else out' ++ line') =
        out' ++ if apart then line' ++ [32] else line' := by
      split
      · exact List.append_assoc _ _ _
      · rfl
    refine (congrArg (stripAt? raw source · _ _) hspace).trans ?_
    exact ih _ hafter
  | case7 out line c rest n after text hfirst ih =>
    intro i h
    rw [stripAt?_of_drop h hfirst, stepAt?, slice?_piece h hfirst]
    simp only [Option.bind_eq_bind, Option.bind_some, List.append_assoc]
    exact ih (i + n + 1) (drop_succ_of_drop h n)
  | case8 out line c rest n after d hfirst ih =>
    intro i h
    rw [stripAt?_of_drop h hfirst, stepAt?, slice?_piece h hfirst]
    simp only [Option.bind_eq_bind, Option.bind_some, List.append_assoc]
    exact ih (i + n + 1) (drop_succ_of_drop h n)

end Bindery.Listing
