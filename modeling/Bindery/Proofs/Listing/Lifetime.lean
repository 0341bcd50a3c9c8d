import Bindery.Proofs.Listing.Comment

/-!
# Single quotes that open no literal

A single quote that is not closed close by, such as that of a lifetime, stands for itself, and a comment
behind it on its line is left out. What is close is counted in bytes, over the comment too: a quote in
the comment hides the comment if the count gets there.
-/

namespace Bindery.Listing

open Text

section

variable {raw : Bool} {out line s rest text : Bytes} {c : UInt8}

/-! ## Steps -/

theorem stripCommentsFrom_byte (h : Starts raw (c :: rest) (.byte c) rest) :
    stripCommentsFrom raw out line (c :: rest) = stripCommentsFrom raw out (line ++ [c]) rest := by
  obtain ⟨n, hfirst, hrest⟩ := firstPiece_of_starts h
  rw [stripCommentsFrom, hfirst]
  simp only [hrest]

theorem stripCommentsFrom_literal (h : Starts raw (c :: s) (.literal text) rest) :
    stripCommentsFrom raw out line (c :: s) = stripCommentsFrom raw out (line ++ text) rest := by
  obtain ⟨n, hfirst, hrest⟩ := firstPiece_of_starts h
  rw [stripCommentsFrom, hfirst]
  simp only [hrest]

theorem stripCommentsFrom_lineComment (h : Starts raw (c :: s) (.lineComment text) rest)
    (hline : isWhite line = false) :
    stripCommentsFrom raw out line (c :: s) = stripCommentsFrom raw out (trimEnd isBlank line) rest := by
  obtain ⟨n, hfirst, hrest⟩ := firstPiece_of_starts h
  rw [stripCommentsFrom, hfirst]
  simp only [hrest, hline]
  rfl

/-! ## What is written stays -/

theorem prefix_stripCommentsFrom (raw : Bool) (out line s : Bytes) :
    out <+: stripCommentsFrom raw out line s := by
  fun_induction stripCommentsFrom raw out line s with
  | case1 => exact List.prefix_append _ _
  | case2 out line _ _ _ _ _ ih =>
    apply List.IsPrefix.trans _ ih
    rw [List.append_assoc]
    exact List.prefix_append _ _
  | case3 => assumption
  | case4 => assumption
  | case5 => assumption
  | case6 out line _ _ _ _ _ _ _ count _ _ hbreak _ _ ih =>
    apply List.IsPrefix.trans _ ih
    rw [dite_eq_ite] at hbreak
    split at hbreak
    · obtain ⟨rfl, -⟩ := Prod.mk.inj hbreak
      exact List.prefix_rfl
    · obtain ⟨rfl, -⟩ := Prod.mk.inj hbreak
      rw [List.append_assoc]
      exact List.prefix_append _ _
  | case7 => assumption
  | case8 => assumption

theorem isWhite_of_mem_quote (h : 39 ∈ line) : isWhite line = false := by
  rw [← Bool.not_eq_true, isWhite_iff]
  exact fun hwhite => hwhite.notMem (by decide) (by decide) h

theorem prefix_trimEnd_of_quote {closed : Bytes} (h : closed ++ [39] <+: line) :
    closed ++ [39] <+: trimEnd isBlank line := by
  obtain ⟨w, hline, hw, -⟩ := exists_trimEnd isBlank line
  obtain ⟨more, hmore⟩ := h
  rw [hline] at hmore
  rcases List.append_eq_append_iff.1 hmore with ⟨u, htrim, -⟩ | ⟨u, hclosed, hu⟩
  · exact ⟨u, htrim.symm⟩
  · rcases List.eq_nil_or_concat u with rfl | ⟨u, d, rfl⟩
    · simp only [hclosed, List.append_nil, List.prefix_refl]
    · rw [List.concat_eq_append, ← List.append_assoc] at hclosed
      obtain ⟨-, hd⟩ := List.append_inj' hclosed rfl
      have hquote : (39 : UInt8) ∈ w := by
        rw [hu, List.concat_eq_append, ← hd]
        simp
      exact absurd (hw 39 hquote) (by decide)

/-- What stands on the present line up to a quote stays. -/
theorem quoted_prefix_stripCommentsFrom (raw : Bool) (out line s : Bytes) {closed : Bytes}
    (h : closed ++ [39] <+: line) : out ++ (closed ++ [39]) <+: stripCommentsFrom raw out line s := by
  have hmem : ∀ {line : Bytes}, closed ++ [39] <+: line → isWhite line = false := fun h =>
    isWhite_of_mem_quote (h.subset (by simp))
  fun_induction stripCommentsFrom raw out line s with
  | case1 out line => exact (List.prefix_append_right_inj out).2 h
  | case2 out line _ _ _ _ _ _ =>
    apply List.IsPrefix.trans _ (prefix_stripCommentsFrom raw _ _ _)
    rw [List.append_assoc]
    exact (List.prefix_append_right_inj out).2 (h.trans (List.prefix_append _ _))
  | case3 _ line _ _ _ _ _ hwhite =>
    rw [hmem h] at hwhite
    cases hwhite
  | case4 _ _ _ _ _ _ _ _ _ ih => exact ih (prefix_trimEnd_of_quote h)
  | case5 _ line _ _ _ _ _ _ hwhite =>
    rw [hmem h] at hwhite
    cases hwhite
  | case6 out line _ _ _ _ _ _ _ count out' line' hbreak apart _ ih =>
    rw [dite_eq_ite] at hbreak ih
    split at hbreak
    · obtain ⟨rfl, rfl⟩ := Prod.mk.inj hbreak
      apply ih
      split
      · exact h.trans (List.prefix_append _ _)
      · exact h
    · obtain ⟨rfl, -⟩ := Prod.mk.inj hbreak
      apply List.IsPrefix.trans _ (prefix_stripCommentsFrom raw _ _ _)
      rw [List.append_assoc]
      exact (List.prefix_append_right_inj out).2
        ((prefix_trimEnd_of_quote h).trans (List.prefix_append _ _))
  | case7 _ _ _ _ _ _ _ _ ih => exact ih (h.trans (List.prefix_append _ _))
  | case8 _ _ _ _ _ _ _ _ ih => exact ih (h.trans (List.prefix_append _ _))

/-! ## Code without literals -/

/-- A byte that is no quote and ends no line. -/
def Inert (c : UInt8) : Prop := c ≠ 10 ∧ c ≠ 34 ∧ c ≠ 39 ∧ c ≠ 96

instance : DecidablePred Inert := fun _ => inferInstanceAs (Decidable (_ ∧ _))

/-- A text in which no comment begins. -/
def NoOpener (s : Bytes) : Prop := ¬ [47, 47] <:+: s ∧ ¬ [47, 42] <:+: s

instance : DecidablePred NoOpener := fun _ => inferInstanceAs (Decidable (_ ∧ _))

theorem NoOpener.within {t : Bytes} (h : NoOpener s) (ht : t <:+: s) : NoOpener t :=
  ⟨fun hin => h.1 (hin.trans ht), fun hin => h.2 (hin.trans ht)⟩

/-- Code is taken byte by byte, up to a byte that begins no comment with it. -/
theorem stripCommentsFrom_code {code : Bytes} (hcode : ∀ c ∈ code, Inert c) (hopener : NoOpener (code ++ [c])) :
    stripCommentsFrom raw out line (code ++ c :: s) = stripCommentsFrom raw out (line ++ code) (c :: s) := by
  induction code generalizing line with
  | nil => rw [List.nil_append, List.append_nil]
  | cons d code ih =>
    obtain ⟨⟨hnewline, hdouble, hsingle, hraw⟩, hcode⟩ := List.forall_mem_cons.1 hcode
    have hstarts : Starts raw (d :: (code ++ c :: s)) (.byte d) (code ++ c :: s) := by
      refine .byte hnewline hdouble hsingle (fun h => hraw h.1) ?_
      rintro rfl e he
      have hnext : [47, e] <+: 47 :: code ++ [c] := by
        rcases code with - | ⟨f, code⟩
        · rw [← Option.mem_some_iff.1 he]
          exact List.prefix_rfl
        · rw [← Option.mem_some_iff.1 he]
          exact ⟨code ++ [c], rfl⟩
      constructor
      · rintro rfl
        exact hopener.1 hnext.isInfix
      · rintro rfl
        exact hopener.2 hnext.isInfix
    have hrest : NoOpener (code ++ [c]) := hopener.within (List.suffix_cons d _).isInfix
    rw [List.cons_append, stripCommentsFrom_byte hstarts, ih hcode hrest, List.append_assoc,
      List.singleton_append]

theorem charTail?_eq_none {budget : Nat} (h : 39 ∉ s.take budget) : charTail? budget s = none := by
  cases htail : charTail? budget s with
  | none => rfl
  | some n =>
    obtain ⟨inside, rest, rfl, rfl, hle⟩ := exists_of_charTail? htail
    refine absurd ?_ h
    rw [List.append_cons]
    apply List.IsPrefix.subset (List.prefix_take_iff.2 ⟨List.prefix_append _ _, _⟩)
    · simp
    · simpa using hle

end

/-- **A single quote behind which none is close does not hide a comment.** A line of code with one quote
loses its comment, and only that, exactly when no second quote closes a literal within eleven bytes, and
so always when there is none among these bytes. Otherwise the sign of the comment and what follows it up
to that quote stay. -/
theorem stripCommentsFrom_lifetime (raw : Bool) (out : Bytes) {before behind text rest : Bytes}
    (hbefore : ∀ c ∈ before, Inert c) (hbehind : ∀ c ∈ behind, Inert c)
    (hopener : NoOpener (before ++ 39 :: behind ++ [47])) (htext : 10 ∉ text)
    (hrest : ∀ c ∈ rest.head?, c = 10) :
    let tail := behind ++ 47 :: 47 :: (text ++ rest)
    (39 ∉ tail.take 11 → charTail? 11 tail = none) ∧
    (charTail? 11 tail = none → stripCommentsFrom raw out [] (before ++ 39 :: tail) =
      stripCommentsFrom raw out (trimEnd isBlank (before ++ 39 :: behind)) rest) ∧
    (∀ n, charTail? 11 tail = some n → behind ++ [47, 47] <+: tail.take n ∧
      out ++ (before ++ 39 :: tail.take n) <+: stripCommentsFrom raw out [] (before ++ 39 :: tail)) := by
  intro tail
  have hfront : NoOpener (before ++ [39]) := hopener.within ⟨[], behind ++ [47], by simp⟩
  refine ⟨charTail?_eq_none, ?_, ?_⟩
  · intro hnone
    have hquote : Starts raw (39 :: tail) (.literal [39]) tail :=
      .character (by rw [List.nil_append, hnone]; rfl)
    have hcomment : Starts raw (47 :: 47 :: (text ++ rest)) (.lineComment (47 :: 47 :: text)) rest :=
      .lineComment htext hrest
    have hback : NoOpener (behind ++ [47]) := hopener.within ⟨before ++ [39], [], by simp⟩
    have hline : [] ++ before ++ [39] ++ behind = before ++ 39 :: behind := by simp
    have hwhite : isWhite (before ++ 39 :: behind) = false := isWhite_of_mem_quote (by simp)
    rw [stripCommentsFrom_code hbefore hfront, stripCommentsFrom_literal hquote,
      stripCommentsFrom_code hbehind hback, hline, stripCommentsFrom_lineComment hcomment hwhite]
  · intro n hn
    obtain ⟨inside, after, hsplit, rfl, -⟩ := exists_of_charTail? hn
    have htake : tail.take (inside.length + 1) = inside ++ [39] := by
      rw [hsplit, List.append_cons, List.take_left' (by simp)]
    have hquote : Starts raw (39 :: tail) (.literal (39 :: (inside ++ [39]))) after := by
      rw [hsplit, List.append_cons]
      apply Starts.character
      rw [← List.append_cons, ← hsplit, hn]
      simp
    rw [htake]
    constructor
    · have hcut : behind ++ [47, 47] ++ (text ++ rest) = inside ++ 39 :: after := by
        rw [← hsplit, List.append_assoc]
        rfl
      rcases List.append_eq_append_iff.1 hcut with ⟨u, hinside, -⟩ | ⟨u, hbehind', hu⟩
      · rw [hinside, List.append_assoc]
        exact List.prefix_append _ _
      · rcases u with - | ⟨d, u⟩
        · rw [hbehind', List.append_nil]
          exact List.prefix_append _ _
        · obtain ⟨rfl, -⟩ := List.cons.inj hu
          have hquote : 39 ∈ behind ++ [47, 47] := by
            rw [hbehind']
            simp
          rcases List.mem_append.1 hquote with h | h
          · exact absurd rfl (hbehind 39 h).2.2.1
          · exact absurd h (by decide)
    · rw [stripCommentsFrom_code hbefore hfront, stripCommentsFrom_literal hquote]
      have hclosed : before ++ 39 :: (inside ++ [39]) = before ++ 39 :: inside ++ [39] := by simp
      rw [hclosed]
      apply quoted_prefix_stripCommentsFrom
      simp only [List.nil_append, hclosed, List.prefix_refl]

/-- In two lines with an apostrophe in the comment, it is within eleven bytes of the quote in the second. -/
theorem stripCommentsFrom_lifetime_apostrophe :
    stripCommentsFrom false [] [] "x: &'a Text, // it's x\ny" = "x: &'a Text,\ny" ∧
    "x: &'a T, // it'" <+: stripCommentsFrom false [] [] "x: &'a T, // it's x\ny" := by
  have far := @stripCommentsFrom_lifetime false [] "x: &" "a Text, " " it's x" "\ny" (by decide +kernel)
    (by decide +kernel) (by decide +kernel) (by decide +kernel) (by decide +kernel)
  have close := @stripCommentsFrom_lifetime false [] "x: &" "a T, " " it's x" "\ny" (by decide +kernel)
    (by decide +kernel) (by decide +kernel) (by decide +kernel) (by decide +kernel)
  constructor
  · exact (far.2.1 (far.1 (by decide))).trans (by decide +kernel)
  · exact (close.2.2 11 (by decide +kernel)).2

end Bindery.Listing
