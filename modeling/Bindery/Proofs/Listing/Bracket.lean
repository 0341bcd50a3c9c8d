import Mathlib.Data.List.Forall2
import Mathlib.Data.List.Induction
import Bindery.Listing.Python.Wrap
import Bindery.Proofs.Listing.Level

/-!
# Breaks at tokens

A line is searched for a place to be broken byte by byte, while the tokeniser reads it lexeme by lexeme.
Where no string is open in front of the line, both see the same: a line is only broken behind a comma that
is a token of its own, and the columns that are kept with the break are those of the brackets that are open
behind the tokens in front of the comma (`at_comma_of_breakFrom`).
-/

namespace Bindery.Listing.Python

open Text

/-- The brackets that are open behind tokens, the innermost first. A closing bracket takes away the
innermost one. -/
def openBrackets (tokens : List Token) : List Token :=
  tokens.foldl (fun opened t =>
    if t.opens then t :: opened else if t.closes then opened.drop 1 else opened) []

/-- A state of the tokeniser on its way through a source, between two lexemes, with `rest` to go. -/
structure State.At (source rest : Bytes) (s : State) : Prop where
  reads : s.Reads source rest
  run : s.run rest = State.run {} source

/-- Columns that go with open brackets, one by one from the innermost on. The outer brackets may be open
since before the columns are counted. -/
def Columns (R : Nat → Token → Prop) (columns : List Nat) (brackets : List Token) : Prop :=
  ∃ inner outer, brackets = inner ++ outer ∧ List.Forall₂ R columns inner

/-- A byte that is no quote, bracket or comma and begins no comment. -/
def isPassed (c : UInt8) : Bool :=
  !(c == 34 || c == 39 || c == 35 || c == 44 || isOpening c || isClosing c)

section

variable {source rest tail : Bytes} {s : State} {t : Token} {c q : UInt8}

/-! ## On the way through a source -/

theorem State.at_start (source : Bytes) : State.At source source {} :=
  ⟨⟨⟨[], [], by simp [Parted]⟩, by simp [State.found], by simp [State.found], by simp, by simp, by simp⟩, rfl⟩

theorem State.At.step (h : s.At source (c :: rest)) :
    (s.step c rest (firstLexeme c rest)).At source (rest.drop (firstLexeme c rest).more) :=
  ⟨h.reads.step, by rw [← h.run, State.run]⟩

theorem State.found_step (s : State) (c : UInt8) (rest : Bytes) (lexeme : Lexeme) :
    ∃ more, (s.step c rest lexeme).found = s.found ++ more := by
  cases lexeme with
  | newline => exact ⟨[], by rw [found_step_newline, List.append_nil]⟩
  | continuation => exact ⟨[], (List.append_nil _).symm⟩
  | blank => exact ⟨[], (List.append_nil _).symm⟩
  | comment => exact ⟨[], (List.append_nil _).symm⟩
  | token kind n => exact ⟨_, found_step_token s c rest kind n⟩

theorem State.found_run (s : State) (rest : Bytes) : ∃ more, (s.run rest).found = s.found ++ more := by
  fun_induction State.run s rest with
  | case1 => exact ⟨[], (List.append_nil _).symm⟩
  | case2 s c rest lexeme ih =>
    obtain ⟨more, hmore⟩ := ih
    obtain ⟨first, hfirst⟩ := s.found_step c rest lexeme
    exact ⟨first ++ more, by rw [hmore, hfirst, List.append_assoc]⟩

/-- What was found on the way is what the source begins with. -/
theorem State.At.tokensOf_eq (h : s.At source rest) : ∃ more, tokensOf source = s.found ++ more := by
  rw [Python.tokensOf_eq, ← h.run]
  exact s.found_run rest

/-! ## Brackets -/

theorem openBrackets_concat (ts : List Token) (t : Token) :
    openBrackets (ts ++ [t]) =
      if t.opens then t :: openBrackets ts
      else if t.closes then (openBrackets ts).drop 1
      else openBrackets ts := by
  rw [openBrackets, List.foldl_append]
  rfl

theorem mem_of_mem_openBrackets {ts : List Token} (h : t ∈ openBrackets ts) : t ∈ ts := by
  induction ts using List.reverseRecOn with
  | nil => cases h
  | append_singleton ts u ih =>
    rw [openBrackets_concat] at h
    split at h
    · rcases List.mem_cons.1 h with rfl | h
      · exact List.mem_append_right _ (List.mem_singleton_self _)
      · exact List.mem_append_left _ (ih h)
    · split at h
      · exact List.mem_append_left _ (ih (List.mem_of_mem_drop h))
      · exact List.mem_append_left _ (ih h)

theorem firstLexeme_of_sign (h : isOpening c = true ∨ isClosing c = true ∨ c = 44) (rest : Bytes) :
    firstLexeme c rest = .token .operator 0 := by
  simp only [isOpening, isClosing, Bool.or_eq_true, beq_iff_eq] at h
  rcases h with ((rfl | rfl) | rfl) | ((rfl | rfl) | rfl) | rfl <;> rfl

theorem openBrackets_step (s : State) (c : UInt8) (rest : Bytes) :
    openBrackets (s.step c rest (firstLexeme c rest)).found =
      if isOpening c then s.tokenOf .operator [c] :: openBrackets s.found
      else if isClosing c then (openBrackets s.found).drop 1
      else openBrackets s.found := by
  by_cases hsign : isOpening c = true ∨ isClosing c = true
  · rw [firstLexeme_of_sign (hsign.imp_right .inl), found_step_token, openBrackets_concat]
    rfl
  · obtain ⟨hopening, hclosing⟩ := not_or.1 hsign
    rw [if_neg hopening, if_neg hclosing]
    cases firstLexeme c rest with
    | newline => rw [found_step_newline]
    | continuation => rfl
    | blank => rfl
    | comment => rfl
    | token kind n =>
      have hopens : ¬ (s.tokenOf kind (c :: rest.take n)).opens = true := by
        simp [Token.opens, State.tokenOf, hopening]
      have hcloses : ¬ (s.tokenOf kind (c :: rest.take n)).closes = true := by
        simp [Token.closes, State.tokenOf, hclosing]
      rw [found_step_token, openBrackets_concat, if_neg hopens, if_neg hcloses]

theorem State.At.blanks {w : Bytes} (hw : ∀ c ∈ w, isBlank c = true) (h : s.At source (w ++ rest)) :
    ∃ s' : State, s'.At source rest ∧ s'.offset = s.offset + w.length ∧ s'.found = s.found := by
  induction w generalizing s with
  | nil => exact ⟨s, h, rfl, rfl⟩
  | cons c w ih =>
    obtain ⟨hc, hw⟩ := List.forall_mem_cons.1 hw
    have hlexeme : firstLexeme c (w ++ rest) = .blank := by
      rw [isBlank, Bool.or_eq_true, beq_iff_eq, beq_iff_eq] at hc
      rcases hc with rfl | rfl <;> rfl
    have hstep := h.step
    rw [List.append_eq, hlexeme] at hstep
    obtain ⟨s', hs', hoffset, hfound⟩ := ih hw hstep
    refine ⟨s', hs', ?_, hfound⟩
    rw [hoffset, offset_step, List.length_cons, List.length_cons]
    simp only [Lexeme.more, List.take_zero, List.length_nil]
    omega

theorem State.At.comma (h : s.At source (44 :: rest)) :
    ∃ (s' : State) (comma : Token), s'.At source rest ∧ s'.offset = s.offset + 1 ∧
      s'.found = s.found ++ [comma] ∧ openBrackets s'.found = openBrackets s.found ∧
      comma.kind = .operator ∧ comma.text = [44] ∧ comma.start = s.offset ∧ comma.stop = s.offset + 1 := by
  have hlexeme := firstLexeme_of_sign (.inr (.inr rfl) : isOpening 44 = true ∨ isClosing 44 = true ∨ _) rest
  have hstep := h.step
  have hbrackets := openBrackets_step s 44 rest
  rw [hlexeme] at hstep hbrackets
  exact ⟨_, s.tokenOf .operator [44], hstep, rfl, found_step_token s 44 rest .operator 0, hbrackets, rfl, rfl,
    rfl, rfl⟩

/-! ## Columns -/

section

variable {R R' : Nat → Token → Prop} {columns : List Nat} {brackets : List Token}

theorem columns_nil (R : Nat → Token → Prop) (brackets : List Token) : Columns R [] brackets :=
  ⟨[], brackets, rfl, .nil⟩

theorem Columns.cons {x : Nat} (hx : R x t) (h : Columns R columns brackets) :
    Columns R (x :: columns) (t :: brackets) := by
  obtain ⟨inner, outer, rfl, hinner⟩ := h
  exact ⟨t :: inner, outer, rfl, .cons hx hinner⟩

theorem Columns.close (h : Columns R columns brackets) : Columns R (columns.drop 1) (brackets.drop 1) := by
  obtain ⟨inner, outer, rfl, hinner⟩ := h
  cases hinner with
  | nil => exact columns_nil R _
  | cons _ hinner => exact ⟨_, outer, rfl, hinner⟩

theorem Columns.innermost (h : Columns R columns brackets) (hne : columns ≠ []) :
    ∃ bracket outer, brackets = bracket :: outer ∧ R (columns.headD 0) bracket := by
  obtain ⟨inner, outer, rfl, hinner⟩ := h
  cases hinner with
  | nil => exact absurd rfl hne
  | cons hx hinner => exact ⟨_, _, rfl, hx⟩

theorem Columns.imp (h : Columns R columns brackets)
    (himp : ∀ x t, t ∈ brackets → R x t → R' x t) : Columns R' columns brackets := by
  obtain ⟨inner, outer, rfl, hinner⟩ := h
  refine ⟨inner, outer, rfl, ?_⟩
  induction hinner with
  | nil => exact .nil
  | cons hx _ ih =>
    exact .cons (himp _ _ List.mem_cons_self hx) (ih fun x t ht => himp x t (List.mem_cons_of_mem _ ht))

end

/-! ## Searching a lexeme -/

variable {column : Nat} {opened : List Nat} {best : Option Break} {b : Break}

theorem isPassed_of_isNameByte (h : isNameByte c = true) : isPassed c = true := by
  rw [isPassed, Bool.not_eq_true', ← Bool.not_eq_true]
  simp only [isOpening, isClosing, Bool.or_eq_true, beq_iff_eq]
  rintro (((((rfl | rfl) | rfl) | rfl) | (rfl | rfl) | rfl) | (rfl | rfl) | rfl) <;>
    exact absurd h (by decide)

theorem breakFrom_outside (c : UInt8) (rest : Bytes) :
    breakFrom column opened none best (c :: rest) =
      if column ≥ wrapWidth then best
      else if c = 34 ∨ c = 39 then
        if [c, c].isPrefixOf rest then best else breakFrom (column + 1) opened (some c) best rest
      else if c = 35 then best
      else if isOpening c then breakFrom (column + 1) (column :: opened) none best rest
      else if isClosing c then breakFrom (column + 1) (opened.drop 1) none best rest
      else if c = 44 ∧ !opened.isEmpty ∧ !rest.isEmpty then
        breakFrom (column + 1) opened none (some { keep := column + 1, open' := opened }) rest
      else breakFrom (column + 1) opened none best rest :=
  breakFrom.eq_4 column opened best c rest

theorem breakFrom_escape (d : UInt8) (rest : Bytes) :
    breakFrom column opened (some q) best (92 :: d :: rest) =
      if column ≥ wrapWidth then best else breakFrom (column + 2) opened (some q) best rest :=
  breakFrom.eq_3 column opened best 92 q d rest

theorem breakFrom_inside (h : c ≠ 92) (rest : Bytes) :
    breakFrom column opened (some q) best (c :: rest) =
      if column ≥ wrapWidth then best
      else breakFrom (column + 1) opened (if c = q then none else some q) best rest := by
  have hescape : ¬ c = '\\'.toUInt8 := h
  cases rest with
  | nil => rw [breakFrom.eq_2, if_neg hescape]
  | cons d rest => rw [breakFrom.eq_3, if_neg hescape]

theorem stringTail_escape (q d : UInt8) (rest : Bytes) :
    stringTail q false (92 :: d :: rest) = stringTail q false rest + 2 :=
  stringTail.eq_3 q false 92 d rest

theorem stringTail_inside (h : c ≠ 92) (hc : c ≠ 10) (rest : Bytes) :
    stringTail q false (c :: rest) = if c = q then 1 else stringTail q false rest + 1 := by
  have hescape : ¬ c = '\\'.toUInt8 := h
  have hnewline : (c == '\n'.toUInt8) = false := beq_false_of_ne hc
  cases rest with
  | nil => simp [stringTail.eq_2, hescape, hnewline]
  | cons d rest => simp [stringTail.eq_3, hescape, hnewline]

theorem breakFrom_passed {u v : Bytes} (hu : ∀ c ∈ u, isPassed c = true)
    (h : breakFrom column opened none best (u ++ v) = some b) :
    best = some b ∨ breakFrom (column + u.length) opened none best v = some b := by
  induction u generalizing column with
  | nil => exact .inr h
  | cons c u ih =>
    obtain ⟨hc, hu⟩ := List.forall_mem_cons.1 hu
    simp only [isPassed, Bool.not_eq_true', Bool.or_eq_false_iff, beq_eq_false_iff_ne] at hc
    obtain ⟨⟨⟨⟨⟨hdouble, hsingle⟩, hcomment⟩, hcomma⟩, hopening⟩, hclosing⟩ := hc
    rw [List.cons_append, breakFrom_outside] at h
    split at h
    · exact .inl h
    · simp only [hdouble, hsingle, hcomma, hopening, hclosing, or_self, false_and,
        Bool.false_eq_true, if_false] at h
      rw [List.length_cons, ← Nat.add_assoc, Nat.add_right_comm]
      exact ih hu h

theorem breakFrom_string (tail : Bytes) : ∀ (column : Nat) (s : Bytes), 10 ∉ s →
    breakFrom column opened (some q) best s = some b →
    best = some b ∨ stringTail q false (s ++ tail) ≤ s.length ∧
      breakFrom (column + stringTail q false (s ++ tail)) opened none best
        (s.drop (stringTail q false (s ++ tail))) = some b
  | column, [], _, h => .inl (by rwa [breakFrom] at h)
  | column, c :: s, hline, h => by
    obtain ⟨hc, hs⟩ := not_or.1 (List.mem_cons.not.1 hline)
    by_cases hescape : c = 92
    · subst hescape
      cases s with
      | nil =>
        rw [breakFrom.eq_2, if_pos (show (92 : UInt8) = '\\'.toUInt8 from rfl), ite_self] at h
        exact .inl h
      | cons d s =>
        rw [breakFrom_escape] at h
        split at h
        · exact .inl h
        · refine (breakFrom_string tail _ s (fun hmem => hs (List.mem_cons_of_mem d hmem)) h).imp_right ?_
          rintro ⟨hle, hrest⟩
          rw [Nat.add_right_comm, Nat.add_assoc] at hrest
          rw [List.cons_append, List.cons_append, stringTail_escape, List.drop_succ_cons,
            List.drop_succ_cons]
          exact ⟨by simpa using hle, hrest⟩
    · rw [breakFrom_inside hescape] at h
      rw [List.cons_append, stringTail_inside hescape (Ne.symm hc)]
      split at h
      · exact .inl h
      · by_cases hquote : c = q
        · rw [if_pos hquote] at h ⊢
          exact .inr ⟨by simp, h⟩
        · rw [if_neg hquote] at h ⊢
          refine (breakFrom_string tail _ s hs h).imp_right ?_
          rintro ⟨hle, hrest⟩
          rw [Nat.add_right_comm, Nat.add_assoc] at hrest
          rw [List.drop_succ_cons]
          exact ⟨by simpa using hle, hrest⟩

theorem ne_of_isSkipped (h : isSkipped q = true) : ¬ (q = 34 ∨ q = 39) := by
  rintro (rfl | rfl)
  · cases h
  · cases h

/-- A string that ends on its line is passed over, quotes and all. At three quotes the search ends. -/
theorem breakFrom_quote (hq : q = 34 ∨ q = 39) (htail : ∀ x ∈ tail.head?, isSkipped x = true)
    (hline : 10 ∉ rest)
    (h : breakFrom column opened none best (q :: rest) = some b) :
    best = some b ∨ stringWidth q (rest ++ tail) ≤ rest.length ∧
      breakFrom (column + (stringWidth q (rest ++ tail) + 1)) opened none best
        (rest.drop (stringWidth q (rest ++ tail))) = some b := by
  rw [breakFrom_outside] at h
  split at h
  · exact .inl h
  · split at h
    · exact .inl h
    · next hsingle =>
      have hwidth : stringWidth q (rest ++ tail) = stringTail q false (rest ++ tail) := by
        rw [stringWidth, if_neg]
        intro hquotes
        have hne : ∀ x ∈ tail.head?, q ≠ x := by
          rintro x hx rfl
          exact ne_of_isSkipped (htail q hx) hq
        rcases rest with - | ⟨d, - | ⟨e, rest⟩⟩
        · cases tail with
          | nil => cases hquotes
          | cons x tail => simp [hne x rfl] at hquotes
        · cases tail with
          | nil => simp at hquotes
          | cons x tail => simp [hne x rfl] at hquotes
        · exact hsingle (by simpa using hquotes)
      rw [hwidth, Nat.add_comm _ 1, ← Nat.add_assoc]
      exact breakFrom_string tail (column + 1) rest hline h

theorem isNameByte_of_isSkipped (x : UInt8) (h : isSkipped x = true) : isNameByte x = false := by
  rw [isSkipped, isNewline, isBlank, Bool.or_eq_true, Bool.or_eq_true, Bool.or_eq_true, Bool.or_eq_true] at h
  simp only [beq_iff_eq] at h
  rcases h with ((rfl | rfl | rfl) | rfl) | rfl <;> rfl

theorem takeWhile_append_of_head {p : UInt8 → Bool} (hp : ∀ x, isSkipped x = true → p x = false)
    (htail : ∀ x ∈ tail.head?, isSkipped x = true) (rest : Bytes) :
    (rest ++ tail).takeWhile p = rest.takeWhile p := by
  induction rest with
  | nil =>
    cases tail with
    | nil => rfl
    | cons x tail => simp [hp x (htail x rfl)]
  | cons c rest ih =>
    rw [List.cons_append, List.takeWhile_cons, List.takeWhile_cons, ih]

theorem isPassed_of_mem_longOperators {o : Bytes} (ho : o ∈ longOperators) : ∀ c ∈ o, isPassed c = true := by
  have hlong : ∀ o ∈ longOperators, ∀ c ∈ o, isPassed c = true := by decide
  exact hlong o ho

theorem breakFrom_word {n : Nat} (hn : n ≤ rest.length) (hpassed : ∀ x ∈ c :: rest.take n, isPassed x = true)
    (h : breakFrom column opened none best (c :: rest) = some b) :
    best = some b ∨
      n ≤ rest.length ∧ breakFrom (column + (n + 1)) opened none best (rest.drop n) = some b := by
  have hlength : (c :: rest.take n).length = n + 1 := by
    rw [List.length_cons, List.length_take, Nat.min_eq_left hn]
  rw [← hlength]
  refine (breakFrom_passed hpassed ?_).imp_right fun hrest => ⟨hn, hrest⟩
  rwa [List.cons_append, List.take_append_drop]

theorem breakFrom_takeWhile (htail : ∀ x ∈ tail.head?, isSkipped x = true) {p : UInt8 → Bool}
    (hskipped : ∀ x, isSkipped x = true → p x = false) (hp : ∀ x, p x = true → isPassed x = true)
    (hpassed : isPassed c = true) (h : breakFrom column opened none best (c :: rest) = some b) :
    best = some b ∨ ((rest ++ tail).takeWhile p).length ≤ rest.length ∧
      breakFrom (column + (((rest ++ tail).takeWhile p).length + 1)) opened none best
        (rest.drop ((rest ++ tail).takeWhile p).length) = some b := by
  rw [takeWhile_append_of_head hskipped htail]
  refine breakFrom_word (List.takeWhile_prefix _).length_le ?_ h
  rw [take_length_takeWhile]
  exact List.forall_mem_cons.2 ⟨hpassed, fun x hx => hp x (List.mem_takeWhile_imp hx)⟩

theorem breakFrom_name (htail : ∀ x ∈ tail.head?, isSkipped x = true) (hname : isNameStart c = true)
    (h : breakFrom column opened none best (c :: rest) = some b) :
    best = some b ∨ ((rest ++ tail).takeWhile isNameByte).length ≤ rest.length ∧
      breakFrom (column + (((rest ++ tail).takeWhile isNameByte).length + 1)) opened none best
        (rest.drop ((rest ++ tail).takeWhile isNameByte).length) = some b :=
  breakFrom_takeWhile htail isNameByte_of_isSkipped (fun _ hx => isPassed_of_isNameByte hx)
    (isPassed_of_isNameByte (isNameByte_of_isNameStart hname)) h

theorem breakFrom_number (htail : ∀ x ∈ tail.head?, isSkipped x = true) (hdigit : isDigit c = true ∨ c = 46)
    (h : breakFrom column opened none best (c :: rest) = some b) :
    best = some b ∨ ((rest ++ tail).takeWhile fun c => isNameByte c || c == 46).length ≤ rest.length ∧
      breakFrom (column + (((rest ++ tail).takeWhile fun c => isNameByte c || c == 46).length + 1)) opened
        none best (rest.drop ((rest ++ tail).takeWhile fun c => isNameByte c || c == 46).length) = some b := by
  apply breakFrom_takeWhile htail _ _ _ h
  · intro x hx
    rw [isNameByte_of_isSkipped x hx, Bool.false_or, beq_eq_false_iff_ne]
    rintro rfl
    cases hx
  · intro x hx
    rw [Bool.or_eq_true, beq_iff_eq] at hx
    rcases hx with hx | rfl
    · exact isPassed_of_isNameByte hx
    · rfl
  · rcases hdigit with hdigit | rfl
    · exact isPassed_of_isNameByte (isNameByte_of_isDigit hdigit)
    · rfl

/-- A name of which the string behind it is a part is passed over with the string. -/
theorem breakFrom_markedString (htail : ∀ x ∈ tail.head?, isSkipped x = true) (hline : 10 ∉ rest)
    (hname : isNameStart c = true) (hquote : q = 34 ∨ q = 39) {n : Nat}
    (hn : n = ((rest ++ tail).takeWhile isNameByte).length) {after : Bytes}
    (hafter : (rest ++ tail).drop n = q :: after)
    (h : breakFrom column opened none best (c :: rest) = some b) :
    best = some b ∨ n + 1 + stringWidth q after ≤ rest.length ∧
      breakFrom (column + (n + 1 + stringWidth q after + 1)) opened none best
        (rest.drop (n + 1 + stringWidth q after)) = some b := by
  rcases breakFrom_name htail hname h with hbest | ⟨hle, hbehind⟩
  · exact .inl hbest
  rw [← hn] at hle hbehind
  rw [List.drop_append_of_le_length hle] at hafter
  -- The quote stands on the line itself: what follows the line begins with what is skipped.
  obtain ⟨more, hmore⟩ : ∃ more, rest.drop n = q :: more := by
    cases hmore : rest.drop n with
    | nil =>
      rw [hmore, List.nil_append] at hafter
      exact absurd hquote (ne_of_isSkipped (htail q (by rw [hafter]; rfl)))
    | cons x more =>
      rw [hmore, List.cons_append, List.cons.injEq] at hafter
      exact ⟨more, by rw [hafter.1]⟩
  rw [hmore, List.cons_append, List.cons.injEq] at hafter
  obtain rfl : more ++ tail = after := hafter.2
  have hlength : rest.length = n + (more.length + 1) := by
    have hsum := congrArg List.length hmore
    rw [List.length_drop, List.length_cons] at hsum
    omega
  have hmoreLine : 10 ∉ more := fun hmem =>
    hline (List.mem_of_mem_drop (hmore ▸ List.mem_cons_of_mem q hmem))
  rw [hmore] at hbehind
  refine (breakFrom_quote hquote htail hmoreLine hbehind).imp_right ?_
  rintro ⟨hwidth, hstring⟩
  refine ⟨by omega, ?_⟩
  rw [Nat.add_assoc n, Nat.add_comm 1, ← List.drop_drop, hmore, List.drop_succ_cons]
  rw [Nat.add_assoc, Nat.add_right_comm n] at hstring
  exact hstring

theorem breakFrom_longOperator {d : UInt8} {following : Bytes} (htail : ∀ x ∈ tail.head?, isSkipped x = true)
    (ho : [c, d] ∈ longOperators) (hmore : rest ++ tail = d :: following)
    (h : breakFrom column opened none best (c :: rest) = some b) :
    best = some b ∨
      1 ≤ rest.length ∧ breakFrom (column + (1 + 1)) opened none best (rest.drop 1) = some b := by
  have hseen : ∀ o ∈ longOperators, ∀ x ∈ o, isSkipped x = false := by decide
  cases rest with
  | nil =>
    rw [List.nil_append] at hmore
    have hd : isSkipped d = true := htail d (by rw [hmore]; rfl)
    exact absurd hd (by rw [hseen _ ho d (by simp)]; exact Bool.false_ne_true)
  | cons x rest =>
    obtain ⟨rfl, -⟩ := List.cons.inj hmore
    exact breakFrom_word (by simp) (by simpa using isPassed_of_mem_longOperators ho) h

/-- The search passes over a lexeme that is no bracket and no comma. -/
theorem breakFrom_unsigned (htail : ∀ x ∈ tail.head?, isSkipped x = true) (hline : 10 ∉ c :: rest)
    (hsign : ¬ (isOpening c = true ∨ isClosing c = true ∨ c = 44))
    (h : breakFrom column opened none best (c :: rest) = some b) :
    best = some b ∨ (firstLexeme c (rest ++ tail)).more ≤ rest.length ∧
      breakFrom (column + ((firstLexeme c (rest ++ tail)).more + 1)) opened none best
        (rest.drop (firstLexeme c (rest ++ tail)).more) = some b := by
  obtain ⟨hc, hrest⟩ := not_or.1 (List.mem_cons.not.1 hline)
  have hbyte : isPassed c = true → best = some b ∨
      0 ≤ rest.length ∧ breakFrom (column + (0 + 1)) opened none best (rest.drop 0) = some b := fun hpassed =>
    breakFrom_word (Nat.zero_le _) (by simpa using hpassed) h
  generalize hlexeme : firstLexeme c (rest ++ tail) = lexeme
  cases hlexeme ▸ begins_firstLexeme c (rest ++ tail) with
  | newline hnewline => exact absurd hnewline.symm hc
  | continuation hcontinued =>
    subst hcontinued
    exact hbyte rfl
  | blank hblank => rcases hblank with rfl | rfl | rfl <;> exact hbyte rfl
  | comment hcomment =>
    subst hcomment
    rw [breakFrom_outside] at h
    split at h <;> exact .inl h
  | string hquote => exact breakFrom_quote hquote htail hrest h
  | markedString hname hafter hquote => exact breakFrom_markedString htail hrest hname hquote rfl hafter h
  | name hname => exact breakFrom_name htail hname h
  | number hdigit => exact breakFrom_number htail hdigit h
  | longOperator ho hmore => exact breakFrom_longOperator htail ho hmore h
  | operator _ _ hhash hdouble _ =>
    apply hbyte
    simp only [not_or, Bool.not_eq_true] at hsign
    simp [isPassed, hdouble, hhash, hsign]

/-- Within a line, the search for a break passes over a lexeme at once. What it learns there are brackets
and commas. -/
theorem breakFrom_lexeme (htail : ∀ x ∈ tail.head?, isSkipped x = true) (hline : 10 ∉ c :: rest)
    (h : breakFrom column opened none best (c :: rest) = some b) :
    best = some b ∨ column < wrapWidth ∧ (firstLexeme c (rest ++ tail)).more ≤ rest.length ∧
      breakFrom (column + ((firstLexeme c (rest ++ tail)).more + 1))
        (if isOpening c then column :: opened else if isClosing c then opened.drop 1 else opened) none
        (if c = 44 ∧ !opened.isEmpty ∧ !rest.isEmpty then some { keep := column + 1, open' := opened }
          else best)
        (rest.drop (firstLexeme c (rest ++ tail)).more) = some b := by
  by_cases hwidth : column ≥ wrapWidth
  · rw [breakFrom_outside, if_pos hwidth] at h
    exact .inl h
  by_cases hsign : isOpening c = true ∨ isClosing c = true ∨ c = 44
  · rw [firstLexeme_of_sign hsign]
    refine .inr ⟨Nat.lt_of_not_le hwidth, Nat.zero_le _, ?_⟩
    have hquote : ¬ (c = 34 ∨ c = 39) := by
      rintro (rfl | rfl)
      · exact absurd hsign (by decide)
      · exact absurd hsign (by decide)
    have hhash : ¬ c = 35 := by
      rintro rfl
      exact absurd hsign (by decide)
    rw [breakFrom_outside, if_neg hwidth, if_neg hquote, if_neg hhash] at h
    rw [Lexeme.more, List.drop_zero, Nat.zero_add]
    by_cases hcomma : c = 44
    · subst hcomma
      rw [if_neg (by decide), if_neg (by decide)] at h ⊢
      split at h
      · next hbreak => rwa [if_pos hbreak]
      · next hbreak => rwa [if_neg hbreak]
    · simp only [hcomma, false_and, if_false] at h ⊢
      by_cases hopening : isOpening c = true
      · rwa [if_pos hopening] at h ⊢
      · rw [if_neg hopening] at h ⊢
        by_cases hclosing : isClosing c = true
        · rwa [if_pos hclosing] at h ⊢
        · rwa [if_neg hclosing] at h ⊢
  · obtain ⟨hopening, hclosing, hcomma⟩ : ¬ isOpening c = true ∧ ¬ isClosing c = true ∧ ¬ c = 44 := by
      simpa only [not_or] using hsign
    rw [if_neg hopening, if_neg hclosing, if_neg fun hcomma' => hcomma hcomma'.1]
    exact (breakFrom_unsigned htail hline hsign h).imp_right fun hrest => ⟨Nat.lt_of_not_le hwidth, hrest⟩

/-- **A line is broken at a token.** The line `q` starts at the state `s`, at the column `column`, and with
the columns `opened` for brackets that are open there; `R` says which columns go with which brackets, and
holds for those of the line. The line is broken behind a comma that the tokeniser reaches, within the
width and with a bracket open, and the break has the columns of the brackets that are open there. -/
theorem at_comma_of_breakFrom {R : Nat → Token → Prop} {indent start : Nat}
    (hR : ∀ t : Token, start ≤ t.start → R (indent + (t.start - start)) t)
    (htail : ∀ x ∈ tail.head?, isSkipped x = true) {line : Bytes} (hline : 10 ∉ line)
    (hs : s.At source (line ++ tail)) (hstart : start ≤ s.offset)
    (hcolumn : column = indent + (s.offset - start))
    (hopened : Columns R opened (openBrackets s.found))
    (h : breakFrom column opened none best line = some b) :
    best = some b ∨ ∃ s' u v, line = u ++ 44 :: v ∧ v ≠ [] ∧ State.At source (44 :: (v ++ tail)) s' ∧
      s'.offset = s.offset + u.length ∧ b.keep = column + u.length + 1 ∧ b.keep ≤ wrapWidth ∧
      b.open' ≠ [] ∧ Columns R b.open' (openBrackets s'.found) := by
  induction hlength : line.length using Nat.strongRecOn generalizing line s column opened best with
  | ind length ih =>
  cases line with
  | nil => exact .inl (by rwa [breakFrom] at h)
  | cons c rest =>
    rcases breakFrom_lexeme htail hline h with hbest | ⟨hwidth, hmore, hrest⟩
    · exact .inl hbest
    have hstep := hs.step
    rw [List.append_eq, List.drop_append_of_le_length hmore] at hstep
    have hoffset := offset_step s c (rest ++ tail) (firstLexeme c (rest ++ tail))
    have hbrackets := openBrackets_step s c (rest ++ tail)
    generalize firstLexeme c (rest ++ tail) = lexeme at hmore hrest hstep hoffset hbrackets
    generalize hs' : s.step c (rest ++ tail) lexeme = s' at hstep hoffset hbrackets
    have htaken : (c :: (rest ++ tail).take lexeme.more).length = lexeme.more + 1 := by
      rw [List.length_cons, List.length_take, List.length_append, Nat.min_eq_left (by omega)]
    rw [htaken] at hoffset
    have hopened' : Columns R
        (if isOpening c then column :: opened else if isClosing c then opened.drop 1 else opened)
        (openBrackets s'.found) := by
      rw [hbrackets]
      split
      · exact .cons (hcolumn ▸ hR (s.tokenOf .operator [c]) hstart) hopened
      · split
        · exact hopened.close
        · exact hopened
    have hshort : (rest.drop lexeme.more).length < length := by
      rw [← hlength, List.length_drop, List.length_cons]
      omega
    have hline' : 10 ∉ rest.drop lexeme.more := fun hmem =>
      hline (List.mem_cons_of_mem c (List.mem_of_mem_drop hmem))
    rcases ih _ hshort hline' hstep (by omega) (by omega) hopened' hrest rfl with hbest | hfound
    · split at hbest
      · next hcomma =>
        obtain ⟨rfl, hne, hrest'⟩ := hcomma
        obtain rfl := Option.some.inj hbest
        right
        refine ⟨s, [], rest, rfl, ?_, hs, rfl, rfl, hwidth, ?_, hopened⟩
        · rintro rfl
          cases hrest'
        · rintro rfl
          cases hne
      · exact .inl hbest
    · obtain ⟨s', u, v, hsplit, hne, hat, hoffset', hkeep, hfits, hbreak⟩ := hfound
      have hlong : (c :: rest.take lexeme.more).length = lexeme.more + 1 := by
        rw [List.length_cons, List.length_take, Nat.min_eq_left hmore]
      refine .inr ⟨s', c :: rest.take lexeme.more ++ u, v, ?_, hne, hat, ?_, ?_, hfits, hbreak⟩
      · rw [List.append_assoc, ← hsplit, List.cons_append, List.take_append_drop]
      · rw [List.length_append, hlong, hoffset', hoffset]
        omega
      · rw [List.length_append, hlong, hkeep]
        omega

end

end Bindery.Listing.Python
