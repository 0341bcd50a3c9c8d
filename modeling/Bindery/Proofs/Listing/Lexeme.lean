import Bindery.Listing.Python.Cut
import Bindery.Proofs.Listing.Selection
import Bindery.Proofs.Text.Space

/-!
# Lexemes of indented sources

`Lexed` says what a lexeme can be, and what the source goes on with behind it. From this follow the ends
of tokens: no character is cut, only strings hold ends of lines, and a token that can be seen ends in
something other than a blank unless the line ends behind it.
-/

namespace Bindery.Listing.Python

open Text

/-- What a lexeme, its bytes and the bytes behind it can be. -/
inductive Lexed : Lexeme → Bytes → Bytes → Prop
  | newline (following : Bytes) : Lexed .newline [10] following
  | continuation (following : Bytes) : Lexed .continuation [92] (10 :: following)
  | blank {c : UInt8} (h : c = 32 ∨ c = 9 ∨ c = 13) (following : Bytes) : Lexed .blank [c] following
  | comment {n : Nat} {text following : Bytes} (h : 10 ∉ text) (hend : ∀ c ∈ following.head?, c = 10) :
      Lexed (.comment n) (35 :: text) following
  | string {n : Nat} {mark inside following : Bytes} {q : UInt8}
      (hmark : ∀ c ∈ mark, isNameByte c = true) (hq : q = 34 ∨ q = 39)
      (hend : (∃ init, inside = init ++ [q]) ∨ ∀ c ∈ following.head?, c = 10) :
      Lexed (.token .string n) (mark ++ q :: inside) following
  | name {n : Nat} {c : UInt8} {more following : Bytes} (hc : isNameStart c = true)
      (h : ∀ d ∈ more, isNameByte d = true) (hend : ∀ d ∈ following.head?, isNameByte d = false) :
      Lexed (.token .name n) (c :: more) following
  | number {n : Nat} {c : UInt8} {more following : Bytes} (hc : isDigit c = true ∨ c = 46)
      (h : ∀ d ∈ more, isNameByte d = true ∨ d = 46)
      (hend : ∀ d ∈ following.head?, isNameByte d = false) :
      Lexed (.token .number n) (c :: more) following
  | longOperator {n : Nat} {a b : UInt8} (h : [a, b] ∈ longOperators) (following : Bytes) :
      Lexed (.token .operator n) [a, b] following
  | operator {n : Nat} {c : UInt8} (hname : isNameStart c = false) (hnewline : c ≠ 10)
      (hblank : isBlank c = false) (following : Bytes) : Lexed (.token .operator n) [c] following

theorem isNameByte_of_isNameStart {c : UInt8} (h : isNameStart c = true) : isNameByte c = true := by
  rw [isNameByte, h, Bool.true_or]

theorem isNameByte_of_isDigit {c : UInt8} (h : isDigit c = true) : isNameByte c = true := by
  rw [isNameByte, h, Bool.or_true]

theorem stringTail_end (quote : UInt8) (triple : Bool) (s : Bytes) :
    (∃ init, s.take (stringTail quote triple s) = init ++ [quote]) ∨
      ∀ c ∈ (s.drop (stringTail quote triple s)).head?, c = 10 := by
  fun_induction stringTail quote triple s with
  | case1 => simp
  | case2 => simp
  | case3 d rest ih =>
    rcases ih with ⟨init, hinit⟩ | hrest
    · left
      refine ⟨92 :: d :: init, ?_⟩
      rw [List.take_succ_cons, List.take_succ_cons, hinit]
      rfl
    · exact .inr hrest
  | case4 c rest _ htriple =>
    obtain ⟨-, hq⟩ := Bool.and_eq_true _ _ ▸ htriple
    obtain ⟨t, ht⟩ := List.isPrefixOf_iff_prefix.1 hq
    rw [← ht]
    exact .inl ⟨[quote, quote], rfl⟩
  | case5 c rest _ _ hquote =>
    have hc : c = quote := by simp_all
    rw [hc]
    exact .inl ⟨[], rfl⟩
  | case6 c rest _ _ _ hnewline =>
    right
    rintro d hd
    rw [List.drop_zero, List.head?_cons, Option.mem_some_iff] at hd
    rw [← hd]
    exact eq_of_beq (Bool.and_eq_true _ _ ▸ hnewline).2
  | case7 c rest _ _ _ _ ih =>
    rcases ih with ⟨init, hinit⟩ | hrest
    · left
      refine ⟨c :: init, ?_⟩
      rw [List.take_succ_cons, hinit]
      rfl
    · exact .inr hrest

theorem stringWidth_end (quote : UInt8) (rest : Bytes) :
    (∃ init, rest.take (stringWidth quote rest) = init ++ [quote]) ∨
      ∀ c ∈ (rest.drop (stringWidth quote rest)).head?, c = 10 := by
  rw [stringWidth]
  split
  · next hq =>
    obtain ⟨t, rfl⟩ := List.isPrefixOf_iff_prefix.1 hq
    exact (stringTail_end quote true t).imp_left fun ⟨init, hinit⟩ =>
      ⟨quote :: quote :: init, by simp [hinit]⟩
  · exact stringTail_end quote false rest

/-- A lexeme at the start of a source, with what the bytes there are. -/
inductive Begins (c : UInt8) (rest : Bytes) : Lexeme → Prop
  | newline (h : c = 10) : Begins c rest .newline
  | continuation (h : c = 92) (hnext : rest.head? = some 10) : Begins c rest .continuation
  | blank (h : c = 32 ∨ c = 9 ∨ c = 13) : Begins c rest .blank
  | comment (h : c = 35) : Begins c rest (.comment (rest.takeWhile (!isNewline ·)).length)
  | string (h : c = 34 ∨ c = 39) : Begins c rest (.token .string (stringWidth c rest))
  | markedString (h : isNameStart c = true) {q : UInt8} {after : Bytes}
      (hafter : rest.drop (rest.takeWhile isNameByte).length = q :: after) (hq : q = 34 ∨ q = 39) :
      Begins c rest (.token .string ((rest.takeWhile isNameByte).length + 1 + stringWidth q after))
  | name (h : isNameStart c = true) : Begins c rest (.token .name (rest.takeWhile isNameByte).length)
  | number (h : isDigit c = true ∨ c = 46) :
      Begins c rest (.token .number (rest.takeWhile fun d => isNameByte d || d == 46).length)
  | longOperator {d : UInt8} {following : Bytes} (h : [c, d] ∈ longOperators) (hrest : rest = d :: following) :
      Begins c rest (.token .operator 1)
  | operator (hnewline : c ≠ 10) (hblank : isBlank c = false) (hcomment : c ≠ 35) (hquote : c ≠ 34 ∧ c ≠ 39)
      (hname : isNameStart c = false) : Begins c rest (.token .operator 0)

theorem begins_name {c : UInt8} {rest : Bytes} (h : isNameStart c = true) :
    Begins c rest
      (match rest.drop (rest.takeWhile isNameByte).length with
      | q :: after =>
        if (q = 34 ∨ q = 39) ∧ isStringMark (c :: rest.takeWhile isNameByte) then
          .token .string ((rest.takeWhile isNameByte).length + 1 + stringWidth q after)
        else .token .name (rest.takeWhile isNameByte).length
      | [] => .token .name (rest.takeWhile isNameByte).length) := by
  cases hafter : rest.drop (rest.takeWhile isNameByte).length with
  | nil => exact .name h
  | cons q after =>
    dsimp only
    split
    · next hq => exact .markedString h hafter hq.1
    · exact .name h

/-- The tests for the first lexeme are made one after the other. -/
theorem begins_firstLexeme (c : UInt8) (rest : Bytes) : Begins c rest (firstLexeme c rest) := by
  rw [firstLexeme]
  split
  · next hc => exact .newline hc
  next hnewline =>
  split
  · next hc => exact .continuation hc.1 hc.2
  split
  · next hc =>
    rw [isBlank, Bool.or_eq_true, Bool.or_eq_true, beq_iff_eq, beq_iff_eq, beq_iff_eq] at hc
    exact .blank (or_assoc.1 hc)
  next hblank =>
  split
  · next hc => exact .comment hc
  next hcomment =>
  split
  · next hc => exact .string hc
  next hquote =>
  split
  · next hc => exact begins_name hc
  next hname =>
  split
  · next hc =>
    rw [Bool.or_eq_true, Bool.and_eq_true, beq_iff_eq] at hc
    exact .number (hc.imp_right And.left)
  split
  · next hlong =>
    obtain ⟨o, ho, hstart⟩ := List.any_eq_true.1 hlong
    have hlength : longOperators.all (·.length == 2) = true := by decide
    obtain ⟨a, b, rfl⟩ := List.length_eq_two.1 (eq_of_beq (List.all_eq_true.1 hlength o ho))
    obtain ⟨t, ht⟩ := List.isPrefixOf_iff_prefix.1 hstart
    obtain ⟨rfl, rfl⟩ := List.cons.inj ht
    exact .longOperator ho rfl
  · rw [Bool.or_eq_true, not_or] at hblank
    exact .operator hnewline (eq_false_of_ne_true hblank.1) hcomment (not_or.1 hquote)
      (eq_false_of_ne_true hname)

theorem lexed_firstLexeme (c : UInt8) (rest : Bytes) :
    Lexed (firstLexeme c rest) (c :: rest.take (firstLexeme c rest).more)
      (rest.drop (firstLexeme c rest).more) := by
  generalize hlexeme : firstLexeme c rest = lexeme
  cases hlexeme ▸ begins_firstLexeme c rest with
  | newline h => exact h ▸ .newline rest
  | continuation h hnext =>
    subst h
    cases rest with
    | nil => cases hnext
    | cons d rest =>
      cases hnext
      exact .continuation rest
  | blank h => exact .blank h rest
  | comment h =>
    rw [h, Lexeme.more, drop_length_takeWhile, take_length_takeWhile]
    exact .comment notMem_takeWhile_newline head?_dropWhile_newline
  | string h => exact .string (List.forall_mem_nil _) h (stringWidth_end c rest)
  | @markedString h q after hafter hq =>
    have hrest : rest = rest.takeWhile isNameByte ++ q :: after := by
      rw [← hafter, drop_length_takeWhile, List.takeWhile_append_dropWhile]
    have hmark : ∀ d ∈ c :: rest.takeWhile isNameByte, isNameByte d = true :=
      List.forall_mem_cons.2 ⟨isNameByte_of_isNameStart h, fun d hd => List.mem_takeWhile_imp hd⟩
    generalize rest.takeWhile isNameByte = more at hrest hmark ⊢
    rw [hrest]
    have htake : (more ++ q :: after).take (more.length + 1 + stringWidth q after) =
        more ++ q :: after.take (stringWidth q after) := by
      rw [Nat.add_assoc, List.take_length_add_append, Nat.add_comm 1, List.take_succ_cons]
    have hdrop : (more ++ q :: after).drop (more.length + 1 + stringWidth q after) =
        after.drop (stringWidth q after) := by
      rw [Nat.add_assoc, List.drop_length_add_append, Nat.add_comm 1, List.drop_succ_cons]
    rw [Lexeme.more, htake, hdrop]
    exact .string hmark hq (stringWidth_end q after)
  | name h =>
    rw [Lexeme.more, drop_length_takeWhile, take_length_takeWhile]
    exact .name h (fun d hd => List.mem_takeWhile_imp hd) not_of_head?_dropWhile
  | number h =>
    rw [Lexeme.more, drop_length_takeWhile, take_length_takeWhile]
    refine .number h (fun d hd => ?_) fun d hd => ?_
    · have hd := List.mem_takeWhile_imp hd
      rwa [Bool.or_eq_true, beq_iff_eq] at hd
    · exact (Bool.or_eq_false_iff.1 (not_of_head?_dropWhile d hd)).1
  | @longOperator d following h hrest =>
    rw [hrest]
    exact .longOperator h following
  | operator hnewline hblank _ _ hname => exact .operator hname hnewline hblank rest

/-! ## What lexemes say -/

section

variable {lexeme : Lexeme} {kind : TokenKind} {n : Nat} {text following : Bytes}

theorem lt_of_not_isNameStart {c : UInt8} (h : isNameStart c = false) : c < 0x80 := by
  apply UInt8.not_le.1
  intro hle
  simp [isNameStart, hle] at h

theorem lt_of_not_isNameByte {c : UInt8} (h : isNameByte c = false) : c < 0x80 := by
  apply lt_of_not_isNameStart
  rw [isNameByte, Bool.or_eq_false_iff] at h
  exact h.1

theorem visible_quote {q : UInt8} (h : q = 34 ∨ q = 39) : q < 0x80 ∧ isSpace1 q = false := by
  rcases h with rfl | rfl <;> decide

theorem Lexed.ne_nil (h : Lexed lexeme text following) : text ≠ [] := by
  cases h <;> simp

/-- No character is cut behind a lexeme. -/
theorem Lexed.parted (h : Lexed lexeme text following) : Parted text following := by
  have hnewline : (∀ c ∈ following.head?, c = 10) → Parted text following := by
    intro hend x _ y hy
    rw [hend y hy]
    exact .inr (by decide)
  have hascii : (∀ x ∈ text.getLast?, x < 0x80) → Parted text following := fun h x hx _ _ => .inl (h x hx)
  cases h with
  | newline => exact hascii (by simp)
  | continuation => exact hascii (by simp)
  | blank hc =>
    apply hascii
    rcases hc with rfl | rfl | rfl <;> simp
  | comment _ hend => exact hnewline hend
  | string _ hq hend =>
    rcases hend with ⟨init, rfl⟩ | hend
    · apply hascii
      intro x hx
      rw [← List.cons_append, ← List.append_assoc, List.getLast?_concat, Option.mem_some_iff] at hx
      exact hx ▸ (visible_quote hq).1
    · exact hnewline hend
  | name _ _ hend => exact fun x _ y hy => .inr (lt_of_not_isNameByte (hend y hy))
  | number _ _ hend => exact fun x _ y hy => .inr (lt_of_not_isNameByte (hend y hy))
  | @longOperator n a b ho =>
    apply hascii
    intro x hx
    obtain rfl : b = x := Option.mem_some_iff.1 hx
    have hlong : ∀ o ∈ longOperators, ∀ c ∈ o, c < 0x80 := by decide
    exact hlong _ ho b (by simp)
  | operator hname =>
    apply hascii
    intro x hx
    rw [List.getLast?_singleton, Option.mem_some_iff] at hx
    exact hx ▸ lt_of_not_isNameStart hname

theorem isSpace1_of_isDigit {c : UInt8} (h : isDigit c = true) : isSpace1 c = false := by
  simp only [isDigit, Bool.and_eq_true, decide_eq_true_eq] at h
  rw [isSpace1, Bool.or_eq_false_iff]
  constructor
  · rw [beq_eq_false_iff_ne]
    rintro rfl
    exact absurd h (by decide)
  · rw [Bool.and_eq_false_iff]
    exact .inr (decide_eq_false (UInt8.not_le.2 (UInt8.lt_of_lt_of_le (by decide) h.1)))

theorem ne_of_word {c : UInt8} (h : isNameByte c = true ∨ c = 46) : c ≠ 10 ∧ isBlank c = false := by
  constructor
  · rintro rfl
    exact absurd h (by decide)
  · rw [isBlank, Bool.or_eq_false_iff, beq_eq_false_iff_ne, beq_eq_false_iff_ne]
    constructor
    · rintro rfl
      exact absurd h (by decide)
    · rintro rfl
      exact absurd h (by decide)

/-- A token that is no string holds no end of a line and ends in no blank. -/
theorem Lexed.word_ends (h : Lexed (.token kind n) text following) (hkind : kind ≠ .string) :
    10 ∉ text ∧ ∀ c ∈ text.getLast?, isBlank c = false := by
  have hword : (∀ c ∈ text, isNameByte c = true ∨ c = 46) →
      10 ∉ text ∧ ∀ c ∈ text.getLast?, isBlank c = false := by
    intro h
    constructor
    · intro hmem
      exact (ne_of_word (h 10 hmem)).1 rfl
    · intro c hc
      exact (ne_of_word (h c (List.mem_of_getLast? hc))).2
  cases h with
  | string => exact absurd rfl hkind
  | name hc h =>
    apply hword
    intro d hd
    rcases List.mem_cons.1 hd with rfl | hd
    · exact .inl (isNameByte_of_isNameStart hc)
    · exact .inl (h d hd)
  | number hc h =>
    apply hword
    intro d hd
    rcases List.mem_cons.1 hd with rfl | hd
    · exact hc.imp_left isNameByte_of_isDigit
    · exact h d hd
  | longOperator ho =>
    have hlong : ∀ o ∈ longOperators, 10 ∉ o ∧ ∀ c ∈ o.getLast?, isBlank c = false := by
      decide +kernel
    exact hlong _ ho
  | operator _ hnewline hblank =>
    constructor
    · simpa using Ne.symm hnewline
    · simpa using hblank

/-- A string ends in a quote, or the line ends behind it. -/
theorem Lexed.string_ends (h : Lexed (.token .string n) text following) :
    (∃ init q, text = init ++ [q] ∧ (q = 34 ∨ q = 39)) ∨ ∀ c ∈ following.head?, c = 10 := by
  cases h with
  | @string _ mark _ _ q _ hq hend =>
    rcases hend with ⟨init, rfl⟩ | hend
    · exact .inl ⟨mark ++ q :: init, q, by simp, hq⟩
    · exact .inr hend

/-- The last byte of a token is no blank, or the line ends behind it. -/
theorem Lexed.last_ends (h : Lexed (.token kind n) text following) :
    (∀ x ∈ text.getLast?, isBlank x = false) ∨ ∀ x ∈ following.head?, x = 10 := by
  by_cases hkind : kind = .string
  · subst hkind
    refine h.string_ends.imp_left ?_
    rintro ⟨init, q, rfl, hq⟩ x hx
    rw [List.getLast?_concat, Option.mem_some_iff] at hx
    rcases hq with rfl | rfl
    · rw [← hx]
      decide
    · rw [← hx]
      decide
  · exact .inl (h.word_ends hkind).2

theorem Lexed.head?_ne (h : Lexed (.token kind n) text following) : ∀ c ∈ text.head?, c ≠ 10 := by
  cases h with
  | @string _ mark _ _ q hmark hq =>
    rcases mark with - | ⟨c, mark⟩
    · rcases hq with rfl | rfl <;> simp
    · have hc := (ne_of_word (.inl (hmark c (by simp)))).1
      simpa using hc
  | @name _ c _ _ hc =>
    simpa using (ne_of_word (.inl (isNameByte_of_isNameStart hc))).1
  | @number _ c _ _ hc =>
    simpa using (ne_of_word (hc.imp_left isNameByte_of_isDigit)).1
  | longOperator ho =>
    have hlong : ∀ o ∈ longOperators, ∀ c ∈ o.head?, c ≠ 10 := by decide
    exact hlong _ ho
  | operator _ hnewline => simpa using hnewline

theorem Lexed.isWhite_eq_false (h : Lexed (.token kind n) text following)
    (hkind : kind = .string ∨ kind = .number) : isWhite text = false := by
  have hvisible : ∀ c ∈ text, c < 0x80 → isSpace1 c = false → isWhite text = false := by
    intro c hc hlt hspace
    rw [← Bool.not_eq_true, isWhite_iff]
    exact fun hwhite => hwhite.notMem hlt hspace hc
  cases h with
  | @string _ _ _ _ q _ hq =>
    exact hvisible q (by simp) (visible_quote hq).1 (visible_quote hq).2
  | @number _ c _ _ hc =>
    apply hvisible c (by simp)
    · rcases hc with hc | rfl
      · exact lt_of_isDigit hc
      · decide
    · rcases hc with hc | rfl
      · exact isSpace1_of_isDigit hc
      · decide
  | name => simp at hkind
  | longOperator => simp at hkind
  | operator => simp at hkind

end

end Bindery.Listing.Python
