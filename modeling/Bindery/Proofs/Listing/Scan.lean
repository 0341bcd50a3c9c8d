import Bindery.Proofs.Listing.Offset
import Bindery.Proofs.Listing.Token

/-!
# Offsets of the tokeniser

A source can also be cut into tokens by offsets alone. `State.runAt?` does this with slices that exist only
between offsets in order and within the source, and with bytes that exist only there; all of them do, and it
finds the same (`State.runAt?_eq`).
-/

namespace Bindery.Listing.Python

open Text

/-! ## Strings -/

/-- Where a string ends that is read from an offset behind its opening quotes. A backslash jumps over the next
byte, if need be beyond the end of the source. -/
def stringStop? (source : Bytes) (quote : UInt8) (triple : Bool) (j : Nat) : Option Nat :=
  if h : j < source.length then
    if source[j] = '\\' then stringStop? source quote triple (j + 2)
    else do
      let after ← slice? source j source.length
      if triple && [quote, quote, quote].isPrefixOf after then some (j + 3)
      else if !triple && source[j] == quote then some (j + 1)
      else if !triple && source[j] == '\n' then some j
      else stringStop? source quote triple (j + 1)
  else some source.length
termination_by source.length - j

/-- Where the string ends whose opening quotes stand at an offset. -/
def stringEnd? (source : Bytes) (i : Nat) : Option Nat := do
  let quote ← source[i]?
  let after ← slice? source i source.length
  if [quote, quote, quote].isPrefixOf after then stringStop? source quote true (i + 3)
  else stringStop? source quote false (i + 1)

section

variable {source rest : Bytes} {c q : UInt8} {i j : Nat}

theorem getElem?_of_drop (h : source.drop i = rest) (n : Nat) : source[i + n]? = rest[n]? := by
  rw [← h, List.getElem?_drop]

theorem slice?_drop (hi : i ≤ source.length) (h : source.drop i = rest) :
    slice? source i source.length = some rest := by
  rw [slice?_to_end hi, h]

theorem slice?_take {n : Nat} (h : source.drop i = rest) (hi : i ≤ source.length) (hn : n ≤ rest.length) :
    slice? source i (i + n) = some (rest.take n) := by
  have hlength := congrArg List.length h
  rw [List.length_drop] at hlength
  rw [slice?, if_pos ⟨by omega, by omega⟩, List.drop_take, h, Nat.add_sub_cancel_left]

theorem stringStop?_of_le (quote : UInt8) (triple : Bool) (h : source.length ≤ j) :
    stringStop? source quote triple j = some source.length := by
  rw [stringStop?, dif_neg (Nat.not_lt.2 h)]

theorem stringStop?_of_drop (quote : UInt8) (triple : Bool) (h : source.drop j = c :: rest) :
    stringStop? source quote triple j =
      if c = '\\' then stringStop? source quote triple (j + 2)
      else if triple && [quote, quote, quote].isPrefixOf (c :: rest) then some (j + 3)
      else if !triple && c == quote then some (j + 1)
      else if !triple && c == '\n' then some j
      else stringStop? source quote triple (j + 1) := by
  have hj := lt_of_drop_eq_cons h
  rw [stringStop?, dif_pos hj, getElem_of_drop h hj, slice?_drop hj.le h]
  rfl

theorem stringTail_le (quote : UInt8) (triple : Bool) (s : Bytes) : stringTail quote triple s ≤ s.length := by
  fun_induction stringTail quote triple s with
  | case1 => exact Nat.zero_le _
  | case2 => exact Nat.le_refl _
  | case3 d rest ih => exact Nat.add_le_add_right ih 2
  | case4 c rest _ htriple => exact (List.isPrefixOf_iff_prefix.1 (Bool.and_eq_true _ _ ▸ htriple).2).length_le
  | case5 => exact Nat.succ_le_succ (Nat.zero_le _)
  | case6 => exact Nat.zero_le _
  | case7 c rest _ _ _ _ ih => exact Nat.succ_le_succ ih

theorem stringWidth_le (quote : UInt8) (rest : Bytes) : stringWidth quote rest ≤ rest.length := by
  rw [stringWidth]
  split
  · next hquotes =>
    have htail := stringTail_le quote true (rest.drop 2)
    have hlong := (List.isPrefixOf_iff_prefix.1 hquotes).length_le
    rw [List.length_drop] at htail
    simp only [List.length_cons, List.length_nil] at hlong
    omega
  · exact stringTail_le quote false rest

theorem firstLexeme_le (c : UInt8) (rest : Bytes) : (firstLexeme c rest).more ≤ rest.length := by
  have htake : ∀ p : UInt8 → Bool, (rest.takeWhile p).length ≤ rest.length := fun p =>
    (List.takeWhile_prefix p).length_le
  generalize hlexeme : firstLexeme c rest = lexeme
  cases hlexeme ▸ begins_firstLexeme c rest with
  | newline | continuation | blank | operator => exact Nat.zero_le _
  | comment | name | number => exact htake _
  | string => exact stringWidth_le c rest
  | @markedString _ q after hafter =>
    have hlength := congrArg List.length hafter
    have hwidth := stringWidth_le q after
    rw [List.length_drop, List.length_cons] at hlength
    dsimp only [Lexeme.more]
    omega
  | longOperator _ hrest =>
    rw [hrest]
    exact Nat.succ_le_succ (Nat.zero_le _)

theorem stringStop?_eq {quote : UInt8} {triple : Bool} (s : Bytes) (hj : j ≤ source.length)
    (h : source.drop j = s) : stringStop? source quote triple j = some (j + stringTail quote triple s) := by
  fun_induction stringTail quote triple s generalizing j with
  | case1 =>
    have hend := List.drop_eq_nil_iff.1 h
    rw [stringStop?_of_le _ _ hend]
    exact congrArg some (Nat.le_antisymm hend hj)
  | case2 =>
    -- The jump over the byte behind the backslash ends beyond the source.
    have hlength := congrArg List.length h
    rw [List.length_drop, List.length_singleton] at hlength
    rw [stringStop?_of_drop _ _ h, if_pos rfl, stringStop?_of_le _ _ (by omega)]
    exact congrArg some (by omega)
  | case3 d rest ih =>
    have hbehind : source.drop (j + 2) = rest := drop_succ_of_drop h 1
    have hlength := congrArg List.length h
    rw [List.length_drop, List.length_cons, List.length_cons] at hlength
    rw [stringStop?_of_drop _ _ h, if_pos rfl, ih (by omega) hbehind]
    exact congrArg some (by omega)
  | case4 c rest hescape htriple =>
    rw [stringStop?_of_drop _ _ h, if_neg hescape, if_pos htriple]
  | case5 c rest hescape htriple hquote =>
    rw [stringStop?_of_drop _ _ h, if_neg hescape, if_neg htriple, if_pos hquote]
  | case6 c rest hescape htriple hquote hnewline =>
    rw [stringStop?_of_drop _ _ h, if_neg hescape, if_neg htriple, if_neg hquote]
    exact if_pos hnewline
  | case7 c rest hescape htriple hquote hnewline ih =>
    have hbehind : source.drop (j + 1) = rest := drop_succ_of_drop h 0
    rw [stringStop?_of_drop _ _ h, if_neg hescape, if_neg htriple, if_neg hquote]
    rw [if_neg hnewline, ih (lt_of_drop_eq_cons h) hbehind]
    exact congrArg some (by omega)

theorem stringEnd?_eq (h : source.drop i = q :: rest) :
    stringEnd? source i = some (i + 1 + stringWidth q rest) := by
  have hi := lt_of_drop_eq_cons h
  have hquote : source[i]? = some q := getElem?_of_drop h 0
  have htriple : [q, q, q].isPrefixOf (q :: rest) = [q, q].isPrefixOf rest := by
    rw [List.isPrefixOf, BEq.rfl, Bool.true_and]
  rw [stringEnd?, hquote, slice?_drop hi.le h, stringWidth]
  simp only [Option.bind_eq_bind, Option.bind_some, htriple]
  split
  · next hquotes =>
    obtain ⟨t, rfl⟩ := List.isPrefixOf_iff_prefix.1 hquotes
    have hlength := congrArg List.length h
    simp only [List.length_drop, List.length_cons, List.length_append, List.length_nil] at hlength
    have hbehind : source.drop (i + 3) = t := drop_succ_of_drop h 2
    have hdrop : ([q, q] ++ t).drop 2 = t := rfl
    rw [stringStop?_eq t (by omega) hbehind]
    exact congrArg some (by rw [hdrop]; omega)
  · exact stringStop?_eq rest hi (drop_succ_of_drop h 0)

/-! ## Lexemes -/

/-- A lexeme from one offset up to another. -/
def ending (lexeme : Nat → Lexeme) (start stop : Nat) : Lexeme × Nat := (lexeme (stop - start - 1), stop)

/-- The lexeme at an offset, and where it ends. -/
def lexemeAt? (source : Bytes) (i : Nat) : Option (Lexeme × Nat) := do
  let c ← source[i]?
  if c = '\n' then some (.newline, i + 1)
  else if c = '\\' ∧ source[i + 1]? = some 10 then some (.continuation, i + 1)
  else if isBlank c || c == '\r' then some (.blank, i + 1)
  else if c = '#' then do
    let after ← slice? source i source.length
    some (ending .comment i (i + (after.takeWhile (!isNewline ·)).length))
  else if c = '"' ∨ c = '\'' then do
    let stop ← stringEnd? source i
    some (ending (.token .string) i stop)
  else if isNameStart c then do
    let after ← slice? source (i + 1) source.length
    let j := i + 1 + (after.takeWhile isNameByte).length
    let name ← slice? source i j
    match source[j]? with
    | some q =>
      if (q = '"' ∨ q = '\'') ∧ isStringMark name then do
        let stop ← stringEnd? source j
        some (ending (.token .string) i stop)
      else some (ending (.token .name) i j)
    | none => some (ending (.token .name) i j)
  else if isDigit c || (c == '.' && (source[i + 1]?.map isDigit).getD false) then do
    let after ← slice? source (i + 1) source.length
    some (ending (.token .number) i (i + 1 + (after.takeWhile fun c => isNameByte c || c == '.').length))
  else do
    let after ← slice? source i source.length
    if longOperators.any fun o => o.isPrefixOf after then some (ending (.token .operator) i (i + 2))
    else some (ending (.token .operator) i (i + 1))

theorem ending_eq (lexeme : Nat → Lexeme) (i n : Nat) :
    ending lexeme i (i + 1 + n) = (lexeme n, i + 1 + n) := by
  rw [ending]
  congr 2
  omega

theorem slice?_run (h : source.drop i = c :: rest) (p : UInt8 → Bool) :
    slice? source i (i + 1 + (rest.takeWhile p).length) = some (c :: rest.takeWhile p) := by
  have hlong : (rest.takeWhile p).length ≤ rest.length := (List.takeWhile_prefix _).length_le
  have htake := slice?_take h (lt_of_drop_eq_cons h).le (Nat.succ_le_succ hlong)
  rwa [List.take_succ_cons, take_length_takeWhile, Nat.succ_eq_add_one, Nat.add_comm _ 1,
    ← Nat.add_assoc] at htake

theorem lexemeAt?_eq (h : source.drop i = c :: rest) :
    lexemeAt? source i = some (firstLexeme c rest, i + 1 + (firstLexeme c rest).more) := by
  have hi := lt_of_drop_eq_cons h
  have hbyte : source[i]? = some c := getElem?_of_drop h 0
  have hbehind : source.drop (i + 1) = rest := drop_succ_of_drop h 0
  have hnext : source[i + 1]? = rest.head? := by
    rw [List.head?_eq_getElem?]
    exact getElem?_of_drop hbehind 0
  have hall := slice?_drop hi.le h
  have hrest := slice?_drop hi hbehind
  -- Both sides ask the same in the same order; only the ends are reckoned in two ways.
  rw [lexemeAt?, hbyte, firstLexeme]
  simp only [Option.bind_eq_bind, Option.bind_some, hnext, hall, hrest]
  by_cases hnewline : c = '\n'
  · rw [if_pos hnewline, if_pos hnewline]
    rfl
  rw [if_neg hnewline, if_neg hnewline]
  by_cases hcontinuation : c = '\\' ∧ rest.head? = some 10
  · rw [if_pos hcontinuation, if_pos hcontinuation]
    rfl
  rw [if_neg hcontinuation, if_neg hcontinuation]
  by_cases hblank : (isBlank c || c == '\r') = true
  · rw [if_pos hblank, if_pos hblank]
    rfl
  rw [if_neg hblank, if_neg hblank]
  by_cases hcomment : c = '#'
  · have hline : (c :: rest).takeWhile (!isNewline ·) = c :: rest.takeWhile (!isNewline ·) := by
      rw [hcomment]
      rfl
    rw [if_pos hcomment, if_pos hcomment, hline, List.length_cons, Nat.add_comm _ 1, ← Nat.add_assoc, ending_eq]
    rfl
  rw [if_neg hcomment, if_neg hcomment]
  by_cases hquote : c = '"' ∨ c = '\''
  · rw [if_pos hquote, if_pos hquote, stringEnd?_eq h, Option.bind_some, ending_eq]
    rfl
  rw [if_neg hquote, if_neg hquote]
  by_cases hname : isNameStart c = true
  · rw [if_pos hname, if_pos hname]
    have hword := slice?_run h isNameByte
    generalize rest.takeWhile isNameByte = more at hword ⊢
    have hdrop : source.drop (i + 1 + more.length) = rest.drop more.length := by
      rw [← List.drop_drop, hbehind]
    rw [hword, Option.bind_some, ← Nat.add_zero (i + 1 + more.length), getElem?_of_drop hdrop 0, Nat.add_zero]
    cases hafter : rest.drop more.length with
    | nil => exact congrArg some (ending_eq _ i more.length)
    | cons q after =>
      have hstring := stringEnd?_eq (hdrop.trans hafter)
      have hsum : i + 1 + more.length + 1 + stringWidth q after =
          i + 1 + (more.length + 1 + stringWidth q after) := by omega
      dsimp only [List.getElem?_cons_zero]
      split
      · rw [hstring, Option.bind_some, hsum, ending_eq]
        rfl
      · exact congrArg some (ending_eq _ i more.length)
  rw [if_neg hname, if_neg hname]
  by_cases hdigit : (isDigit c || (c == '.' && (rest.head?.map isDigit).getD false)) = true
  · rw [if_pos hdigit, if_pos hdigit, ending_eq]
    rfl
  rw [if_neg hdigit, if_neg hdigit]
  split
  · exact congrArg some (ending_eq _ i 1)
  · exact congrArg some (ending_eq _ i 0)

/-! ## The run of the tokeniser -/

/-- Runs the tokeniser over a source by offsets. -/
def State.runAt? (source : Bytes) (s : State) : Option State :=
  if h : s.offset < source.length then do
    let (lexeme, stop) ← lexemeAt? source s.offset
    let text ← slice? source s.offset stop
    State.runAt? source (s.step source[s.offset] text.tail lexeme)
  else some s
termination_by source.length - s.offset
decreasing_by
  rw [offset_step, List.length_cons]
  omega

/-- **Every offset of the tokeniser is in its range**, and the tokens that it finds by them are the same. -/
theorem State.runAt?_eq (s : State) (hs : s.offset ≤ source.length) (h : source.drop s.offset = rest) :
    State.runAt? source s = some (s.run rest) := by
  fun_induction State.run s rest with
  | case1 s =>
    rw [State.runAt?, dif_neg (Nat.not_lt.2 (List.drop_eq_nil_iff.1 h))]
  | case2 s c rest lexeme ih =>
    have hoffset := lt_of_drop_eq_cons h
    have hmore : lexeme.more ≤ rest.length := firstLexeme_le c rest
    have hlength := congrArg List.length h
    rw [List.length_drop, List.length_cons] at hlength
    have htext : slice? source s.offset (s.offset + 1 + lexeme.more) = some (c :: rest.take lexeme.more) := by
      have htake := slice?_take h hs (Nat.succ_le_succ hmore)
      rwa [List.take_succ_cons, Nat.succ_eq_add_one, Nat.add_comm _ 1, ← Nat.add_assoc] at htake
    have hstep : s.step c (rest.take lexeme.more) lexeme = s.step c rest lexeme := by
      unfold State.step
      rw [List.take_take, Nat.min_self]
    have hnext : (s.step c rest lexeme).offset = s.offset + lexeme.more + 1 := by
      rw [offset_step, List.length_cons, List.length_take, Nat.min_eq_left hmore]
      rfl
    rw [State.runAt?, dif_pos hoffset, lexemeAt?_eq h]
    simp only [Option.bind_eq_bind, Option.bind_some]
    rw [htext]
    simp only [Option.bind_some, List.tail_cons, getElem_of_drop h hoffset]
    rw [hstep]
    exact ih (by omega) (by rw [hnext]; exact drop_succ_of_drop h _)

end

end Bindery.Listing.Python
