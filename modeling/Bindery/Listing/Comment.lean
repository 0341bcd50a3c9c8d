import Bindery.Listing.Selection

/-!
# Comments of brace languages

A source of a brace language is cut from left to right into line comments, block comments, literals
and single bytes. Leaving out the comments keeps the literals as they are, keeps apart what only a
comment separated, and drops a line that held nothing but a comment.
-/

namespace Bindery.Listing

open Text

/-- A piece of a source. -/
inductive Piece where
  /-- The end of a line. -/
  | newline
  /-- A comment up to the end of its line. -/
  | lineComment (text : Bytes)
  /-- A comment between its two signs, or up to the end of the source. -/
  | blockComment (text : Bytes)
  /-- A string or character literal. -/
  | literal (text : Bytes)
  /-- Any other byte. -/
  | byte (c : UInt8)
  deriving DecidableEq, Repr

/-- How many bytes a string literal takes after its opening quote. A backslash escapes the next
byte, except in raw strings, which also go on over the ends of lines. -/
def stringTail (quote : UInt8) : Bytes → Nat
  | [] => 0
  | c :: rest =>
    if c = '\\' ∧ quote ≠ '\x60' then
      match rest with
      | [] => 1
      | _ :: rest => stringTail quote rest + 2
    else if c = quote then 1
    else if c = '\n' ∧ quote ≠ '\x60' then 0
    else stringTail quote rest + 1

/-- How many bytes a character literal takes after its opening quote, if it closes on its line
within a few bytes. -/
def charTail? : Nat → Bytes → Option Nat
  | 0, _ => none
  | _, [] => none
  | budget + 1, c :: rest =>
    if c = '\\' then
      match budget, rest with
      | budget + 1, _ :: rest => (charTail? budget rest).map (· + 2)
      | _, _ => none
    else if c = '\'' then some 1
    else if c = '\n' then none
    else (charTail? budget rest).map (· + 1)

/-- The first piece of a source and how many bytes it takes after the first. -/
def firstPiece (raw : Bool) (c : UInt8) (rest : Bytes) : Piece × Nat :=
  let take (n : Nat) : Bytes := c :: rest.take n
  if c = '\n' then (.newline, 0)
  else if c = '/' ∧ rest.head? = some '/' then
    let n := (rest.takeWhile (!isNewline ·)).length
    (.lineComment (take n), n)
  else if c = '/' ∧ rest.head? = some '*' then
    let n :=
      match cut? (bytes "*/") (rest.drop 1) with
      | some (inside, _) => inside.length + 3
      | none => rest.length
    (.blockComment (take n), n)
  else if c = '"' ∨ (c = '\x60' ∧ raw) then
    let n := stringTail c rest
    (.literal (take n), n)
  else if c = '\'' then
    -- A quote that nothing closes, as that of a lifetime, is a piece of its own.
    let n := (charTail? 11 rest).getD 0
    (.literal (take n), n)
  else (.byte c, 0)

/-- A source cut into its pieces. -/
def pieces (raw : Bool) : Bytes → List Piece
  | [] => []
  | c :: rest =>
    let (piece, n) := firstPiece raw c rest
    piece :: pieces raw (rest.drop n)
termination_by s => s.length
decreasing_by simp only [List.length_drop, List.length_cons]; omega

/-- Whether a byte separates words on a line or lines from each other. -/
def isSeparator (c : UInt8) : Bool := isBlank c || c == '\n'

/-- Leaves out the comments of a source. `out` holds the finished lines and `line` what was written
of the present one. -/
def stripCommentsFrom (raw : Bool) (out line : Bytes) : Bytes → Bytes
  | [] => out ++ line
  | c :: rest =>
    let (piece, n) := firstPiece raw c rest
    let after := rest.drop n
    match piece with
    | .newline => stripCommentsFrom raw (out ++ line ++ [10]) [] after
    | .lineComment _ =>
      -- A line with nothing but a comment goes as a whole.
      if isWhite line then stripCommentsFrom raw out [] (after.drop 1)
      else stripCommentsFrom raw out (trimEnd isBlank line) after
    | .blockComment text =>
      let tail := after.takeWhile (!isNewline ·)
      if isWhite line && isWhite tail then
        stripCommentsFrom raw out [] (after.drop (tail.length + 1))
      else
        -- Line feeds of the comment stay where something else stands on its lines.
        let count := newlines text
        let (out, line) :=
          if count = 0 then (out, line)
          else (out ++ trimEnd isBlank line ++ List.replicate count 10, [])
        -- A comment parts words; where nothing else does, a blank takes its place.
        let apart :=
          match line.getLast?, after.head? with
          | some a, some b => !isSeparator a && !isSeparator b
          | _, _ => false
        stripCommentsFrom raw out (if apart then line ++ [32] else line) after
    | .literal text => stripCommentsFrom raw out (line ++ text) after
    | .byte c => stripCommentsFrom raw out (line ++ [c]) after
termination_by s => s.length
decreasing_by all_goals simp only [List.length_drop, List.length_cons]; omega

def stripComments (raw : Bool) (source : Bytes) : Bytes := stripCommentsFrom raw [] [] source

end Bindery.Listing
