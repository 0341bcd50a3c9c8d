import Bindery.Text.Utf8

/-!
# Title case

The first letter of every word in upper case and the others in lower case. A word goes on over
digits, underscores and a single `.`, `:` or `'` between letters.
-/

namespace Bindery.Text

/-! ## Case of letters

The letters of the Latin, Greek, Cyrillic and Armenian alphabets. -/

/-- Whether small letters stand right after their capitals in the run that holds a code point. -/
def isPairRun (r : Nat) : Bool :=
  (0x100 ≤ r && r ≤ 0x12F) || (0x132 ≤ r && r ≤ 0x137) || (0x14A ≤ r && r ≤ 0x177)
    || (0x1DE ≤ r && r ≤ 0x1EF) || (0x1F8 ≤ r && r ≤ 0x21F) || (0x222 ≤ r && r ≤ 0x233)
    || (0x3D8 ≤ r && r ≤ 0x3EF) || (0x460 ≤ r && r ≤ 0x481) || (0x48A ≤ r && r ≤ 0x4BF)
    || (0x4D0 ≤ r && r ≤ 0x52F) || (0x1E00 ≤ r && r ≤ 0x1E95) || (0x1EA0 ≤ r && r ≤ 0x1EFF)

/-- Whether small letters have odd code points in the run before their capitals' successors: here
capitals are odd and small letters even. -/
def isShiftedPairRun (r : Nat) : Bool :=
  (0x139 ≤ r && r ≤ 0x148) || (0x179 ≤ r && r ≤ 0x17E) || (0x1CD ≤ r && r ≤ 0x1DC)
    || (0x4C1 ≤ r && r ≤ 0x4CE)

/-- The capital of a letter. -/
def upperRune (r : Nat) : Nat :=
  if 97 ≤ r ∧ r ≤ 122 then r - 32
  else if r < 0x80 then r
  else if 0xE0 ≤ r ∧ r ≤ 0xFE ∧ r ≠ 0xF7 then r - 32
  else if r = 0xFF then 0x178
  else if r = 0xB5 then 0x39C
  else if r = 0x131 then 73
  else if r = 0x17F then 83
  else if isPairRun r then (if r % 2 = 1 then r - 1 else r)
  else if isShiftedPairRun r then (if r % 2 = 0 then r - 1 else r)
  else if r = 0x3AC then 0x386
  else if 0x3AD ≤ r ∧ r ≤ 0x3AF then r - 37
  else if r = 0x3C2 then 0x3A3
  else if 0x3B1 ≤ r ∧ r ≤ 0x3CB then r - 32
  else if r = 0x3CC then 0x38C
  else if r = 0x3CD ∨ r = 0x3CE then r - 63
  else if 0x430 ≤ r ∧ r ≤ 0x44F then r - 32
  else if 0x450 ≤ r ∧ r ≤ 0x45F then r - 80
  else if 0x561 ≤ r ∧ r ≤ 0x586 then r - 48
  else if 0xFF41 ≤ r ∧ r ≤ 0xFF5A then r - 32
  else r

/-- The small form of a letter. -/
def lowerRune (r : Nat) : Nat :=
  if 65 ≤ r ∧ r ≤ 90 then r + 32
  else if r < 0x80 then r
  else if 0xC0 ≤ r ∧ r ≤ 0xDE ∧ r ≠ 0xD7 then r + 32
  else if r = 0x178 then 0xFF
  else if r = 0x130 then 0x69
  else if isPairRun r then (if r % 2 = 0 then r + 1 else r)
  else if isShiftedPairRun r then (if r % 2 = 1 then r + 1 else r)
  else if r = 0x386 then 0x3AC
  else if 0x388 ≤ r ∧ r ≤ 0x38A then r + 37
  else if 0x391 ≤ r ∧ r ≤ 0x3AB ∧ r ≠ 0x3A2 then r + 32
  else if r = 0x38C then 0x3CC
  else if r = 0x38E ∨ r = 0x38F then r + 63
  else if 0x410 ≤ r ∧ r ≤ 0x42F then r + 32
  else if 0x400 ≤ r ∧ r ≤ 0x40F then r + 80
  else if 0x531 ≤ r ∧ r ≤ 0x556 then r + 48
  else if r = 0x212A then 107
  else if r = 0x212B then 0xE5
  else if r = 0x2126 then 0x3C9
  else if 0xFF21 ≤ r ∧ r ≤ 0xFF3A then r + 32
  else r

/-- Whether a code point is a letter with case. -/
def isCased (r : Nat) : Bool := upperRune r != r || lowerRune r != r || r == 0xDF

def lower (s : Bytes) : Bytes :=
  (runes s).flatMap fun (r, source) => if lowerRune r = r then source else encodeRune (lowerRune r)

/-! ## Words -/

/-- What a code point does to the word it stands in. -/
inductive WordRole where
  | letter
  /-- Goes on with the word. -/
  | inner
  /-- Goes on with the word, unless two such stand in a row. -/
  | joint
  /-- Ends the word. -/
  | separator
  deriving DecidableEq, Repr

/-- The role of a code point in a word. -/
def wordRole (r : Nat) : WordRole :=
  if isCased r then .letter
  else if r = 0x2E ∨ r = 0x3A ∨ r = 0x27 ∨ r = 0xB7 ∨ r = 0x2018 ∨ r = 0x2019 ∨ r = 0x2024 then .joint
  else if r = 0x5F ∨ (48 ≤ r ∧ r ≤ 57) then .inner
  else if r < 0xAA then .separator
  else if r = 0xAA ∨ r = 0xBA then .inner
  else if r < 0xC0 ∨ r = 0xD7 ∨ r = 0xF7 then .separator
  else if (0x2000 ≤ r && r ≤ 0x206F) || (0x2190 ≤ r && r ≤ 0x2BFF) || (0x3000 ≤ r && r ≤ 0x3004)
      || (0x3008 ≤ r && r ≤ 0x3020) then .separator
  else .inner

def titleLetter (r : Nat) : Bytes :=
  if r = 0xDF then "Ss" else encodeRune (upperRune r)

/-- Whether no letter of the word follows, past joints and marks that are set on letters. -/
def endsWord (rest : List (Nat × Bytes)) : Bool :=
  let isSet (r : Nat) : Bool := wordRole r = .joint || (0x300 ≤ r && r ≤ 0x36F)
  !(rest.dropWhile fun (r, _) => isSet r).head?.any fun (r, _) => isCased r

/-- The small form of a letter inside a word; a sigma at the end of a word has a form of its own. -/
def innerLetter (r : Nat) (source : Bytes) (rest : List (Nat × Bytes)) : Bytes :=
  if r = 0xDF then source
  else if r = 0x3A3 ∧ endsWord rest then encodeRune 0x3C2
  else encodeRune (lowerRune r)

/-- Title case from a place on: `inside` says that the letters of a word have begun, `joined` that
the code point before was a joint. -/
def titleFrom (inside joined : Bool) : List (Nat × Bytes) → Bytes
  | [] => []
  | (r, source) :: rest =>
    match wordRole r with
    | .letter =>
      (if inside then innerLetter r source rest else titleLetter r) ++ titleFrom true false rest
    | .inner => source ++ titleFrom inside false rest
    | .joint => source ++ titleFrom (inside && !joined) true rest
    | .separator => source ++ titleFrom false false rest

def title (s : Bytes) : Bytes := titleFrom false false (runes s)

end Bindery.Text
