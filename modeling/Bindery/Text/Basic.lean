/-!
# Byte texts

Documents, listings, paths and messages are sequences of bytes. Positions in them count bytes, and a
text need not be valid UTF-8, so the list of bytes is the working type of the whole library. This
module holds the cutting, joining and searching that the other modules share.
-/

namespace Bindery

/-- A text as the list of its bytes. -/
abbrev Bytes := List UInt8

namespace Text

/-- The UTF-8 bytes of a string. -/
def bytes (s : String) : Bytes := s.toUTF8.data.toList

instance coeString : Coe String (List UInt8) := ⟨bytes⟩

instance coeChar : Coe Char UInt8 := ⟨Char.toUInt8⟩

/-- The string with these bytes; bytes that are not UTF-8 give the empty string. -/
def toString? (s : Bytes) : Option String := String.fromUTF8? ⟨s.toArray⟩

/-! ## Classes of bytes -/

/-- An ASCII letter. -/
def isLetter (c : UInt8) : Bool := ('a' ≤ c && c ≤ 'z') || ('A' ≤ c && c ≤ 'Z')

def isDigit (c : UInt8) : Bool := '0' ≤ c && c ≤ '9'

/-- A letter, a digit or an underscore. -/
def isWord (c : UInt8) : Bool := isLetter c || isDigit c || c == '_'

/-- A space or a tab. -/
def isBlank (c : UInt8) : Bool := c == ' ' || c == '\t'

def isNewline (c : UInt8) : Bool := c == '\n'

/-- A space, tab, line feed or carriage return. -/
def isGap (c : UInt8) : Bool := isBlank c || c == '\n' || c == '\r'

/-- A hexadecimal digit. -/
def isHexDigit (c : UInt8) : Bool :=
  isDigit c || ('a' ≤ c && c ≤ 'f') || ('A' ≤ c && c ≤ 'F')

/-- The value of a hexadecimal digit, and 0 for any other byte. -/
def hexValue (c : UInt8) : Nat :=
  if isDigit c then (c - '0').toNat
  else if 'a' ≤ c && c ≤ 'f' then (c - 'a').toNat + 10
  else if 'A' ≤ c && c ≤ 'F' then (c - 'A').toNat + 10
  else 0

/-- The lower-case form of an ASCII letter; other bytes are kept. -/
def lowerByte (c : UInt8) : UInt8 := if 'A' ≤ c && c ≤ 'Z' then c + 32 else c

/-- The upper-case form of an ASCII letter; other bytes are kept. -/
def upperByte (c : UInt8) : UInt8 := if 'a' ≤ c && c ≤ 'z' then c - 32 else c

/-! ## Deciding about the bytes of a text

With all 256 bytes in sight as a finite type, a statement about the bytes of a text would be decided by
trying every one of them. These instances look at the bytes that are there. -/

instance decidableForallMem (p : UInt8 → Prop) [DecidablePred p] (s : Bytes) : Decidable (∀ c ∈ s, p c) :=
  List.decidableBAll p s

instance decidableExistsMem (p : UInt8 → Prop) [DecidablePred p] (s : Bytes) : Decidable (∃ c ∈ s, p c) :=
  List.decidableBEx p s

instance decidableForallMem? (p : UInt8 → Prop) [DecidablePred p] (c : Option UInt8) :
    Decidable (∀ d ∈ c, p d) :=
  Option.decidableForallMem c

/-! ## Numbers in text -/

def ofNat (n : Nat) : Bytes := (Nat.toDigits 10 n).map Char.toUInt8

/-- An integer in decimal, with a minus sign when it is negative. -/
def ofInt (n : Int) : Bytes :=
  match n with
  | .ofNat n => ofNat n
  | .negSucc n => 45 :: ofNat (n + 1)

/-- A number in lower-case hexadecimal. -/
def ofNatHex (n : Nat) : Bytes := (Nat.toDigits 16 n).map Char.toUInt8

/-- Fills a text with leading zeros up to a width. -/
def padZeros (width : Nat) (s : Bytes) : Bytes := List.replicate (width - s.length) 48 ++ s

/-! ## Ends of a text -/

/-- Drops the bytes of a class from the end. -/
def trimEnd (p : UInt8 → Bool) (s : Bytes) : Bytes := (s.reverse.dropWhile p).reverse

/-- Drops the bytes of a class from both ends. -/
def trimBoth (p : UInt8 → Bool) (s : Bytes) : Bytes := trimEnd p (s.dropWhile p)

/-- The text without a given beginning, if it has that beginning. -/
def afterStart? (start s : Bytes) : Option Bytes := start.isPrefixOf? s

/-- The text without a given ending, if it has that ending. -/
def beforeEnd? (ending s : Bytes) : Option Bytes :=
  (ending.reverse.isPrefixOf? s.reverse).map List.reverse

def startsWith (start s : Bytes) : Bool := start.isPrefixOf s

def endsWith (ending s : Bytes) : Bool := ending.reverse.isPrefixOf s.reverse

/-- The text without a given ending where it has one, and the text itself otherwise. -/
def withoutEnd (ending s : Bytes) : Bytes := (beforeEnd? ending s).getD s

/-- The text without a given beginning where it has one, and the text itself otherwise. -/
def withoutStart (start s : Bytes) : Bytes := (afterStart? start s).getD s

/-! ## Searching -/

/-- Cuts a text around the first place where a pattern stands. -/
def cut? (pattern : Bytes) : Bytes → Option (Bytes × Bytes)
  | [] => if pattern.isEmpty then some ([], []) else none
  | c :: rest =>
    match pattern.isPrefixOf? (c :: rest) with
    | some after => some ([], after)
    | none => (cut? pattern rest).map fun (before, after) => (c :: before, after)

def contains (pattern s : Bytes) : Bool := (cut? pattern s).isSome

/-- Cuts a text around the first occurrence of a byte. -/
def cutByte? (sep : UInt8) : Bytes → Option (Bytes × Bytes)
  | [] => none
  | c :: rest =>
    if c = sep then some ([], rest)
    else (cutByte? sep rest).map fun (before, after) => (c :: before, after)

/-- Cuts a text around the last occurrence of a byte. -/
def cutLastByte? (sep : UInt8) (s : Bytes) : Option (Bytes × Bytes) :=
  (cutByte? sep s.reverse).map fun (after, before) => (before.reverse, after.reverse)

/-- Replaces every occurrence of a non-empty pattern, from left to right. The bound is spent by one
at each byte, so the length of the text suffices. -/
def replaceWithin (pattern new : Bytes) : Nat → Bytes → Bytes
  | 0, s => s
  | _ + 1, [] => []
  | bound + 1, c :: rest =>
    match pattern.isPrefixOf? (c :: rest) with
    | some after => new ++ replaceWithin pattern new bound after
    | none => c :: replaceWithin pattern new bound rest

/-- Replaces every occurrence of a pattern; an empty pattern changes nothing. -/
def replaceAll (pattern new s : Bytes) : Bytes :=
  if pattern.isEmpty then s else replaceWithin pattern new s.length s

/-! ## Splitting and joining -/

/-- The pieces between the occurrences of a byte, one more than there are occurrences. -/
def splitOn (sep : UInt8) : Bytes → List Bytes
  | [] => [[]]
  | c :: rest =>
    match splitOn sep rest with
    | [] => [[c]]
    | first :: more => if c = sep then [] :: first :: more else (c :: first) :: more

/-- The pieces joined with a separator between them. -/
def joinWith (sep : Bytes) : List Bytes → Bytes
  | [] => []
  | [piece] => piece
  | piece :: more => piece ++ sep ++ joinWith sep more

/-- The lines of a text, without their line feeds. -/
def lines (s : Bytes) : List Bytes := splitOn 10 s

def unlines (ls : List Bytes) : Bytes := joinWith [10] ls

/-- How many line feeds a text holds. -/
def newlines (s : Bytes) : Nat := s.count 10

/-- The byte-wise order of texts. -/
def le (a b : Bytes) : Bool := a ≤ b

def sort (texts : List Bytes) : List Bytes := texts.mergeSort le

end Text

end Bindery
