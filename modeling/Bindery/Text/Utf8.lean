import Bindery.Text.Basic

/-!
# Code points in byte texts

Reading a byte text as UTF-8, one code point at a time. A byte that starts no well-formed encoding is
read alone as the replacement character, so every text can be read and every step consumes a byte.
-/

namespace Bindery.Text

/-- The code point that stands for an undecodable byte. -/
def replacement : Nat := 0xFFFD

/-- The code point at the start of a text, and how many bytes it takes. -/
def firstRune : Bytes → Nat × Nat
  | [] => (replacement, 0)
  | a :: rest =>
    let continues (c : UInt8) (lo hi : UInt8) : Bool := lo ≤ c && c ≤ hi
    let low (c : UInt8) : Nat := c.toNat % 64
    if a < 0x80 then (a.toNat, 1)
    else if a < 0xC2 then (replacement, 1)
    else if a < 0xE0 then
      match rest with
      | b :: _ => if continues b 0x80 0xBF then (a.toNat % 32 * 64 + low b, 2) else (replacement, 1)
      | [] => (replacement, 1)
    else if a < 0xF0 then
      -- Neither longer forms than needed nor surrogates are characters.
      let lo := if a = 0xE0 then 0xA0 else 0x80
      let hi := if a = 0xED then 0x9F else 0xBF
      match rest with
      | b :: c :: _ =>
        if continues b lo hi && continues c 0x80 0xBF then
          (a.toNat % 16 * 4096 + low b * 64 + low c, 3)
        else (replacement, 1)
      | _ => (replacement, 1)
    else if a < 0xF5 then
      -- Nothing lies beyond 0x10FFFF.
      let lo := if a = 0xF0 then 0x90 else 0x80
      let hi := if a = 0xF4 then 0x8F else 0xBF
      match rest with
      | b :: c :: d :: _ =>
        if continues b lo hi && continues c 0x80 0xBF && continues d 0x80 0xBF then
          (a.toNat % 8 * 262144 + low b * 4096 + low c * 64 + low d, 4)
        else (replacement, 1)
      | _ => (replacement, 1)
    else (replacement, 1)

/-- The UTF-8 encoding of a code point; surrogates and numbers beyond the last code point give the
replacement character. -/
def encodeRune (r : Nat) : Bytes :=
  let tail (n : Nat) : UInt8 := (0x80 + n % 64).toUInt8
  if r < 0x80 then [r.toUInt8]
  else if r < 0x800 then [(0xC0 + r / 64).toUInt8, tail r]
  else if (0xD800 ≤ r && r < 0xE000) || r ≥ 0x110000 then [0xEF, 0xBF, 0xBD]
  else if r < 0x10000 then [(0xE0 + r / 4096).toUInt8, tail (r / 64), tail r]
  else [(0xF0 + r / 262144).toUInt8, tail (r / 4096), tail (r / 64), tail r]

/-- Cuts a text into its code points, each with the bytes it was read from. `skip` counts the bytes
that still belong to the code point read last. -/
def runesAfter : Nat → Bytes → List (Nat × Bytes)
  | _, [] => []
  | skip + 1, _ :: rest => runesAfter skip rest
  | 0, c :: rest =>
    let (r, width) := firstRune (c :: rest)
    (r, (c :: rest).take width) :: runesAfter (width - 1) rest

/-- The code points of a text with their bytes, in order. -/
def runes (s : Bytes) : List (Nat × Bytes) := runesAfter 0 s

def isUtf8 (s : Bytes) : Bool := (runes s).all fun (r, bs) => r != replacement || bs.length == 3

/-! ## White space -/

/-- White space of one byte. -/
def isSpace1 (c : UInt8) : Bool := c == ' ' || (9 ≤ c && c ≤ 13)

/-- White space of two bytes: next line and no-break space. -/
def isSpace2 (a b : UInt8) : Bool := a == 0xC2 && (b == 0x85 || b == 0xA0)

/-- White space of three bytes: U+1680, U+2000 to U+200A, U+2028, U+2029, U+202F, U+205F, U+3000. -/
def isSpace3 (a b c : UInt8) : Bool :=
  (a == 0xE1 && b == 0x9A && c == 0x80)
    || (a == 0xE2 && b == 0x80 && ((0x80 ≤ c && c ≤ 0x8A) || c == 0xA8 || c == 0xA9 || c == 0xAF))
    || (a == 0xE2 && b == 0x81 && c == 0x9F)
    || (a == 0xE3 && b == 0x80 && c == 0x80)

/-- Whether a code point is white space. -/
def isSpaceRune (r : Nat) : Bool :=
  r == 32 || (9 ≤ r && r ≤ 13) || r == 0x85 || r == 0xA0 || r == 0x1680
    || (0x2000 ≤ r && r ≤ 0x200A) || r == 0x2028 || r == 0x2029 || r == 0x202F || r == 0x205F
    || r == 0x3000

/-- Drops white space from the front. -/
def trimStart : Bytes → Bytes
  | [] => []
  | a :: rest =>
    if isSpace1 a then trimStart rest
    else
      match rest with
      | [] => [a]
      | b :: rest =>
        if isSpace2 a b then trimStart rest
        else
          match rest with
          | [] => [a, b]
          | c :: rest => if isSpace3 a b c then trimStart rest else a :: b :: c :: rest

/-- Drops white space from the front of a text that is written backwards. -/
def trimStartReversed : Bytes → Bytes
  | [] => []
  | c :: rest =>
    if isSpace1 c then trimStartReversed rest
    else
      match rest with
      | [] => [c]
      | b :: rest =>
        if isSpace2 b c then trimStartReversed rest
        else
          match rest with
          | [] => [c, b]
          | a :: rest => if isSpace3 a b c then trimStartReversed rest else c :: b :: a :: rest

/-- Drops white space from both ends, of any script. -/
def trim (s : Bytes) : Bytes := (trimStartReversed (trimStart s).reverse).reverse

/-- Whether a text holds nothing but white space. -/
def isWhite (s : Bytes) : Bool := (trimStart s).isEmpty

/-- Fills a text with blanks at its end up to a width in characters. -/
def padEnd (width : Nat) (s : Bytes) : Bytes := s ++ List.replicate (width - (runes s).length) 32

end Bindery.Text
