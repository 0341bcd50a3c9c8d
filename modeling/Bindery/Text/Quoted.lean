import Bindery.Text.Utf8

/-!
# Quoted text

A text between double quotes, as messages show it. Quotes, backslashes and everything that does not
print are escaped; bytes that are no UTF-8 are shown one by one.
-/

namespace Bindery.Text

/-- Ranges of code points that do not print: controls, spaces other than the blank, format
characters, surrogates, private use and non-characters. -/
def unprintable : List (Nat × Nat) :=
  [(0x00, 0x1F), (0x7F, 0xA0), (0xAD, 0xAD), (0x600, 0x605), (0x61C, 0x61C), (0x6DD, 0x6DD),
    (0x70F, 0x70F), (0x890, 0x891), (0x8E2, 0x8E2), (0x1680, 0x1680), (0x180E, 0x180E),
    (0x2000, 0x200F), (0x2028, 0x202F), (0x205F, 0x206F), (0x3000, 0x3000), (0xD800, 0xF8FF),
    (0xFEFF, 0xFEFF), (0xFFF0, 0xFFFB), (0xFFFE, 0xFFFF), (0x110BD, 0x110BD), (0x110CD, 0x110CD),
    (0x13430, 0x1343F), (0x1BCA0, 0x1BCA3), (0x1D173, 0x1D17A), (0xE0000, 0xE00FF),
    (0xE01F0, 0x10FFFF)]

/-- Whether a code point prints. -/
def isPrintable (r : Nat) : Bool := !unprintable.any fun (lo, hi) => lo ≤ r && r ≤ hi

/-- A code point inside quotes, given the bytes it was read from. -/
def quoteRune (r : Nat) (source : Bytes) : Bytes :=
  if r = 34 then [92, 34]
  else if r = 92 then [92, 92]
  else if r = replacement ∧ source.length = 1 then
    bytes "\\x" ++ padZeros 2 (ofNatHex (source.headD 0).toNat)
  else if isPrintable r then source
  else
    match r with
    | 7 => "\\a"
    | 8 => "\\b"
    | 9 => "\\t"
    | 10 => "\\n"
    | 11 => "\\v"
    | 12 => "\\f"
    | 13 => "\\r"
    | _ =>
      if r < 32 ∨ r = 127 then bytes "\\x" ++ padZeros 2 (ofNatHex r)
      else if r < 0x10000 then bytes "\\u" ++ padZeros 4 (ofNatHex r)
      else bytes "\\U" ++ padZeros 8 (ofNatHex r)

def quote (s : Bytes) : Bytes :=
  34 :: (runes s).flatMap (fun (r, source) => quoteRune r source) ++ [34]

end Bindery.Text
