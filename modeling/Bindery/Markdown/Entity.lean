import Bindery.Markdown.CharacterName
import Bindery.Text.Punctuation

/-!
# Character references

A document may name a character, as in `&copy;`, or give its number, as in `&#169;`.
-/

namespace Bindery.Markdown

open Text (bytes)

/-- What a name stands for. -/
def named? (name : Bytes) : Option Bytes := do
  let s ← Text.toString? name
  let characters ← CharacterName.all.lookup s
  some (characters.flatMap Text.encodeRune)

/-- The character of a number; zero and numbers of no character give the replacement character. -/
def numbered (n : Nat) : Bytes := Text.encodeRune (if n = 0 then Text.replacement else n)

/-- A reference after its ampersand: the character, and the text after the semicolon. -/
def reference? (s : Bytes) : Option (Bytes × Bytes) :=
  let closed (digits rest : Bytes) (bound : Nat) (value : Bytes → Nat) : Option (Bytes × Bytes) :=
    match rest with
    | 59 :: after =>
      if digits.isEmpty || digits.length ≥ bound then none else some (numbered (value digits), after)
    | _ => none
  match s with
  | 35 :: c :: rest =>
    if c = 120 ∨ c = 88 then
      closed (rest.takeWhile Text.isHexDigit) (rest.dropWhile Text.isHexDigit) 7
        fun ds => ds.foldl (fun n d => n * 16 + Text.hexValue d) 0
    else
      let s := c :: rest
      closed (s.takeWhile Text.isDigit) (s.dropWhile Text.isDigit) 8
        fun ds => ds.foldl (fun n d => n * 10 + Text.hexValue d) 0
  | _ =>
    let isNameByte (c : UInt8) : Bool := Text.isLetter c || Text.isDigit c
    match s.dropWhile isNameByte with
    | 59 :: after => (named? (s.takeWhile isNameByte)).map fun t => (t, after)
    | _ => none

/-- Replaces escapes and references by the characters they stand for. What a reference stands for is
not read again. The bound is spent by one at each byte. -/
def resolve : Nat → Bytes → Bytes
  | 0, s => s
  | _, [] => []
  | bound + 1, c :: rest =>
    if c = 92 then
      match rest with
      | d :: after =>
        if Text.isPunct d then d :: resolve bound after else c :: resolve bound rest
      | [] => [c]
    else if c = 38 then
      match reference? rest with
      | some (t, after) => t ++ resolve bound after
      | none => c :: resolve bound rest
    else c :: resolve bound rest

/-- The characters that a text of a document stands for. -/
def plainText (s : Bytes) : Bytes := resolve s.length s

end Bindery.Markdown
