import Bindery.Listing.Python.Token

/-!
# Wrapping long lines

A line that is too long is broken after a comma inside an open bracket, and what follows is aligned
with the bracket. Commas in strings do not count; a comment or a triple quote ends the search.
-/

namespace Bindery.Listing.Python

open Text

def wrapWidth : Nat := 74

/-- A place where a line can be broken: how many bytes stay on the line, and the columns of the
brackets that are open there, the innermost first. -/
structure Break where
  keep : Nat
  open' : List Nat
  deriving DecidableEq, Repr

/-- The column at which the next line starts. -/
def Break.indent (b : Break) : Nat := b.open'.headD 0 + 1

/-- The last place within the width where a line can be broken. `column` is the place reached,
`opened` holds the columns of the open brackets, `quote` the quote of the string it is in. -/
def breakFrom (column : Nat) (opened : List Nat) (quote : Option UInt8) (best : Option Break) :
    Bytes → Option Break
  | [] => best
  | c :: rest =>
    if column ≥ wrapWidth then best
    else
      match quote with
      | some q =>
        if c = '\\' then
          match rest with
          | [] => best
          | _ :: rest => breakFrom (column + 2) opened quote best rest
        else breakFrom (column + 1) opened (if c = q then none else quote) best rest
      | none =>
        if c = '"' ∨ c = '\'' then
          -- Triple quotes may leave the string open at the end of the line.
          if [c, c].isPrefixOf rest then best else breakFrom (column + 1) opened (some c) best rest
        else if c = '#' then best
        else if isOpening c then breakFrom (column + 1) (column :: opened) none best rest
        else if isClosing c then breakFrom (column + 1) (opened.drop 1) none best rest
        else if c = ',' ∧ !opened.isEmpty ∧ !rest.isEmpty then
          breakFrom (column + 1) opened none (some { keep := column + 1, open' := opened }) rest
        else breakFrom (column + 1) opened none best rest

/-- Breaks a line as often as needed and possible. Every break shortens the line, so its length
bounds their number. -/
def wrapWithin : Nat → List Nat → Bytes → List Bytes
  | 0, _, line => [line]
  | bound + 1, opened, line =>
    if line.length ≤ wrapWidth then [line]
    else
      match breakFrom 0 opened none none line with
      | none => [line]
      | some b =>
        let next := List.replicate b.indent 32 ++ (line.drop b.keep).dropWhile (· == 32)
        trimEnd (· == 32) (line.take b.keep) :: wrapWithin bound b.open' next

/-- A line broken into lines that fit, as far as that is possible. -/
def wrap (line : Bytes) : List Bytes := wrapWithin line.length [] line

end Bindery.Listing.Python
