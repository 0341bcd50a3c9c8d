import Bindery.Directive.Scanner
import Bindery.Text.Utf8

/-!
# Putting output in the place of directives

Literal text is kept, and the output of a directive takes the place of the directive. The output of a
block directive is set apart by blank lines; the output of an inline directive is put in as it is.
Output is never scanned again.
-/

namespace Bindery

open Text

/-- How many line feeds end a text, blanks after the last one apart. -/
def trailingNewlines (s : Bytes) : Nat :=
  ((s.reverse.dropWhile isBlank).takeWhile isNewline).length

/-- How many line feeds begin a text, blanks before the first one apart. -/
def leadingNewlines (s : Bytes) : Nat := ((s.dropWhile isBlank).takeWhile isNewline).length

/-- The line feeds missing before a block, so that an empty line stands before it unless nothing
does. -/
def gapBefore (out : Bytes) : Bytes :=
  if isWhite out then [] else List.replicate (2 - trailingNewlines out) 10

/-- The line feeds missing after a block, so that an empty line stands between it and what follows.
At the very end one line feed closes the text. -/
def gapAfter (out after : Bytes) : Bytes :=
  if isWhite after then if after.isEmpty && !endsWith [10] out then [10] else []
  else List.replicate (2 - leadingNewlines after) 10

/-- Appends the output of a directive to the text written so far; `after` is what follows the
directive. -/
def place (out : Bytes) (isBlock : Bool) (output after : Bytes) : Bytes :=
  if isBlock then
    let out := out ++ gapBefore out ++ trimBoth isNewline output
    out ++ gapAfter out after
  else out ++ output

/-- Replaces the directives from a place on, `out` being the text written so far. -/
def Cursor.replace {m : Type → Type} [Monad m] [MonadExceptOf Fault m]
    (handler : Invocation → m Bytes) (out : Bytes) (c : Cursor) : m Bytes :=
  match h : c.next with
  | .done => pure (out ++ c.rest)
  | .malformed bad => throw bad.toFault
  | .found before inv after => do
    have := (Cursor.next_found h).2
    let output ← handler inv
    after.replace handler (place (out ++ before) inv.directive.isBlock output after.rest)
termination_by c.rest.length

/-- Replaces every directive of a text by what the handler makes of it, from left to right. -/
def replaceM {m : Type → Type} [Monad m] [MonadExceptOf Fault m] (text : Bytes)
    (handler : Invocation → m Bytes) : m Bytes :=
  Cursor.replace handler [] { rest := text }

def replace (text : Bytes) (handler : Invocation → Except Fault Bytes) : Except Fault Bytes :=
  replaceM text handler

end Bindery
