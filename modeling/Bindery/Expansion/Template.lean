import Bindery.Directive.Replace

/-!
# Templates

A document read as literal text and directives, whose arguments are templates again. Reading a document
into a template finds all its directives at once, at every depth; what they put in their place is
never read again.
-/

namespace Bindery

/-- A text cut at its directives. -/
inductive Template where
  /-- Literal text up to the end. -/
  | text (rest : Bytes)
  /-- The text ends in a malformed directive. -/
  | malformed (m : Malformed)
  /-- Literal text, a directive with its arguments, and the rest, also as plain text. -/
  | directive (before : Bytes) (invocation : Invocation) (args : List Template) (after : Bytes)
      (rest : Template)

namespace Template

/-- Reads the text from a place on. -/
def ofCursor (c : Cursor) : Template :=
  match h : c.next with
  | .done => .text c.rest
  | .malformed m => .malformed m
  | .found before invocation after =>
    have found := Cursor.next_found h
    let args := invocation.args.attach.map fun ⟨arg, mem⟩ =>
      have := found.1 arg mem
      ofCursor { rest := arg }
    have := found.2
    .directive before invocation args after.rest (ofCursor after)
termination_by c.rest.length

def ofText (text : Bytes) : Template := ofCursor { rest := text }

mutual

/-- Puts the output of every directive in its place. The arguments of a directive are expanded first,
from left to right. `line` is added to line numbers, and `out` is the text written so far. -/
def expand {m : Type → Type} [Monad m] [MonadExceptOf Fault m]
    (perform : Directive → List Bytes → Nat → m Bytes) (line : Nat) (out : Bytes) :
    Template → m Bytes
  | .text rest => pure (out ++ rest)
  | .malformed bad => throw bad.toFault
  | .directive before invocation args after rest => do
    let here := line + invocation.line
    -- Lines in an argument count from the line of the directive.
    let args ← expandAll perform (here - 1) args
    let output ← perform invocation.directive args here
    rest.expand perform line (place (out ++ before) invocation.directive.isBlock output after)
termination_by structural t => t

/-- Expands several templates, from left to right. -/
def expandAll {m : Type → Type} [Monad m] [MonadExceptOf Fault m]
    (perform : Directive → List Bytes → Nat → m Bytes) (line : Nat) :
    List Template → m (List Bytes)
  | [] => pure []
  | t :: ts => do
    let first ← t.expand perform line []
    let others ← expandAll perform line ts
    pure (first :: others)
termination_by structural ts => ts

end

end Template

end Bindery
