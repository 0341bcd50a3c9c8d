import Bindery.Fault.Basic

/-!
# Directives

A directive is a backslash, a dotted name and a fixed number of brace groups, such as
`\rel.input{chapter.md}`. Block directives stand apart from the text around them by blank lines.
-/

namespace Bindery

/-- The directives of a document. -/
inductive Directive where
  /-- Includes another document. -/
  | input
  /-- A listing from a file next to the document. -/
  | code
  /-- A second name of `code`. -/
  | relativeCode
  /-- A listing from a file of a repository. -/
  | gitCode
  /-- A figure. -/
  | figure
  /-- A numbered definition. -/
  | definition
  /-- A reference to a definition. -/
  | reference
  /-- The value of a metadata key. -/
  | metadata
  deriving DecidableEq, Repr

namespace Directive

/-- The name after the backslash. -/
def name : Directive → Bytes
  | .input => "rel.input"
  | .code => "rel.code"
  | .relativeCode => "relative.code"
  | .gitCode => "git.code"
  | .figure => "rel.figure"
  | .definition => "definition"
  | .reference => "def.ref"
  | .metadata => "meta"

/-- The number of brace groups. -/
def arity : Directive → Nat
  | .input | .reference | .metadata => 1
  | .code | .relativeCode => 6
  | .gitCode => 7
  | .figure => 4
  | .definition => 3

/-- Whether the output stands apart from the surrounding text. -/
def isBlock : Directive → Bool
  | .reference | .metadata => false
  | _ => true

def all : List Directive :=
  [.input, .code, .relativeCode, .gitCode, .figure, .definition, .reference, .metadata]

def ofName? (name : Bytes) : Option Directive := all.find? fun d => d.name == name

theorem mem_all (d : Directive) : d ∈ all := by cases d <;> decide

theorem ofName?_name (d : Directive) : ofName? d.name = some d := by cases d <;> decide

theorem name_of_ofName? {name : Bytes} {d : Directive} (h : ofName? name = some d) :
    d.name = name := by
  have := List.find?_some h
  simpa using this

end Directive

/-- One occurrence of a directive in a text. -/
structure Invocation where
  directive : Directive
  args : List Bytes
  /-- The offset of the backslash. -/
  start : Nat
  /-- The offset after the last brace. -/
  stop : Nat
  /-- The line of the backslash, counted from 1. -/
  line : Nat
  deriving DecidableEq, Repr

/-- What is wrong with an occurrence of a directive. -/
inductive Malformed.Reason where
  /-- No brace follows the name. -/
  | noArguments
  /-- A brace group is missing. -/
  | missingGroup
  /-- A brace group is not closed. -/
  | unbalanced
  deriving DecidableEq, Repr

/-- An occurrence of a directive that cannot be read. -/
structure Malformed where
  reason : Malformed.Reason
  directive : Directive
  line : Nat
  deriving DecidableEq, Repr

namespace Malformed

/-- What the user is told. -/
def Reason.message : Reason → Bytes
  | .noArguments => "directive without arguments"
  | .missingGroup => "missing argument group"
  | .unbalanced => "unbalanced braces"

/-- The fault of a malformed directive. -/
def toFault (m : Malformed) : Fault :=
  .raise .directive m.reason.message
    [("directive", .str m.directive.name), ("line", .int m.line)]

end Malformed

end Bindery
