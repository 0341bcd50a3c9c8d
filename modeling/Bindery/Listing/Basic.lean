import Bindery.Fault.Basic
import Bindery.Path

/-!
# Listings

A listing is a part of a source file: lines are selected by number or by labels in comments, and the
selection is cleaned up in a way that depends on the language of the file. This module holds the
languages and the reasons for which a listing is refused.
-/

namespace Bindery

namespace Listing

/-! ## Languages -/

/-- How the lines of a language are cleaned up. -/
inductive Family where
  /-- Lines are kept as they are. -/
  | plain
  /-- Indentation carries meaning; comments, documentation strings and type hints can be left out. -/
  | python
  /-- Blocks stand in braces; line and block comments can be left out. -/
  | braces
  deriving DecidableEq, Repr

/-- The language of a source file. -/
structure Language where
  /-- The class of the code block, empty when unknown. -/
  fence : Bytes := []
  /-- What begins a comment to the end of the line. -/
  comments : List Bytes := []
  family : Family := .plain
  deriving DecidableEq, Repr

/-- The comment styles that are tried when the language has none of its own. -/
def allComments : List Bytes := ["#", "//", "--", "%"]

/-- The language of files with an unknown suffix. -/
def Language.unknown : Language := { comments := allComments }

private def commented (sign suffix fence : Bytes) : Bytes × Language :=
  (suffix, { fence, comments := [sign] })

private def braced (suffix fence : Bytes) : Bytes × Language :=
  (suffix, { fence, comments := ["//"], family := .braces })

private def indented (suffix fence : Bytes) : Bytes × Language :=
  (suffix, { fence, comments := ["#"], family := .python })

private def uncommented (suffix fence : Bytes) : Bytes × Language :=
  (suffix, { fence, comments := allComments })

/-- The languages by file suffix. -/
def Language.bySuffix : List (Bytes × Language) :=
  [indented ".py" "python", indented ".pyi" "python", braced ".go" "go", braced ".java" "java",
    braced ".c" "c", braced ".h" "c", braced ".cc" "cpp", braced ".cpp" "cpp", braced ".cxx" "cpp",
    braced ".hpp" "cpp", braced ".js" "javascript", braced ".mjs" "javascript",
    braced ".ts" "typescript", braced ".rs" "rust", braced ".kt" "kotlin", braced ".cs" "csharp",
    braced ".swift" "swift", braced ".scala" "scala", commented "#" ".sh" "bash",
    commented "#" ".bash" "bash", commented "#" ".yaml" "yaml", commented "#" ".yml" "yaml",
    commented "#" ".toml" "toml", commented "#" ".r" "r", commented "#" ".rb" "ruby",
    commented "--" ".sql" "sql", commented "--" ".lua" "lua", commented "--" ".hs" "haskell",
    commented "%" ".tex" "latex", commented "%" ".m" "matlab", uncommented ".json" "json",
    uncommented ".md" "markdown", uncommented ".txt" ""]

/-- The language of a file, by its suffix in any case. -/
def Language.ofPath (path : Bytes) : Language :=
  (bySuffix.lookup ((Path.ext path).map Text.lowerByte)).getD unknown

/-- Whether a backquote begins a string that may span lines. -/
def Language.hasRawStrings (l : Language) : Bool :=
  l.fence == Text.bytes "go" || l.fence == Text.bytes "javascript"
    || l.fence == Text.bytes "typescript"

/-- Whether listings of the language have one standard layout. -/
def Language.hasStandardLayout (l : Language) : Bool := l.fence == Text.bytes "go"

/-! ## Refusals -/

/-- What is wrong with a selection marker. -/
inductive MarkerProblem where
  | startedTwice
  | notStarted
  | alreadyIncluded
  | alreadyExcluded
  deriving DecidableEq, Repr

/-- Why there is no listing. -/
inductive Refusal where
  | emptySource
  | emptyElement (lines : Bytes)
  | notANumber (lines message : Bytes)
  | belowOne (lines : Bytes)
  | reversed (lines range : Bytes)
  | emptyLabel (labels : Bytes)
  | badLabel (labels label : Bytes)
  | repeatedLabel (labels label : Bytes)
  | unknownOption (options option : Bytes)
  | marker (problem : MarkerProblem) (label : Bytes) (line : Nat)
  | neverEnded (label : Bytes)
  | selectsNothing (label : Bytes)
  | beyondFile (line lines : Nat)
  | beyondLabels (line selected : Nat)
  | emptySelection (lines labels : Bytes)
  | emptyListing (lines labels : Bytes)
  deriving DecidableEq, Repr

/-- What the user is told about a marker. -/
def MarkerProblem.message : MarkerProblem → Bytes
  | .startedTwice => "label started twice"
  | .notStarted => "label ended without being started"
  | .alreadyIncluded => "line already included for label"
  | .alreadyExcluded => "line already excluded for label"

/-- The fault of a refusal. -/
def Refusal.toFault : Refusal → Fault
  | .emptySource => .raise .code "source file is empty"
  | .emptyElement lines =>
    .raise .code "empty element in line selection" [("lines", .str lines)]
  | .notANumber lines message =>
    .raiseFrom (.number message) .code "invalid line number" [("lines", .str lines)]
  | .belowOne lines => .raise .code "line numbers start at 1" [("lines", .str lines)]
  | .reversed lines range =>
    .raise .code "reversed line range" [("lines", .str lines), ("range", .str range)]
  | .emptyLabel labels =>
    .raise .code "empty label in label selection" [("labels", .str labels)]
  | .badLabel labels label =>
    .raise .code "invalid label name" [("labels", .str labels), ("label", .str label)]
  | .repeatedLabel labels label =>
    .raise .code "duplicate label in label selection" [("labels", .str labels), ("label", .str label)]
  | .unknownOption options option =>
    .raise .code "unknown code argument" [("args", .str options), ("arg", .str option)]
  | .marker problem label line =>
    .raise .code problem.message [("label", .str label), ("line", .int line)]
  | .neverEnded label => .raise .code "label not ended before end of file" [("label", .str label)]
  | .selectsNothing label => .raise .code "label selects no lines" [("label", .str label)]
  | .beyondFile line lines =>
    .raise .code "line selection exceeds file" [("max_line", .int line), ("file_lines", .int lines)]
  | .beyondLabels line selected =>
    .raise .code "line selection exceeds label selection"
      [("max_line", .int line), ("selected_lines", .int selected)]
  | .emptySelection lines labels =>
    .raise .code "selection is empty" [("lines", .str lines), ("labels", .str labels)]
  | .emptyListing lines labels =>
    .raise .code "listing is empty after post-processing"
      [("lines", .str lines), ("labels", .str labels)]

end Listing

end Bindery
