import Bindery.Listing.Marker
import Bindery.Listing.Request

/-!
# Selecting lines

Label scanning walks the lines of a file and follows, for every requested label, whether it is active.
A line belongs to a label when the label is active before it and is not switched off on it; `+` and
`-` decide for a single line. Line numbers then choose among the lines of the labels or, without
labels, among the lines of the file.
-/

namespace Bindery.Listing

open Text

/-- A line of a file after its markers were taken off. -/
structure SourceLine where
  number : Nat
  text : Bytes
  selected : Bool
  deriving DecidableEq, Repr

/-- The labels that are active from line to line, and those that hold for the present line. -/
structure LabelState where
  active : List Bytes := []
  current : List Bytes := []
  deriving DecidableEq, Repr

/-- What a marker does to the state of its label. -/
def LabelState.apply (s : LabelState) (m : Marker) : Except MarkerProblem LabelState :=
  match m.kind with
  | .start =>
    if s.active.contains m.label then .error .startedTwice
    else .ok { s with active := s.active ++ [m.label] }
  | .stop =>
    if s.active.contains m.label then
      .ok { active := s.active.filter (· != m.label), current := s.current.filter (· != m.label) }
    else .error .notStarted
  | .add =>
    if s.current.contains m.label then .error .alreadyIncluded
    else .ok { s with current := s.current ++ [m.label] }
  | .remove =>
    if s.current.contains m.label then
      .ok { s with current := s.current.filter (· != m.label) }
    else .error .alreadyExcluded

/-- Applies the markers of a line from left to right. -/
def LabelState.applyAll (line : Nat) : LabelState → List Marker → Except Refusal LabelState
  | s, [] => .ok s
  | s, m :: rest =>
    match s.apply m with
    | .error problem => .error (.marker problem m.label line)
    | .ok s => applyAll line s rest

/-- Scans lines from a number on. Returns the kept lines, the labels that are active at the end and
those that selected a kept line. -/
def scanLinesFrom (comments labels : List Bytes) :
    Nat → List Bytes → List Bytes → List Bytes →
      Except Refusal (List SourceLine × List Bytes × List Bytes)
  | _, active, contributed, [] => .ok ([], active, contributed)
  | number, active, contributed, line :: rest => do
    let (text, markers) := stripMarkers comments labels (trimEnd isBlank line)
    let state ← LabelState.applyAll number { active, current := active } markers
    -- A line with nothing but markers is no line of the listing.
    if !markers.isEmpty && isWhite text then
      scanLinesFrom comments labels (number + 1) state.active contributed rest
    else
      let selected := labels.isEmpty || !state.current.isEmpty
      let (kept, active, contributed) ←
        scanLinesFrom comments labels (number + 1) state.active (contributed ++ state.current) rest
      .ok ({ number, text, selected } :: kept, active, contributed)

/-- The physical lines of a file; a line feed at the end begins no further line. -/
def physicalLines (text : Bytes) : List Bytes :=
  let raw := lines (replaceAll [13, 10] [10] text)
  if raw.getLast? == some [] then raw.dropLast else raw

/-- Every requested label has to be ended and to select a line. -/
def checkLabels (active contributed : List Bytes) : List Bytes → Except Refusal Unit
  | [] => .ok ()
  | label :: rest =>
    if active.contains label then .error (.neverEnded label)
    else if !contributed.contains label then .error (.selectsNothing label)
    else checkLabels active contributed rest

/-- The lines of a file without the markers of the requested labels, each with its number and
whether a label selects it; lines that held only markers are dropped. -/
def scanLines (text : Bytes) (labels comments : List Bytes) : Except Refusal (List SourceLine) := do
  let (kept, active, contributed) ← scanLinesFrom comments labels 1 [] [] (physicalLines text)
  checkLabels active contributed labels
  .ok kept

/-- Applies the line numbers to the scanned lines. With labels the numbers count the lines that the
labels select; with `union`, or without labels, they are those of the file, which has `total`
lines. -/
def combine (scanned : List SourceLine) (spec : Option LineSpec) (haveLabels union : Bool)
    (total : Nat) : Except Refusal (List Bytes) :=
  let ranges := spec.getD []
  let candidates := (scanned.filter (·.selected)).map (·.text)
  if union && haveLabels then
    if ranges.max > total then .error (.beyondFile ranges.max total)
    else .ok ((scanned.filter fun l => l.selected || ranges.contains l.number).map (·.text))
  else if spec.isNone then .ok candidates
  else if !haveLabels then
    if ranges.max > total then .error (.beyondFile ranges.max total)
    else .ok ((scanned.filter fun l => ranges.contains l.number).map (·.text))
  else if ranges.max > candidates.length then
    .error (.beyondLabels ranges.max candidates.length)
  else .ok (ranges.indices.map fun i => candidates.getD (i - 1) [])

/-! ## Normal form -/

/-- Drops empty lines at the front and keeps one of each later run that a line follows. `pending`
says that empty lines were passed since the last line. -/
def squeezeFrom (started pending : Bool) : List Bytes → List Bytes
  | [] => []
  | l :: rest =>
    let l := trimEnd isBlank l
    if l.isEmpty then squeezeFrom started started rest
    else if pending then [] :: l :: squeezeFrom true false rest
    else l :: squeezeFrom true false rest

/-- Lines without blanks at their ends, without empty lines at the front and the end, and without
two empty lines in a row. -/
def squeeze (ls : List Bytes) : List Bytes := squeezeFrom false false ls

def commonStart : Bytes → Bytes → Bytes
  | a :: as, b :: bs => if a = b then a :: commonStart as bs else []
  | _, _ => []

/-- The blanks that begin a line. -/
def indentation (l : Bytes) : Bytes := l.takeWhile isBlank

/-- The longest run of blanks that begins all lines that are not white. -/
def commonIndentation : List Bytes → Option Bytes
  | [] => none
  | l :: rest =>
    if isWhite l then commonIndentation rest
    else
      match commonIndentation rest with
      | none => some (indentation l)
      | some shared => some (commonStart (indentation l) shared)

/-- Removes the common indentation from every line that has it. -/
def dedent (ls : List Bytes) : List Bytes :=
  match commonIndentation ls with
  | none => ls
  | some shared => ls.map (withoutStart shared)

/-- The lines of a text, a line feed at the end apart. -/
def textLines (s : Bytes) : List Bytes := lines (withoutEnd [10] s)

end Bindery.Listing
