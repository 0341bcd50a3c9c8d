import Bindery.Listing.Basic
import Bindery.Text.Utf8

/-!
# Selection markers

A line can end in comments such as `# start a`, `# end a`, `# +a` or `# -a`. They mark the lines of
the label `a` and are not part of the listing. Only markers of the requested labels are read; other
comments that look alike are left alone.
-/

namespace Bindery.Listing

open Text

/-- What a marker does to its label. -/
inductive MarkerKind where
  | start
  | stop
  | add
  | remove
  deriving DecidableEq, Repr

/-- A marker at the end of a line. -/
structure Marker where
  kind : MarkerKind
  label : Bytes
  deriving DecidableEq, Repr

/-- White space inside a marker. -/
def isMarkerSpace (c : UInt8) : Bool := isGap c || c == 12

/-- The label that makes up a text, white space after it apart. -/
def labelToEnd? (labels : List Bytes) (s : Bytes) : Option Bytes :=
  let s := trimEnd isMarkerSpace s
  labels.find? (· == s)

/-- Reads a keyword, white space and a label up to the end. -/
def keywordMarker? (labels : List Bytes) (keyword : Bytes) (kind : MarkerKind) (s : Bytes) :
    Option Marker := do
  let rest ← afterStart? keyword s
  let c ← rest.head?
  guard (isMarkerSpace c)
  let label ← labelToEnd? labels (rest.dropWhile isMarkerSpace)
  some { kind, label }

/-- Reads a sign and a label up to the end. -/
def signMarker? (labels : List Bytes) (sign : UInt8) (kind : MarkerKind) : Bytes → Option Marker
  | [] => none
  | c :: rest =>
    if c = sign then (labelToEnd? labels rest).map fun label => { kind, label } else none

/-- Reads what follows the comment sign of a marker. -/
def markerBody? (labels : List Bytes) (s : Bytes) : Option Marker :=
  let s := s.dropWhile isMarkerSpace
  (keywordMarker? labels "start" .start s)
    <|> (keywordMarker? labels "end" .stop s)
    <|> (signMarker? labels 43 .add s)
    <|> (signMarker? labels 45 .remove s)

/-- Reads a marker that fills the whole text. -/
def marker? (comments labels : List Bytes) (s : Bytes) : Option Marker :=
  comments.findSome? fun sign => (afterStart? sign s).bind (markerBody? labels)

/-- Splits off the marker that ends a text and starts furthest to the left: at the start of the
line, or after white space. -/
def splitMarker? (comments labels : List Bytes) (atStart : Bool) : Bytes → Option (Bytes × Marker)
  | [] => if atStart then (marker? comments labels []).map fun m => ([], m) else none
  | c :: rest =>
    let here :=
      (if atStart then marker? comments labels (c :: rest) else none)
        <|> (if isMarkerSpace c then marker? comments labels rest else none)
    match here with
    | some m => some ([], m)
    | none => (splitMarker? comments labels false rest).map fun (before, m) => (c :: before, m)

/-- Takes all markers off the end of a line: what remains, and the markers from left to right. The
bound is the length of the line, since each marker takes at least a byte. -/
def stripMarkersWithin (comments labels : List Bytes) : Nat → Bytes → List Marker → Bytes × List Marker
  | 0, s, found => (s, found)
  | bound + 1, s, found =>
    match splitMarker? comments labels true s with
    | none => (s, found)
    | some (before, m) =>
      stripMarkersWithin comments labels bound (trimEnd isBlank before) (m :: found)

/-- Takes all markers of the requested labels off the end of a line. -/
def stripMarkers (comments labels : List Bytes) (s : Bytes) : Bytes × List Marker :=
  if comments.isEmpty || labels.isEmpty then (s, [])
  else stripMarkersWithin comments labels s.length s []

end Bindery.Listing
