import Bindery.Listing.Basic
import Bindery.Text.Number

/-!
# What is asked of a listing

The three specifications of a listing: the lines, as numbers and ranges; the labels; and the options.
-/

namespace Bindery.Listing

open Text

/-! ## Lines -/

/-- A range of lines, counted from 1, both ends included. -/
structure LineRange where
  first : Nat
  last : Nat
  deriving DecidableEq, Repr

/-- A selection of lines as a list of ranges. -/
abbrev LineSpec := List LineRange

namespace LineSpec

def contains (s : LineSpec) (n : Int) : Bool := s.any fun r => r.first ≤ n && n ≤ r.last

def max (s : LineSpec) : Nat := s.foldl (fun m r => Nat.max m r.last) 0

/-- The selected lines, each once and in ascending order. -/
def indices (s : LineSpec) : List Nat := (List.range' 1 s.max).filter fun n => s.contains n

end LineSpec

/-- Reads a line number; `spec` is the selection it stands in. -/
def parseLineNumber (spec s : Bytes) : Except Refusal Nat :=
  let s := trim s
  match readInt s with
  | .error problem => .error (.notANumber spec (problem.message s))
  | .ok n => if n < 1 then .error (.belowOne spec) else .ok n.toNat

/-- Reads a single line or a range of lines. -/
def parseLineRange (spec part : Bytes) : Except Refusal LineRange :=
  let part := trim part
  if part.isEmpty then .error (.emptyElement spec)
  else
    match cutByte? 45 part with
    | none => do
      let n ← parseLineNumber spec part
      .ok { first := n, last := n }
    | some (from', to') => do
      let first ← parseLineNumber spec from'
      let last ← parseLineNumber spec to'
      if last < first then .error (.reversed spec part) else .ok { first, last }

/-- Reads a list of lines and ranges separated by commas. A blank text selects nothing in
particular. -/
def parseLines (spec : Bytes) : Except Refusal (Option LineSpec) :=
  let spec := trim spec
  if spec.isEmpty then .ok none
  else do
    let ranges ← (splitOn 44 spec).mapM (parseLineRange spec)
    .ok (some ranges)

/-! ## Labels -/

/-- Whether a byte may stand in a label after the first. -/
def isLabelByte (c : UInt8) : Bool := isWord c || c == '.' || c == ':' || c == '-'

def isLabelName : Bytes → Bool
  | [] => false
  | c :: rest => (isLetter c || c == '_') && rest.all isLabelByte

/-- Reads the labels of a list one by one; `seen` holds those read before. -/
def parseLabelsFrom (spec : Bytes) (seen : List Bytes) : List Bytes → Except Refusal (List Bytes)
  | [] => .ok seen
  | part :: rest =>
    let label := trim part
    if label.isEmpty then .error (.emptyLabel spec)
    else if !isLabelName label then .error (.badLabel spec label)
    else if seen.contains label then .error (.repeatedLabel spec label)
    else parseLabelsFrom spec (seen ++ [label]) rest

/-- Reads a list of different labels separated by commas. -/
def parseLabels (spec : Bytes) : Except Refusal (List Bytes) :=
  let spec := trim spec
  if spec.isEmpty then .ok [] else parseLabelsFrom spec [] (splitOn 44 spec)

/-! ## Options -/

/-- What is kept in a listing, and how lines and labels are combined. -/
structure Options where
  keepDoc : Bool := false
  keepComments : Bool := false
  keepHints : Bool := false
  /-- Keep the layout of the source. -/
  verbatim : Bool := false
  /-- Select the lines that either the numbers or the labels select. -/
  union : Bool := false
  deriving DecidableEq, Repr

/-- Sets the options named in a list. -/
def parseOptionsFrom (spec : Bytes) (o : Options) : List Bytes → Except Refusal Options
  | [] => .ok o
  | part :: rest =>
    let name := trim part
    if name.isEmpty then parseOptionsFrom spec o rest
    else if name == bytes "doc" then parseOptionsFrom spec { o with keepDoc := true } rest
    else if name == bytes "comments" then
      parseOptionsFrom spec { o with keepComments := true } rest
    else if name == bytes "hints" then parseOptionsFrom spec { o with keepHints := true } rest
    else if name == bytes "format" then parseOptionsFrom spec { o with verbatim := true } rest
    else if name == bytes "union" then parseOptionsFrom spec { o with union := true } rest
    else .error (.unknownOption spec name)

def parseOptions (spec : Bytes) : Except Refusal Options :=
  parseOptionsFrom spec {} (splitOn 44 spec)

/-- A listing to be made. -/
structure Request where
  lines : Bytes := []
  labels : Bytes := []
  options : Bytes := []
  language : Language := {}
  deriving DecidableEq, Repr

end Bindery.Listing
