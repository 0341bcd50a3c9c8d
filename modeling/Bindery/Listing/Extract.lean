import Bindery.Listing.Comment
import Bindery.Listing.Layout
import Bindery.Listing.Python.Cut
import Bindery.Listing.Python.Wrap

/-!
# Making a listing

The lines that a request selects, cleaned up for their language.
-/

namespace Bindery.Listing

open Text

/-- Cleans up lines of an indented language: leaves out what is not to be kept, and unless the layout
is to stay removes the common indentation and wraps long lines. -/
def cleanPython (o : Options) (ls : List Bytes) : List Bytes :=
  let source := unlines ls ++ [10]
  let (logicals, comments) := Python.tokenize source
  let spans :=
    (if o.keepComments then [] else comments.map (Python.commentSpan source))
      ++ (if o.keepDoc then [] else Python.docSpans logicals)
      ++ (if o.keepHints then [] else Python.hintSpans logicals)
  let out := squeeze (textLines (Python.applyCuts source spans))
  if o.verbatim then out else (dedent out).flatMap Python.wrap

section

variable (format : Bytes → Option Bytes)

/-- Cleans up lines of a brace language: leaves out comments, and unless the layout is to stay
removes the common indentation, after the formatter of the language if it has one. -/
def cleanBraces (l : Language) (o : Options) (ls : List Bytes) : List Bytes :=
  let source := unlines ls ++ [10]
  let source := if o.keepComments then source else stripComments l.hasRawStrings source
  let out := squeeze (textLines source)
  if o.verbatim then out
  else if l.hasStandardLayout then
    dedent (((format (unlines out ++ [10])).map fun laid => squeeze (textLines laid)).getD out)
  else dedent out

/-- Cleans up lines for their language. -/
def clean (l : Language) (o : Options) (ls : List Bytes) : List Bytes :=
  match l.family with
  | .plain => ls
  | .python => cleanPython o ls
  | .braces => cleanBraces format l o ls

/-- Makes the listing of a request from the text of a file; `format` gives a source the standard layout,
or refuses it. -/
def extractWith (text : Bytes) (request : Request) : Except Refusal Bytes := do
  if isWhite text then .error .emptySource
  let lines ← parseLines request.lines
  let labels ← parseLabels request.labels
  let options ← parseOptions request.options
  -- Without comments of its own, a language may hold markers in those of any other.
  let comments := if request.language.comments.isEmpty then allComments else request.language.comments
  let scanned ← scanLines text labels comments
  let total := (physicalLines text).length
  let selected ← combine scanned lines (!labels.isEmpty) options.union total
  let out := squeeze selected
  if out.isEmpty then .error (.emptySelection request.lines request.labels)
  else
    let out := clean format request.language options out
    if out.all isWhite && out.length ≤ 1 then .error (.emptyListing request.lines request.labels)
    else .ok (unlines out)

end

def extract (text : Bytes) (request : Request) : Except Refusal Bytes :=
  extractWith Layout.format? text request

end Bindery.Listing
