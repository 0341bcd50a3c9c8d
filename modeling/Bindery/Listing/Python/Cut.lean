import Bindery.Listing.Python.Token

/-!
# Leaving out comments, documentation and type hints

What is left out of a source is a set of spans, found from the tokens. Spans may overlap in any way;
cutting them keeps the bytes that lie in none.
-/

namespace Bindery.Listing.Python

open Text

/-- The bytes from `start` up to and without `stop`. -/
structure Span where
  start : Nat
  stop : Nat
  deriving DecidableEq, Repr

def slice (source : Bytes) (start stop : Nat) : Bytes := (source.drop start).take (stop - start)

/-! ## Comments -/

/-- The span of a comment: the whole line when nothing else stands on it, otherwise the comment and
the blanks before it. -/
def commentSpan (source : Bytes) (c : Comment) : Span :=
  let before := slice source c.lineStart c.start
  if isWhite before then
    { start := c.lineStart, stop := if c.stop < source.length then c.stop + 1 else c.stop }
  else
    { start := c.start - (before.reverse.takeWhile isBlank).length, stop := c.stop }

/-! ## Documentation strings -/

/-- Whether tokens are the head of a function or a class. -/
def isBlockHeader (tokens : List Token) : Bool :=
  match tokens, tokens.getLast? with
  | first :: second :: _, some last =>
    let closes := last.kind == .operator && last.text == bytes ":" && last.depth == 0
    let opens :=
      (first.text == bytes "async" && second.text == bytes "def")
        || (first.kind == .name && (first.text == bytes "def" || first.text == bytes "class"))
    closes && opens
  | _, _ => false

/-- The lines that hold only strings and stand first in the source or right after the head of a
function or class. -/
def docSpansFrom (expected : Bool) : List LogicalLine → List Span
  | [] => []
  | l :: rest =>
    -- Empty lines and comments may stand in front of the string.
    if l.tokens.isEmpty then docSpansFrom expected rest
    else
      let more := docSpansFrom (isBlockHeader l.tokens) rest
      if expected && l.tokens.all (·.kind == .string) then
        { start := l.start, stop := l.stop } :: more
      else more

def docSpans (logicals : List LogicalLine) : List Span := docSpansFrom true logicals

/-! ## Type hints -/

/-- What is known while the parameters of a function are read. -/
structure Parameters where
  /-- Where the present annotation starts. -/
  annotation : Option Nat := none
  /-- Where its last token ends. -/
  annotated : Option Nat := none
  inDefault : Bool := false
  inLambda : Bool := false
  spans : List Span := []
  deriving Repr

/-- Ends the present annotation. -/
def Parameters.flush (p : Parameters) : Parameters :=
  let spans :=
    match p.annotation, p.annotated with
    | some start, some stop => if stop > start then p.spans ++ [{ start, stop }] else p.spans
    | _, _ => p.spans
  { p with annotation := none, annotated := none, spans }

/-- Reads one token of the parameters. -/
def Parameters.read (p : Parameters) (t : Token) : Parameters :=
  let top := t.depth == 1
  if top && t.kind == .operator && t.text == bytes "," then
    { p.flush with inDefault := false, inLambda := false }
  else if top && t.kind == .operator && t.text == bytes "=" then { p.flush with inDefault := true }
  -- The colon of a `lambda`, or inside a default value, begins no annotation.
  else if top && t.kind == .operator && t.text == bytes ":"
      && !p.inDefault && !p.inLambda && p.annotation.isNone then
    { p with annotation := some t.start }
  else
    let inLambda := p.inLambda || (top && t.kind == .name && t.text == bytes "lambda")
    { p with inLambda, annotated := if p.annotation.isSome then some t.stop else p.annotated }

/-- Reads the parameters up to the closing bracket: the spans of the annotations, the bracket and the
tokens after it. -/
def parameterHints (p : Parameters) : List Token → List Span × Option (Token × List Token)
  | [] => (p.flush.spans, none)
  | t :: rest =>
    if t.text == bytes ")" && t.depth == 0 then (p.flush.spans, some (t, rest))
    else parameterHints (p.read t) rest

/-- The span of the result annotation after the closing bracket of the parameters. -/
def resultHint (closing : Token) (rest : List Token) : List Span :=
  match rest with
  | arrow :: rest =>
    if arrow.text == bytes "->" then
      match rest.find? fun t => t.text == bytes ":" && t.depth == 0 with
      | some colon => [{ start := closing.stop, stop := colon.start }]
      | none => []
    else []
  | [] => []

/-- The tokens after the first opening round bracket at the outermost level. -/
def afterParenthesis? : List Token → Option (List Token)
  | [] => none
  | t :: rest => if t.text == bytes "(" && t.depth == 0 then some rest else afterParenthesis? rest

/-- The spans of the annotations of a function head. -/
def signatureHints (tokens : List Token) : List Span :=
  match afterParenthesis? tokens with
  | none => []
  | some inside =>
    match parameterHints {} inside with
    | (spans, none) => spans
    | (spans, some (closing, rest)) => spans ++ resultHint closing rest

/-- The words that cannot be the target of an annotated assignment. -/
def keywords : List Bytes :=
  ["if", "elif", "else", "for", "while", "try", "except", "finally", "with", "def", "class",
    "lambda", "return", "match", "case", "async", "await", "yield", "del", "pass", "raise", "global",
    "nonlocal", "import", "from", "assert"]

/-- Drops `.name` pairs from the front. -/
def dropAttributes : List Token → List Token
  | dot :: name :: rest =>
    if dot.text == bytes "." && name.kind == .name then dropAttributes rest else dot :: name :: rest
  | tokens => tokens

/-- The end of the last token before the first top-level `=`, or `none` without one. `last` is the
end of the token before. -/
def endBeforeEquals? (last : Nat) : List Token → Option Nat
  | [] => none
  | t :: rest =>
    if t.kind == .operator && t.text == bytes "=" && t.depth == 0 then some last
    else endBeforeEquals? t.stop rest

/-- The span of the annotation of a statement such as `x: int = 1`; a statement that only declares
is left out as a whole. -/
def annotationSpan? (l : LogicalLine) : Option Span :=
  match l.tokens with
  | [] => none
  | first :: rest =>
    if first.kind != .name || keywords.contains first.text then none
    else
      match dropAttributes rest with
      | colon :: next :: more =>
        if colon.kind != .operator || colon.text != bytes ":" then none
        else if next.kind == .operator && next.text == bytes "=" && next.depth == 0 then none
        else
          match endBeforeEquals? next.stop more with
          | some stop => some { start := colon.start, stop }
          -- a bare declaration such as `x: int`
          | none => some { start := l.start, stop := l.stop }
      | _ => none

/-- Whether a line defines a function. -/
def isFunction (tokens : List Token) : Bool :=
  match tokens with
  | [] => false
  | first :: rest =>
    first.text == bytes "def"
      || (first.text == bytes "async" && (rest.head?.map (·.text == bytes "def")).getD false)

def hintSpans (logicals : List LogicalLine) : List Span :=
  logicals.flatMap fun l =>
    if isFunction l.tokens then signatureHints l.tokens else (annotationSpan? l).toList

/-! ## Cutting -/

/-- The bytes from `position` on that lie in none of the spans, which are ordered by their start. -/
def cutFrom (source : Bytes) (position : Nat) : List Span → Bytes
  | [] => source.drop position
  | span :: rest =>
    if span.stop ≤ position then cutFrom source position rest
    else slice source position span.start ++ cutFrom source span.stop rest

/-- The bytes of a source that lie in none of the spans. -/
def applyCuts (source : Bytes) (spans : List Span) : Bytes :=
  cutFrom source 0 (spans.mergeSort fun a b => a.start ≤ b.start)

end Bindery.Listing.Python
