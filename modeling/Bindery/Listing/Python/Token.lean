import Bindery.Listing.Selection

/-!
# Tokens of indented sources

A source is cut into lexemes, and the tokens among them are gathered into logical lines: physical
lines that an open bracket or a backslash at the end joins. Offsets count bytes from the start of the
source.
-/

namespace Bindery.Listing.Python

open Text

/-- What a token is. -/
inductive TokenKind where
  | name
  | number
  | string
  | operator
  deriving DecidableEq, Repr

/-- A token with the bracket depth around it. A bracket carries the depth outside of itself. -/
structure Token where
  kind : TokenKind
  text : Bytes
  start : Nat
  stop : Nat
  depth : Nat
  deriving DecidableEq, Repr

/-- A logical line: whole physical lines with the line feed at their end, and their tokens. -/
structure LogicalLine where
  start : Nat
  stop : Nat
  tokens : List Token
  deriving DecidableEq, Repr

/-- A comment, and where the physical line it stands on starts. -/
structure Comment where
  start : Nat
  stop : Nat
  lineStart : Nat
  deriving DecidableEq, Repr

/-! ## Lexemes -/

/-- Whether a byte begins a name. All bytes of non-ASCII characters do. -/
def isNameStart (c : UInt8) : Bool := c == '_' || isLetter c || 0x80 ≤ c

/-- Whether a byte continues a name. -/
def isNameByte (c : UInt8) : Bool := isNameStart c || isDigit c

/-- The operators of two bytes. -/
def longOperators : List Bytes :=
  ["->", ":=", "**", "//", "==", "!=", "<=", ">=", "<<", ">>", "+=", "-=", "*=", "/=", "%=", "&=",
    "|=", "^=", "@="]

def isOpening (c : UInt8) : Bool := c == '(' || c == '[' || c == '{'

def isClosing (c : UInt8) : Bool := c == ')' || c == ']' || c == '}'

/-- How many bytes a string takes after its opening quotes. A backslash escapes the next byte; a
string with single quotes ends before the end of its line at the latest. -/
def stringTail (quote : UInt8) (triple : Bool) : Bytes → Nat
  | [] => 0
  | c :: rest =>
    if c = '\\' then
      match rest with
      | [] => 1
      | _ :: rest => stringTail quote triple rest + 2
    else if triple && [quote, quote, quote].isPrefixOf (c :: rest) then 3
    else if !triple && c == quote then 1
    else if !triple && c == '\n' then 0
    else stringTail quote triple rest + 1

/-- How many bytes a string takes after the first byte of its opening quotes. -/
def stringWidth (quote : UInt8) (rest : Bytes) : Nat :=
  if [quote, quote].isPrefixOf rest then stringTail quote true (rest.drop 2) + 2
  else stringTail quote false rest

/-- Whether a name in front of a quote belongs to the string. -/
def isStringMark (name : Bytes) : Bool :=
  let marks : List Bytes := ["r", "u", "b", "f", "br", "rb", "fr", "rf"]
  marks.contains (name.map lowerByte)

/-- A lexeme: what stands at a place, and how many bytes it takes after the first. -/
inductive Lexeme where
  | newline
  /-- A backslash right before a line feed. -/
  | continuation
  | blank
  | comment (more : Nat)
  | token (kind : TokenKind) (more : Nat)
  deriving DecidableEq, Repr

/-- How many bytes a lexeme takes after the first. -/
def Lexeme.more : Lexeme → Nat
  | .comment n => n
  | .token _ n => n
  | _ => 0

/-- The lexeme at the start of a source. -/
def firstLexeme (c : UInt8) (rest : Bytes) : Lexeme :=
  if c = '\n' then .newline
  else if c = '\\' ∧ rest.head? = some 10 then .continuation
  else if isBlank c || c == '\r' then .blank
  else if c = '#' then .comment (rest.takeWhile (!isNewline ·)).length
  else if c = '"' ∨ c = '\'' then .token .string (stringWidth c rest)
  else if isNameStart c then
    let more := rest.takeWhile isNameByte
    -- Letters in front of the quotes can belong to a string, as `rb` does.
    match rest.drop more.length with
    | q :: after =>
      if (q = '"' ∨ q = '\'') ∧ isStringMark (c :: more) then
        .token .string (more.length + 1 + stringWidth q after)
      else .token .name more.length
    | [] => .token .name more.length
  else if isDigit c || (c == '.' && (rest.head?.map isDigit).getD false) then
    .token .number (rest.takeWhile fun c => isNameByte c || c == '.').length
  else if longOperators.any fun o => o.isPrefixOf (c :: rest) then .token .operator 1
  else .token .operator 0

/-! ## Logical lines -/

/-- The state of the tokeniser between two lexemes. Lists are kept backwards. -/
structure State where
  offset : Nat := 0
  depth : Nat := 0
  /-- A backslash at the end of the line joins the next one. -/
  continued : Bool := false
  lineStart : Nat := 0
  logicalStart : Nat := 0
  tokens : List Token := []
  logicals : List LogicalLine := []
  comments : List Comment := []
  deriving Repr

/-- The state after a lexeme whose bytes are `c :: rest.take more`. -/
def State.step (s : State) (c : UInt8) (rest : Bytes) (lexeme : Lexeme) : State :=
  let text := c :: rest.take lexeme.more
  let stop := s.offset + text.length
  match lexeme with
  | .newline =>
    let s' := { s with offset := stop, continued := false, lineStart := stop }
    -- Inside brackets, and behind a backslash, the logical line goes on.
    if s.depth = 0 ∧ !s.continued then
      { s' with
        logicals := { start := s.logicalStart, stop, tokens := s.tokens.reverse } :: s.logicals
        tokens := []
        logicalStart := stop }
    else s'
  | .continuation => { s with offset := stop, continued := true }
  | .blank => { s with offset := stop }
  | .comment _ =>
    { s with
      offset := stop
      comments := { start := s.offset, stop, lineStart := s.lineStart } :: s.comments }
  | .token kind _ =>
    let inside := if kind = .operator ∧ isClosing c then s.depth - 1 else s.depth
    let token : Token := { kind, text, start := s.offset, stop, depth := inside }
    let after := text.reverse.takeWhile (!isNewline ·)
    { s with
      offset := stop
      depth := if kind = .operator ∧ isOpening c then inside + 1 else inside
      -- A string of several lines begins the physical line that it ends on.
      lineStart :=
        if kind = .string ∧ after.length < text.length then stop - after.length else s.lineStart
      tokens := token :: s.tokens }

/-- Runs the tokeniser over a source. -/
def State.run (s : State) : Bytes → State
  | [] => s
  | c :: rest =>
    let lexeme := firstLexeme c rest
    (s.step c rest lexeme).run (rest.drop lexeme.more)
termination_by source => source.length
decreasing_by simp only [List.length_drop, List.length_cons]; omega

/-- The logical lines and the comments of a source. -/
def tokenize (source : Bytes) : List LogicalLine × List Comment :=
  let s := State.run {} source
  let last : List LogicalLine :=
    if s.logicalStart < source.length || !s.tokens.isEmpty then
      [{ start := s.logicalStart, stop := source.length, tokens := s.tokens.reverse }]
    else []
  (s.logicals.reverse ++ last, s.comments.reverse)

end Bindery.Listing.Python
