import Bindery.Listing.Selection

/-!
# The standard layout of Go listings

Listings in Go are shown in the standard layout of the language: one statement a line, tabs for
blocks, blanks around operators, an empty line after the package clause and between declarations of
different kinds. The layout is computed for sources made of simple declarations and statements; any
other source is shown as it is.
-/

namespace Bindery.Listing.Layout

open Text

/-! ## Tokens of a line -/

/-- A token: a word, a literal, an operator, or a comment up to the end of the line. -/
inductive Token where
  | word (text : Bytes)
  | literal (text : Bytes)
  | sign (text : Bytes)
  | comment (text : Bytes)
  deriving DecidableEq, Repr

def Token.text : Token → Bytes
  | .word t | .literal t | .sign t | .comment t => t

/-- The operators that may stand in a simple statement, longer ones first. -/
def signs : List Bytes :=
  [":=", "==", "!=", "<=", ">=", "&&", "||", "+=", "-=", "++", "--", "(", ")", "\x7b", "\x7d", ",", ";",
    ".", "=", "+", "-", "*", "/", "%", "<", ">", "!"]

/-- How many bytes a literal takes after its opening quote; it has to close on its line. -/
def literalTail? (quote : UInt8) : Bytes → Option Nat
  | [] => none
  | c :: rest =>
    if c = '\\' ∧ quote ≠ '\x60' then
      match rest with
      | [] => none
      | _ :: rest => (literalTail? quote rest).map (· + 2)
    else if c = quote then some 1
    else (literalTail? quote rest).map (· + 1)

/-- The first token of a line and how many bytes it takes after the first. -/
def firstToken? (c : UInt8) (rest : Bytes) : Option (Token × Nat) :=
  if isLetter c || c == '_' then
    let more := rest.takeWhile isWord
    some (.word (c :: more), more.length)
  else if isDigit c then
    let more := rest.takeWhile fun c => isWord c || c == '.'
    some (.literal (c :: more), more.length)
  else if c = '"' ∨ c = '\'' ∨ c = '\x60' then
    (literalTail? c rest).map fun n => (.literal (c :: rest.take n), n)
  else if c = '/' ∧ rest.head? = some '/' then some (.comment (c :: rest), rest.length)
  else if c = '/' ∧ rest.head? = some '*' then none
  else (signs.find? fun s => s.isPrefixOf (c :: rest)).map fun s => (.sign s, s.length - 1)

/-- The tokens of a line, or `none` if it holds anything else. -/
def tokens? : Bytes → Option (List Token)
  | [] => some []
  | c :: rest =>
    if isBlank c then tokens? rest
    else
      match firstToken? c rest with
      | none => none
      | some (t, n) => (tokens? (rest.drop n)).map (t :: ·)
termination_by s => s.length
decreasing_by all_goals simp only [List.length_drop, List.length_cons]; omega

/-! ## Expressions -/

/-- The words that begin or join statements and are no names. -/
def keywords : List Bytes :=
  ["break", "case", "chan", "const", "continue", "default", "defer", "else", "fallthrough", "for",
    "func", "go", "goto", "if", "import", "interface", "map", "package", "range", "return", "select",
    "struct", "switch", "type", "var"]

def Token.isName : Token → Bool
  | .word t => !keywords.contains t
  | _ => false

/-- The binding strength of a binary operator, 0 for anything else. -/
def precedence (t : Token) : Nat :=
  let binary : List (Bytes × Nat) :=
    [("||", 1), ("&&", 2), ("==", 3), ("!=", 3), ("<", 3), ("<=", 3), (">", 3), (">=", 3), ("+", 4),
      ("-", 4), ("*", 5), ("/", 5), ("%", 5)]
  match t with
  | .sign s => (binary.lookup s).getD 0
  | _ => 0

mutual

/-- Lays out an operand: a name or literal with selectors and calls after it. -/
def operand? : Nat → List Token → Option (Bytes × List Token)
  | 0, _ => none
  | _, [] => none
  | fuel + 1, t :: rest =>
    match t with
    | .literal text => some (text, rest)
    | .word text => if keywords.contains text then none else suffixes? fuel text rest
    | .sign text =>
      if text == bytes "-" || text == bytes "!" then
        (operand? fuel rest).map fun (s, rest) => (text ++ s, rest)
      else none
    | .comment _ => none
termination_by structural fuel => fuel

/-- Lays out the selectors and calls after a name. -/
def suffixes? : Nat → Bytes → List Token → Option (Bytes × List Token)
  | 0, _, _ => none
  | fuel + 1, done, rest =>
    match rest with
    | .sign s :: .word name :: more =>
      if s == bytes "." && !keywords.contains name then
        suffixes? fuel (done ++ bytes "." ++ name) more
      else if s == bytes "(" then call? fuel done rest
      else some (done, rest)
    | .sign s :: _ => if s == bytes "(" then call? fuel done rest else some (done, rest)
    | _ => some (done, rest)
termination_by structural fuel => fuel

/-- Lays out a call: the arguments in brackets. -/
def call? : Nat → Bytes → List Token → Option (Bytes × List Token)
  | 0, _, _ => none
  | fuel + 1, done, rest =>
    match rest.drop 1 with
    | .sign s :: more =>
      if s == bytes ")" then suffixes? fuel (done ++ bytes "()") more
      else arguments? fuel (done ++ bytes "(") true (.sign s :: more)
    | more => arguments? fuel (done ++ bytes "(") true more
termination_by structural fuel => fuel

/-- Lays out the arguments of a call up to the closing bracket. Only a single argument may be a
compound expression. -/
def arguments? : Nat → Bytes → Bool → List Token → Option (Bytes × List Token)
  | 0, _, _, _ => none
  | fuel + 1, done, alone, tokens =>
    match expression? fuel tokens with
    | none => none
    | some (s, simple, rest) =>
      match rest with
      | .sign c :: more =>
        if c == bytes ")" && (alone || simple) then suffixes? fuel (done ++ s ++ bytes ")") more
        else if c == bytes "," && simple then
          arguments? fuel (done ++ s ++ bytes ", ") false more
        else none
      | _ => none
termination_by structural fuel => fuel

/-- Lays out an expression whose binary operators all bind equally. Also says whether it is a single
operand. -/
def expression? : Nat → List Token → Option (Bytes × Bool × List Token)
  | 0, _ => none
  | fuel + 1, tokens =>
    match operand? fuel tokens with
    | none => none
    | some (s, rest) =>
      match rest with
      | t :: more =>
        if precedence t = 0 then some (s, true, rest)
        else
          match expressionTail? fuel (precedence t) (s ++ bytes " " ++ t.text ++ bytes " ") more with
          | none => none
          | some (s, rest) => some (s, false, rest)
      | [] => some (s, true, [])
termination_by structural fuel => fuel

/-- Lays out the operands after a binary operator. -/
def expressionTail? : Nat → Nat → Bytes → List Token → Option (Bytes × List Token)
  | 0, _, _, _ => none
  | fuel + 1, level, done, tokens =>
    match operand? fuel tokens with
    | none => none
    | some (s, rest) =>
      match rest with
      | t :: more =>
        if precedence t = 0 then some (done ++ s, rest)
        else if precedence t = level then
          expressionTail? fuel level (done ++ s ++ bytes " " ++ t.text ++ bytes " ") more
        else none
      | [] => some (done ++ s, [])
termination_by structural fuel => fuel

end

/-- Lays out tokens that are one whole expression. -/
def wholeExpression? (tokens : List Token) : Option Bytes :=
  match expression? (4 * tokens.length + 4) tokens with
  | some (s, _, []) => some s
  | _ => none

/-! ## Statements -/

/-- Cuts tokens around the first one with a given text. -/
def cutAt? (text : Bytes) : List Token → Option (List Token × List Token)
  | [] => none
  | t :: rest =>
    if t == .sign text then some ([], rest)
    else (cutAt? text rest).map fun (before, after) => (t :: before, after)

/-- Lays out a simple statement. -/
def simple? (tokens : List Token) : Option Bytes :=
  match tokens with
  | [] => none
  | .word w :: rest =>
    if w == bytes "return" then
      if rest.isEmpty then some w else (wholeExpression? rest).map (w ++ bytes " " ++ ·)
    else if w == bytes "break" || w == bytes "continue" then if rest.isEmpty then some w else none
    else if w == bytes "var" || w == bytes "const" then
      match rest with
      -- `const name = value`
      | name :: .sign s :: value =>
        if name.isName && s == bytes "=" then
          (wholeExpression? value).map (w ++ bytes " " ++ name.text ++ bytes " = " ++ ·)
        else none
      -- `var name type`
      | [name, type] =>
        if name.isName && type.isName && w == bytes "var" then
          some (w ++ bytes " " ++ name.text ++ bytes " " ++ type.text)
        else none
      -- `var name type = value`
      | name :: type :: .sign s :: value =>
        if name.isName && type.isName && s == bytes "=" then
          (wholeExpression? value).map
            (w ++ bytes " " ++ name.text ++ bytes " " ++ type.text ++ bytes " = " ++ ·)
        else none
      | _ => none
    else
      -- Of several signs of assignment the first of this list counts, wherever it stands.
      let assigned := [bytes ":=", bytes "=", bytes "+=", bytes "-="].findSome? fun op =>
        (cutAt? op tokens).map fun (target, value) => (op, target, value)
      match assigned with
      | some (op, target, value) => do
        let t ← wholeExpression? target
        let v ← wholeExpression? value
        some (t ++ bytes " " ++ op ++ bytes " " ++ v)
      | none =>
        match tokens.getLast? with
        | some (.sign s) =>
          if s == bytes "++" || s == bytes "--" then (wholeExpression? tokens.dropLast).map (· ++ s)
          else if s == bytes ")" then wholeExpression? tokens
          else none
        | _ => none
  | _ => none

/-- Lays out the parameters of a function up to the closing bracket. -/
def parameters? (done : Bytes) : List Token → Option (Bytes × List Token)
  | .sign s :: rest => if s == bytes ")" then some (done ++ bytes ")", rest) else none
  | name :: .sign s :: rest =>
    if !name.isName then none
    else if s == bytes "," then parameters? (done ++ name.text ++ bytes ", ") rest
    else if s == bytes ")" then some (done ++ name.text ++ bytes ")", rest)
    else none
  | name :: type :: .sign s :: rest =>
    if !name.isName || !type.isName then none
    else if s == bytes "," then
      parameters? (done ++ name.text ++ bytes " " ++ type.text ++ bytes ", ") rest
    else if s == bytes ")" then
      some (done ++ name.text ++ bytes " " ++ type.text ++ bytes ")", rest)
    else none
  | _ => none

/-- What a line is at the outermost level. -/
inductive Kind where
  | package
  | imports
  | const
  | var
  | func
  | statement
  | comment
  deriving DecidableEq, Repr

/-- A line that is laid out: whether it closes a block before its text and opens one after it, and
whether an empty line stands before it. -/
structure Line where
  kind : Kind
  text : Bytes
  closes : Bool := false
  opens : Bool := false
  gap : Bool := false
  /-- The comment behind the text. -/
  remark : Option Bytes := none
  deriving Repr

/-- Lays out what follows the head of a function: an opening brace, and a body on the same line. -/
def functionBody? (head : Bytes) (rest : List Token) : Option Line := do
  guard (rest.head? == some (.sign "\x7b"))
  let body := rest.drop 1
  if body.isEmpty then some { kind := .func, text := head ++ bytes " \x7b", opens := true }
  else
    guard (body.getLast? == some (.sign "\x7d"))
    let inside := body.dropLast
    if inside.isEmpty then some { kind := .func, text := head ++ bytes " \x7b\x7d" }
    else
      let s ← simple? inside
      some { kind := .func, text := head ++ bytes " \x7b " ++ s ++ bytes " \x7d" }

/-- Lays out the head of a function and a body on the same line. -/
def function? (tokens : List Token) : Option Line :=
  match tokens with
  | name :: .sign s :: rest => do
    guard (name.isName && s == bytes "(")
    let (head, rest) ← parameters? (bytes "func " ++ name.text ++ bytes "(") rest
    match rest with
    | .word type :: more => functionBody? (head ++ bytes " " ++ type) more
    | _ => functionBody? head rest
  | _ => none

def Kind.ofWord (w : Bytes) : Kind :=
  if w == bytes "var" then .var else if w == bytes "const" then .const else .statement

/-- Lays out a line without a comment behind it. -/
def bareLine? (tokens : List Token) : Option Line :=
  match tokens with
  | [] => none
  | [.sign s] => if s == bytes "\x7d" then some { kind := .statement, text := s, closes := true } else none
  | [.comment text] => some { kind := .comment, text }
  | .word w :: rest =>
    if w == bytes "package" then
      match rest with
      | [name] =>
        if name.isName then some { kind := .package, text := w ++ bytes " " ++ name.text } else none
      | _ => none
    else if w == bytes "import" then
      match rest with
      | [.literal path] =>
        if path.head? == some 34 then some { kind := .imports, text := w ++ bytes " " ++ path } else none
      | _ => none
    else if w == bytes "func" then function? rest
    else if w == bytes "for" || w == bytes "if" then do
      guard (rest.getLast? == some (.sign "\x7b"))
      let condition := rest.dropLast
      if condition.isEmpty then
        guard (w == bytes "for")
        some { kind := .statement, text := bytes "for \x7b", opens := true }
      else
        let s ← wholeExpression? condition
        some { kind := .statement, text := w ++ bytes " " ++ s ++ bytes " \x7b", opens := true }
    else (simple? tokens).map fun text => { kind := .ofWord w, text }
  | _ => none

/-- Lays out a line. -/
def line? (tokens : List Token) : Option Line :=
  match tokens.dropLast, tokens.getLast? with
  | t :: ts, some (.comment remark) => (bareLine? (t :: ts)).map fun l => { l with remark }
  | _, _ => bareLine? tokens

/-! ## Sources -/

/-- Lays out lines inside `depth` open blocks. `previous` is the kind of the declaration before, and
`fresh` says that a block was opened, or a comment begun, on the line before. Empty lines at the edges of
a block go. Among declarations an empty line stands before a comment and where the kind changes. -/
def layoutFrom (declarations : Bool) (depth : Nat) (previous : Option Kind) (fresh : Bool) :
    List Line → List Bytes
  | [] => []
  | l :: rest =>
    let depth := if l.closes then depth - 1 else depth
    let outermost := depth = 0 && !l.closes
    let begins := declarations && outermost && previous.isSome && !fresh
    let changed := l.kind = .comment || previous != some l.kind
    let apart := (l.gap && !(fresh && !outermost) && !l.closes) || (begins && changed)
    let text := List.replicate depth 9 ++ l.text ++ (l.remark.map (32 :: ·)).getD []
    let next := if outermost && l.kind != .comment then some l.kind else previous
    -- A comment among the declarations belongs to what follows it.
    let goesOn := l.opens || (outermost && l.kind = .comment)
    let more := layoutFrom declarations (if l.opens then depth + 1 else depth) next goesOn rest
    if apart then [] :: text :: more else text :: more

/-- Whether the blocks of lines are closed in order, starting inside `depth` blocks. -/
def balanced (depth : Nat) : List Line → Bool
  | [] => depth == 0
  | l :: rest =>
    if l.closes && depth == 0 then false
    else
      let depth := if l.closes then depth - 1 else depth
      balanced (if l.opens then depth + 1 else depth) rest

/-- The kinds of the lines at the outermost level. -/
def outerKinds (depth : Nat) : List Line → List Kind
  | [] => []
  | l :: rest =>
    let depth' := if l.closes then depth - 1 else depth
    let more := outerKinds (if l.opens then depth' + 1 else depth') rest
    if depth' = 0 && !l.closes then l.kind :: more else more

/-- Whether the lines are a file, a list of declarations or a list of statements. -/
def coherent (kinds : List Kind) : Bool :=
  let declared := kinds.any fun k => k = .func || k = .package || k = .imports
  let body := (kinds.dropWhile (· == .package)).dropWhile (· == .imports)
  !(declared && kinds.contains .statement) && !(kinds.drop 1).contains .package && !body.contains .imports

/-- Whether two lines in a row have comments behind them, which would have to stand in one column. -/
def hasColumns : List Line → Bool
  | l :: m :: rest => (l.remark.isSome && m.remark.isSome && !m.gap) || hasColumns (m :: rest)
  | _ => false

/-- Reads the lines of a source; `gap` says that empty lines were passed. -/
def lines? (gap : Bool) : List Bytes → Option (List Line)
  | [] => some []
  | text :: rest =>
    if text.isEmpty then lines? true rest
    else do
      let tokens ← tokens? text
      let l ← line? tokens
      let more ← lines? false rest
      some ({ l with gap } :: more)

/-- The lines of a listing in the standard layout, or `none` when it is to be shown as it is. -/
def layout? (ls : List Bytes) : Option (List Bytes) := do
  let laid ← lines? false ls
  let kinds := (outerKinds 0 laid).filter (· != .comment)
  guard (balanced 0 laid && coherent kinds && !hasColumns laid)
  some (layoutFrom (!kinds.contains .statement) 0 none true laid)

/-- The text of a source in the standard layout, or `none` when it is to be shown as it is. -/
def format? (source : Bytes) : Option Bytes :=
  (layout? (textLines source)).map fun ls => unlines ls ++ [10]

end Bindery.Listing.Layout
