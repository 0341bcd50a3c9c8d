import Bindery.Text.Utf8

/-!
# Tokens of YAML

A YAML text is read as a sequence of tokens. Block structure is marked by indentation; a mapping key
is recognised only when the colon after it is seen, so the scanner remembers where a key could have
started and puts the key token there later.
-/

namespace Bindery.Yaml

/-- How a scalar is written. -/
inductive Style where
  | plain
  | single
  | double
  | literal
  | folded
  deriving DecidableEq, Repr

/-- A token. -/
inductive Token where
  /-- The directive for a version of YAML. -/
  | version (major minor : Nat)
  /-- A directive that gives a handle of tags its meaning. -/
  | tagHandle (handle meaning : Bytes)
  | documentStart
  | documentEnd
  | streamEnd
  | blockSequenceStart
  | blockMappingStart
  | blockEnd
  | flowSequenceStart
  | flowSequenceEnd
  | flowMappingStart
  | flowMappingEnd
  | blockEntry
  | flowEntry
  | key
  | value
  | alias (name : Bytes)
  | anchor (name : Bytes)
  | tag (handle suffix : Bytes)
  | scalar (style : Style) (text : Bytes)
  /-- The rest of the text is malformed. -/
  | malformed
  deriving DecidableEq, Repr

/-! ## Characters -/

def isBreak (c : Char) : Bool :=
  c == '\n' || c == '\r' || c.val == 0x85 || c.val == 0x2028 || c.val == 0x2029

def isBlank (c : Char) : Bool := c == ' ' || c == '\t'

/-- The end of the text, or a character of a class. -/
def orEnd (p : Char → Bool) (c : Option Char) : Bool :=
  match c with
  | none => true
  | some c => p c

/-- A blank, a break or the end. -/
def endsWord (c : Option Char) : Bool := orEnd (fun c => isBlank c || isBreak c) c

/-- A break or the end. -/
def endsLine (c : Option Char) : Bool := orEnd isBreak c

/-- Whether a character may stand in a YAML text at all. -/
def isAllowed (c : Char) : Bool :=
  let v := c.toNat
  v == 9 || v == 10 || v == 13 || (0x20 ≤ v && v ≤ 0x7E) || v == 0x85 || (0xA0 ≤ v && v ≤ 0xD7FF)
    || (0xE000 ≤ v && v ≤ 0xFFFD && v != 0xFEFF) || 0x10000 ≤ v

/-- Whether a character may stand in the name of an anchor. -/
def isAnchorChar (c : Char) : Bool := c.isAlphanum || c == '_' || c == '-'

/-! ## The scanner -/

/-- A place where a mapping key may have started. -/
structure SimpleKey where
  possible : Bool := false
  /-- A colon has to follow. -/
  required : Bool := false
  /-- The number of the token that would be the key. -/
  token : Nat := 0
  index : Nat := 0
  line : Nat := 0
  column : Nat := 0
  deriving Repr

/-- The state of the scanner. The stacks of possible keys and of indentations have their tops in
front. -/
structure Scanner where
  rest : List Char
  index : Nat := 0
  line : Nat := 0
  column : Nat := 0
  flow : Nat := 0
  keys : List SimpleKey := [{}]
  keyAllowed : Bool := true
  indent : Int := -1
  indents : List Int := []
  tokens : List Token := []
  finished : Bool := false
  deriving Repr

/-- A step of the scanner; a step that fails leaves the tokens found so far. -/
abbrev Scan := ExceptT Unit (StateM Scanner)

namespace Scan

def peek (n : Nat) : Scan (Option Char) := do return (← get).rest[n]?

/-- Passes one character, or the two of a line break. -/
def eat : Scan Unit := modify fun s =>
  match s.rest with
  | [] => s
  | '\r' :: '\n' :: rest => { s with rest, index := s.index + 2, line := s.line + 1, column := 0 }
  | c :: rest =>
    if isBreak c then { s with rest, index := s.index + 1, line := s.line + 1, column := 0 }
    else { s with rest, index := s.index + 1, column := s.column + 1 }

/-- Passes a number of characters. -/
def eatMany : Nat → Scan Unit
  | 0 => pure ()
  | n + 1 => do eat; eatMany n

/-- Reads a line break: a line feed, unless it is a line or paragraph separator. -/
def takeBreak : Scan (List Char) := do
  match ← peek 0 with
  | none => return []
  | some c =>
    eat
    return if c.val == 0x2028 || c.val == 0x2029 then [c] else ['\n']

/-- Passes characters of a class, at most `bound` of them, and returns them. -/
def takeWhile (p : Char → Bool) : Nat → Scan (List Char)
  | 0 => return []
  | bound + 1 => do
    match ← peek 0 with
    | some c =>
      if p c then
        eat
        return c :: (← takeWhile p bound)
      else return []
    | none => return []

/-- A bound on the number of characters left. -/
def bound : Scan Nat := do return (← get).rest.length + 1

def emit (t : Token) : Scan Unit := modify fun s => { s with tokens := s.tokens ++ [t] }

/-- Whether the three characters at hand are a given mark, alone on the start of a line. -/
def atMark (mark : List Char) : Scan Bool := do
  let s ← get
  return s.column == 0 && mark.isPrefixOf s.rest && endsWord s.rest[3]?

/-! ### Keys and indentation -/

/-- Whether the possible key on top is still possible. A key lies on one line and within 1024
characters. -/
def keyIsValid : Scan Bool := do
  let s ← get
  match s.keys with
  | [] => return false
  | k :: rest =>
    if !k.possible then return false
    else if k.line < s.line || k.index + 1024 < s.index then
      if k.required then throw ()
      else
        set { s with keys := { k with possible := false } :: rest }
        return false
    else return true

/-- Gives up the possible key on top. -/
def removeKey : Scan Unit := do
  let s ← get
  match s.keys with
  | [] => return
  | k :: rest =>
    if k.possible && k.required then throw ()
    else set { s with keys := { k with possible := false } :: rest }

/-- Remembers that a key may start here. -/
def saveKey : Scan Unit := do
  let s ← get
  if s.keyAllowed then
    removeKey
    let key : SimpleKey :=
      { possible := true, required := s.flow == 0 && s.indent == (s.column : Int)
        token := s.tokens.length, index := s.index, line := s.line, column := s.column }
    modify fun s => { s with keys := key :: s.keys.drop 1 }

/-- Opens a block collection at a column deeper than the present indentation; its token is put at a
position, or at the end. -/
def rollIndent (column : Nat) (position : Option Nat) (t : Token) : Scan Unit := modify fun s =>
  if s.flow > 0 then s
  else if s.indent < (column : Int) then
    { s with
      indents := s.indent :: s.indents
      indent := (column : Int)
      tokens := s.tokens.insertIdx (position.getD s.tokens.length) t }
  else s

/-- Closes the block collections that are deeper than a column. -/
def unrollIndent (column : Int) : Scan Unit := modify fun s =>
  if s.flow > 0 then s
  else
    let rec close : List Int → Int → List Token → List Int × Int × List Token
      | [], indent, closed => ([], indent, closed)
      | outer :: indents, indent, closed =>
        if indent > column then close indents outer (.blockEnd :: closed)
        else (outer :: indents, indent, closed)
    let (indents, indent, closed) := close s.indents s.indent []
    { s with indents, indent, tokens := s.tokens ++ closed }

/-! ### Blanks and comments -/

/-- Passes blanks, comments and line breaks up to the next token. Tabs may not stand where a key may
start. -/
def skipToToken : Nat → Scan Unit
  | 0 => pure ()
  | n + 1 => do
    let s ← get
    match s.rest with
    | [] => pure ()
    | c :: _ =>
      if c == ' ' || (c == '\t' && (s.flow > 0 || !s.keyAllowed)) then
        eat
        skipToToken n
      else if c == '#' then
        let _ ← takeWhile (!isBreak ·) (← bound)
        skipToToken n
      else if isBreak c then
        eat
        if s.flow == 0 then modify fun s => { s with keyAllowed := true }
        skipToToken n
      else pure ()

/-! ### Scalars -/

/-- Folds the line breaks between two words: a single one becomes a blank. -/
def fold (first more : List Char) : List Char :=
  if first.head? == some '\n' then (if more.isEmpty then [' '] else more) else first ++ more

/-- Passes blanks and line breaks inside a scalar of several lines: the blanks before the first
break, that break, the later breaks, and whether there was a break. -/
def scalarGap (plainIndent : Option Int) (broken : Bool) (blanks first more : List Char) :
    Nat → Scan (List Char × List Char × List Char × Bool)
  | 0 => return (blanks, first, more, broken)
  | n + 1 => do
    match ← peek 0 with
    | none => return (blanks, first, more, broken)
    | some c =>
      if isBlank c then
        if let some indent := plainIndent then
          if broken && ((← get).column : Int) < indent && c == '\t' then throw ()
        eat
        scalarGap plainIndent broken (if broken then blanks else blanks ++ [c]) first more n
      else if isBreak c then
        let b ← takeBreak
        if broken then scalarGap plainIndent true blanks first (more ++ b) n
        else scalarGap plainIndent true [] b more n
      else return (blanks, first, more, broken)

/-- The value of a hexadecimal escape of a number of digits. -/
def hexEscape : Nat → Nat → Scan Nat
  | 0, value => return value
  | n + 1, value => do
    match ← peek 0 with
    | none => throw ()
    | some c =>
      if c.toNat < 128 && Text.isHexDigit c.toUInt8 then
        eat
        hexEscape n (value * 16 + Text.hexValue c.toUInt8)
      else throw ()

/-- The character of an escape sequence, after the backslash. -/
def escape : Scan (List Char) := do
  let digits (n : Nat) : Scan (List Char) := do
    let v ← hexEscape n 0
    if (0xD800 ≤ v && v ≤ 0xDFFF) || v > 0x10FFFF then throw ()
    return [Char.ofNat v]
  match ← peek 0 with
  | none => throw ()
  | some c =>
    eat
    match c with
    | '0' => return [Char.ofNat 0]
    | 'a' => return [Char.ofNat 7]
    | 'b' => return [Char.ofNat 8]
    | 't' | '\t' => return ['\t']
    | 'n' => return ['\n']
    | 'v' => return [Char.ofNat 11]
    | 'f' => return [Char.ofNat 12]
    | 'r' => return ['\r']
    | 'e' => return [Char.ofNat 27]
    | ' ' | '"' | '\'' | '\\' | '/' => return [c]
    | 'N' => return [Char.ofNat 0x85]
    | '_' => return [Char.ofNat 0xA0]
    | 'L' => return [Char.ofNat 0x2028]
    | 'P' => return [Char.ofNat 0x2029]
    | 'x' => digits 2
    | 'u' => digits 4
    | 'U' => digits 8
    | _ => throw ()

/-- Reads the words of a quoted scalar up to a blank, a break or the closing quote; also says whether
an escaped line break ended them. -/
def quotedWord (double : Bool) (done : List Char) : Nat → Scan (List Char × Bool)
  | 0 => return (done, false)
  | n + 1 => do
    match ← peek 0 with
    | none => return (done, false)
    | some c =>
      if isBlank c || isBreak c then return (done, false)
      else if !double && c == '\'' then
        if (← peek 1) == some '\'' then
          eatMany 2
          quotedWord double (done ++ ['\'']) n
        else return (done, false)
      else if double && c == '"' then return (done, false)
      else if double && c == '\\' then
        if ((← peek 1).map isBreak).getD false then
          eatMany 2
          return (done, true)
        else
          eat
          let e ← escape
          quotedWord double (done ++ e) n
      else
        eat
        quotedWord double (done ++ [c]) n

/-- Reads a quoted scalar after its opening quote. -/
def quoted (double : Bool) (done : List Char) : Nat → Scan (List Char)
  | 0 => throw ()
  | n + 1 => do
    if (← atMark ['-', '-', '-']) || (← atMark ['.', '.', '.']) then throw ()
    if (← peek 0).isNone then throw ()
    let (done, escaped) ← quotedWord double done (← bound)
    if (← peek 0) == some (if double then '"' else '\'') then
      eat
      return done
    else
      let (blanks, first, more, broken) ← scalarGap none escaped [] [] [] (← bound)
      quoted double (done ++ if broken then fold first more else blanks) n

/-- Reads a word of a plain scalar. -/
def plainWord (done : List Char) : Nat → Scan (List Char)
  | 0 => return done
  | n + 1 => do
    match ← peek 0 with
    | none => return done
    | some c =>
      let flow := (← get).flow > 0
      if isBlank c || isBreak c || (c == ':' && endsWord (← peek 1))
          || (flow && (c == ',' || c == '?' || c == '[' || c == ']' || c == '{' || c == '}')) then
        return done
      else
        eat
        plainWord (done ++ [c]) n

/-- Reads a plain scalar. `gap` holds what stands before the next word; also says whether the last gap
held a line break. -/
def plain (done gap : List Char) (broken : Bool) : Nat → Scan (List Char × Bool)
  | 0 => return (done, broken)
  | n + 1 => do
    if (← atMark ['-', '-', '-']) || (← atMark ['.', '.', '.']) then return (done, broken)
    if (← peek 0) == some '#' then return (done, broken)
    let word ← plainWord [] (← bound)
    let done := if word.isEmpty then done else done ++ gap ++ word
    let broken := if word.isEmpty then broken else false
    let s ← get
    if !((s.rest.head?.map fun c => isBlank c || isBreak c).getD false) then return (done, broken)
    else
      let (blanks, first, more, broken) ← scalarGap (some (s.indent + 1)) broken [] [] [] (← bound)
      let s ← get
      if s.flow == 0 && (s.column : Int) < s.indent + 1 then return (done, broken)
      else plain done (if broken then fold first more else blanks) broken n

/-- Passes indentation and empty lines of a block scalar: the breaks, and the widest indentation. An
indentation of 0 is not known yet. -/
def blockBreaks (indent : Nat) (breaks : List Char) (widest : Nat) : Nat → Scan (List Char × Nat)
  | 0 => return (breaks, widest)
  | n + 1 => do
    let s ← get
    match s.rest with
    | [] => return (breaks, max widest s.column)
    | c :: _ =>
      let inside := indent == 0 || s.column < indent
      if inside && c == ' ' then
        eat
        blockBreaks indent breaks widest n
      else
        let widest := max widest s.column
        if inside && c == '\t' then throw ()
        else if isBreak c then
          let b ← takeBreak
          blockBreaks indent (breaks ++ b) widest n
        else return (breaks, widest)

/-- Reads the lines of a block scalar. -/
def blockLines (literal : Bool) (indent : Nat) (done lead trail : List Char) (wasBlank : Bool) :
    Nat → Scan (List Char × List Char × List Char)
  | 0 => return (done, lead, trail)
  | n + 1 => do
    let s ← get
    match s.rest with
    | [] => return (done, lead, trail)
    | c :: _ =>
      if s.column != indent then return (done, lead, trail)
      else
        let blank := isBlank c
        let lead :=
          if !literal && !wasBlank && !blank && lead.head? == some '\n' then
            (if trail.isEmpty then [' '] else [])
          else lead
        let text ← takeWhile (!isBreak ·) (← bound)
        let next ← takeBreak
        let (breaks, _) ← blockBreaks indent [] 0 (← bound)
        blockLines literal indent (done ++ lead ++ trail ++ text) next breaks blank n

/-- How the line breaks at the end of a block scalar are treated. -/
inductive Chomp where
  | strip
  | clip
  | keep
  deriving DecidableEq, Repr

/-- Reads an indentation digit. -/
def indentDigit : Scan (Option Nat) := do
  match ← peek 0 with
  | some c =>
    if c.isDigit then
      if c == '0' then throw ()
      eat
      return some (c.toNat - 48)
    else return none
  | none => return none

/-- Reads a chomping sign. -/
def chompSign : Scan (Option Chomp) := do
  match ← peek 0 with
  | some '+' => eat; return some .keep
  | some '-' => eat; return some .strip
  | _ => return none

/-- Reads a block scalar. -/
def blockScalar (literal : Bool) : Scan (List Char) := do
  eat
  let before ← chompSign
  let digit ← indentDigit
  let after ← if before.isNone && digit.isSome then chompSign else pure none
  let chomp := (before <|> after).getD .clip
  let _ ← takeWhile isBlank (← bound)
  if (← peek 0) == some '#' then
    let _ ← takeWhile (!isBreak ·) (← bound)
  if !endsLine (← peek 0) then throw ()
  let _ ← takeBreak
  let outer := (← get).indent
  let given := match digit with
    | none => 0
    | some d => if outer ≥ 0 then outer.toNat + d else d
  let (breaks, widest) ← blockBreaks given [] 0 (← bound)
  -- Without a digit the first line counts, or a wider empty one before it.
  let indent := if given == 0 then max (max widest (outer + 1).toNat) 1 else given
  let (text, lead, trail) ← blockLines literal indent [] [] breaks false (← bound)
  return text ++ (if chomp == .strip then [] else lead) ++ if chomp == .keep then trail else []

/-! ### Anchors and tags -/

def encode (cs : List Char) : Bytes := Text.bytes (String.ofList cs)

/-- Reads the name of an anchor or alias. -/
def anchorName : Scan Bytes := do
  eat
  let name ← takeWhile isAnchorChar (← bound)
  let next ← peek 0
  let stops := ['?', ':', ',', ']', '}', '%', '@', '\x60']
  if name.isEmpty || !(endsWord next || (next.map stops.contains).getD false) then throw ()
  return encode name

/-- Whether a character may stand in a tag. -/
def isTagChar (c : Char) : Bool :=
  c.isAlphanum || ['_', '-', ';', '/', '?', ':', '@', '&', '=', '+', '$', '.', '%', '!', '~', '*', '\'',
    '(', ')'].contains c

/-- Whether a character may stand in a tag that is written out in full. -/
def isUriChar (c : Char) : Bool := isTagChar c || c == ',' || c == '[' || c == ']'

/-- Reads a tag: its handle and its suffix. -/
def tag : Scan Token := do
  eat
  match ← peek 0 with
  | some '<' =>
    eat
    let uri ← takeWhile isUriChar (← bound)
    if (← peek 0) != some '>' then throw ()
    eat
    if !endsWord (← peek 0) then throw ()
    return .tag [] (encode uri)
  | _ =>
    let word ← takeWhile isAnchorChar (← bound)
    let result ←
      if (← peek 0) == some '!' then
        eat
        let suffix ← takeWhile isTagChar (← bound)
        if suffix.isEmpty then throw ()
        pure (Token.tag (encode (['!'] ++ word ++ ['!'])) (encode suffix))
      else
        let more ← takeWhile isTagChar (← bound)
        pure (Token.tag [33] (encode (word ++ more)))
    if !endsWord (← peek 0) then throw ()
    return result

/-! ### Directives -/

/-- Reads a number of one or two digits. -/
def versionNumber : Scan Nat := do
  let digits ← takeWhile Char.isDigit (← bound)
  if digits.isEmpty || digits.length > 2 then throw ()
  return digits.foldl (fun n c => n * 10 + (c.toNat - 48)) 0

/-- Reads the version that a directive asks for. -/
def versionDirective : Scan Token := do
  let major ← versionNumber
  if (← peek 0) != some '.' then throw ()
  eat
  return .version major (← versionNumber)

/-- Reads a handle of tags and its meaning. -/
def tagDirective : Scan Token := do
  if (← peek 0) != some '!' then throw ()
  eat
  let word ← takeWhile isAnchorChar (← bound)
  let close ← takeWhile (· == '!') 1
  if close.isEmpty && !word.isEmpty then throw ()
  let blanks ← takeWhile isBlank (← bound)
  let meaning ← takeWhile isUriChar (← bound)
  if blanks.isEmpty || meaning.isEmpty || !endsWord (← peek 0) then throw ()
  return .tagHandle (encode (['!'] ++ word ++ close)) (encode meaning)

/-- Reads a directive, with the line it stands on. -/
def directive : Scan Token := do
  eat
  let name ← takeWhile isAnchorChar (← bound)
  if !endsWord (← peek 0) then throw ()
  let _ ← takeWhile isBlank (← bound)
  let token ←
    if encode name == Text.bytes "YAML" then versionDirective
    else if encode name == Text.bytes "TAG" then tagDirective
    else throw ()
  let _ ← takeWhile isBlank (← bound)
  if (← peek 0) == some '#' then
    let _ ← takeWhile (!isBreak ·) (← bound)
  if !endsLine (← peek 0) then throw ()
  let _ ← takeBreak
  return token

/-! ### Tokens -/

/-- Ends everything that is open, as the end of a document does. -/
def closeAll : Scan Unit := do
  unrollIndent (-1)
  removeKey
  modify fun s => { s with keyAllowed := false }

/-- Opens a flow collection. -/
def openFlow (t : Token) : Scan Unit := do
  saveKey
  modify fun s => { s with keys := {} :: s.keys, flow := s.flow + 1, keyAllowed := true }
  eat
  emit t

/-- Closes a flow collection. -/
def closeFlow (t : Token) : Scan Unit := do
  removeKey
  modify fun s =>
    { s with
      keys := if s.flow > 0 then s.keys.drop 1 else s.keys
      flow := s.flow - 1
      keyAllowed := false }
  eat
  emit t

/-- Reads the colon of a mapping. -/
def valueMark : Scan Unit := do
  if ← keyIsValid then
    let s ← get
    match s.keys with
    | [] => pure ()
    | k :: rest =>
      -- The colon shows that what was read before is a key, and the token for that goes in front.
      set { s with tokens := s.tokens.insertIdx k.token .key }
      rollIndent k.column (some k.token) .blockMappingStart
      modify fun s => { s with keys := { k with possible := false } :: rest, keyAllowed := false }
  else
    let s ← get
    if s.flow == 0 then
      if !s.keyAllowed then throw ()
      rollIndent s.column none .blockMappingStart
    modify fun s => { s with keyAllowed := s.flow == 0 }
  eat
  emit .value

/-- Reads the next token. -/
def next : Scan Unit := do
  skipToToken (← bound)
  let s ← get
  unrollIndent s.column
  match s.rest with
  | [] =>
    modify fun s => if s.column == 0 then s else { s with column := 0, line := s.line + 1 }
    closeAll
    emit .streamEnd
    modify fun s => { s with finished := true }
  | c :: _ =>
    let following := s.rest[1]?
    let flow := s.flow > 0
    if s.column == 0 && c == '%' then
      closeAll
      emit (← directive)
    else if ← atMark ['-', '-', '-'] then
      closeAll
      eatMany 3
      emit .documentStart
    else if ← atMark ['.', '.', '.'] then
      closeAll
      eatMany 3
      emit .documentEnd
      modify fun s => { s with finished := true }
    else if c == '[' then openFlow .flowSequenceStart
    else if c == '{' then openFlow .flowMappingStart
    else if c == ']' then closeFlow .flowSequenceEnd
    else if c == '}' then closeFlow .flowMappingEnd
    else if c == ',' then
      removeKey
      modify fun s => { s with keyAllowed := true }
      eat
      emit .flowEntry
    else if c == '-' && endsWord following then
      if !flow then
        if !s.keyAllowed then throw ()
        rollIndent s.column none .blockSequenceStart
      removeKey
      modify fun s => { s with keyAllowed := true }
      eat
      emit .blockEntry
    else if c == '?' && (flow || endsWord following) then
      if !flow then
        if !s.keyAllowed then throw ()
        rollIndent s.column none .blockMappingStart
      removeKey
      modify fun s => { s with keyAllowed := !flow }
      eat
      emit .key
    else if c == ':' && (flow || endsWord following) then valueMark
    else if c == '*' || c == '&' then
      saveKey
      modify fun s => { s with keyAllowed := false }
      let name ← anchorName
      emit (if c == '*' then .alias name else .anchor name)
    else if c == '!' then
      saveKey
      modify fun s => { s with keyAllowed := false }
      emit (← tag)
    else if (c == '|' || c == '>') && !flow then
      removeKey
      modify fun s => { s with keyAllowed := true }
      let text ← blockScalar (c == '|')
      emit (.scalar (if c == '|' then .literal else .folded) (encode text))
    else if c == '\'' || c == '"' then
      saveKey
      modify fun s => { s with keyAllowed := false }
      eat
      let text ← quoted (c == '"') [] (← bound)
      emit (.scalar (if c == '"' then .double else .single) (encode text))
    else
      let special := ['-', '?', ':', '#', '|', '>', '%', '@', '\x60']
      let starts :=
        !(isBlank c || isBreak c || special.contains c)
          || (c == '-' && !((following.map isBlank).getD false))
          || (!flow && (c == '?' || c == ':') && !endsWord following)
      if starts then
        saveKey
        modify fun s => { s with keyAllowed := false }
        let (text, broken) ← plain [] [] false (← bound)
        if broken then modify fun s => { s with keyAllowed := true }
        emit (.scalar .plain (encode text))
      else throw ()

/-- Reads tokens up to the end of the first document. -/
def all : Nat → Scan Unit
  | 0 => throw ()
  | n + 1 => do
    next
    if !(← get).finished then all n

end Scan

/-- The tokens of the first document of a text, up to a malformed place. -/
def tokens (text : Bytes) : List Token :=
  match Text.toString? text with
  | none => [.malformed]
  | some s =>
    let cs := s.toList
    let cs := match cs with
      | c :: rest => if c.val == 0xFEFF then rest else cs
      | [] => cs
    if !cs.all isAllowed then [.malformed]
    else
      match (Scan.all (2 * cs.length + 4)).run.run { rest := cs } with
      | (.ok _, s) => s.tokens
      | (.error _, s) => s.tokens ++ [.malformed]

end Bindery.Yaml
