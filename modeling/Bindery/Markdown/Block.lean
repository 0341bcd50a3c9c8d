import Bindery.Markdown.Tag
import Bindery.Text.Decimal

/-!
# Blocks

The blocks of a document: paragraphs, headings, code, lists and the like. A document is read line by
line. The blocks that are still open form a stack of containers, innermost first, with at most one
leaf in the innermost; each line continues some of them, closes the others and may open new ones.
-/

namespace Bindery.Markdown

open Text (bytes)

/-- How a column of a table is aligned. -/
inductive Alignment where
  | plain
  | left
  | center
  | right
  deriving DecidableEq, Repr

/-- A block. Its texts are still to be read for what stands inside the lines. -/
inductive Block where
  | paragraph (text : Bytes)
  | heading (level : Nat) (text : Bytes)
  | rule
  | code (info text : Bytes)
  | html (body : Bytes) (closing : Option Bytes)
  | quote (children : List Block)
  | list (ordered : Bool) (start : Nat) (tight : Bool) (items : List Block)
  | item (children : List Block)
  | table (alignments : List Alignment) (header : List Bytes) (rows : List (List Bytes))
  /-- The place of a paragraph that held nothing but definitions. -/
  | vacant
  deriving Repr

/-! ## Lines -/

/-- What is left of a line: the column where it starts, the columns left of a tab that was partly
consumed, and the text. -/
structure LineRest where
  column : Nat := 0
  spaces : Nat := 0
  text : Bytes
  deriving Repr

namespace LineRest

/-- The width of the white space at a column. Tabs go to the next multiple of four. -/
def widthFrom : Nat → Bytes → Nat
  | _, [] => 0
  | column, c :: rest =>
    if c = 32 then 1 + widthFrom (column + 1) rest
    else if c = 9 then
      let width := 4 - column % 4
      width + widthFrom (column + width) rest
    else 0

/-- The width of the white space at the start. -/
def indent (l : LineRest) : Nat := l.spaces + widthFrom (l.column + l.spaces) l.text

/-- Drops columns of white space, as many as there are up to a number. -/
def dropColumns : Nat → Nat → Nat → Bytes → LineRest
  | 0, column, spaces, text => { column, spaces, text }
  | n + 1, column, spaces + 1, text => dropColumns n (column + 1) spaces text
  | n + 1, column, 0, text =>
    match text with
    | 32 :: rest => dropColumns n (column + 1) 0 rest
    | 9 :: rest => dropColumns n (column + 1) (3 - column % 4) rest
    | text => { column, spaces := 0, text }

/-- Drops columns of white space. -/
def skip (l : LineRest) (n : Nat) : LineRest := dropColumns n l.column l.spaces l.text

def isBlank (l : LineRest) : Bool := isBlankLine l.text

/-- The text without the white space at its start. -/
def body (l : LineRest) : Bytes := l.text.dropWhile Text.isBlank

/-- The text with the columns that are left of a tab. -/
def content (l : LineRest) : Bytes := List.replicate l.spaces 32 ++ l.text

/-- What is left after a mark of some bytes behind the white space. -/
def past (l : LineRest) (n : Nat) : LineRest := { column := l.column + l.indent + n, text := l.body.drop n }

end LineRest

def trimEnd (s : Bytes) : Bytes := Text.trimEnd isSpace s

def trimSpace (s : Bytes) : Bytes := trimEnd (s.dropWhile isSpace)

/-- The level and the text of a heading that is marked by number signs. -/
def heading? (body : Bytes) : Option (Nat × Bytes) :=
  let level := (body.takeWhile (· == 35)).length
  let rest := body.drop level
  if level = 0 || level > 6 || !rest.head?.all isSpace then none
  else
    let text := trimSpace rest
    let unmarked := Text.trimEnd (· == 35) text
    -- Number signs at the end belong to the heading only behind a blank.
    let closed := unmarked.isEmpty || unmarked.getLast?.any Text.isBlank
    some (level, if closed then trimEnd unmarked else text)

/-- Whether a line is a rule: three or more of one mark with nothing but blanks between. -/
def isRule (body : Bytes) : Bool :=
  match body with
  | c :: _ =>
    (c == '-' || c == '_' || c == '*') && body.all (fun d => d == c || isSpace d) && body.count c ≥ 3
  | [] => false

/-- The level of the heading that a line of equals signs or hyphens below a paragraph makes it. -/
def underline? (body : Bytes) : Option Nat :=
  match body with
  | c :: _ =>
    if (c = 61 ∨ c = 45) ∧ isBlankLine (body.dropWhile (· == c)) then some (if c = 61 then 1 else 2)
    else none
  | [] => none

/-- The mark, the length and the info text of a line that opens fenced code. -/
def fence? (body : Bytes) : Option (UInt8 × Nat × Bytes) :=
  match body with
  | c :: _ =>
    let length := (body.takeWhile (· == c)).length
    let info := trimSpace (body.drop length)
    if (c = 96 ∨ c = 126) ∧ length ≥ 3 ∧ ¬(c = 96 ∧ info.contains 96) then some (c, length, info) else none
  | [] => none

/-- A mark that opens a list item. -/
structure Marker where
  ordered : Bool
  /-- The bullet, or what stands behind the number. -/
  mark : UInt8
  start : Nat := 0
  /-- How many bytes the mark takes. -/
  width : Nat
  deriving DecidableEq, Repr

/-- The mark of a list item at the start of a line. White space or nothing follows it. -/
def marker? (body : Bytes) : Option Marker :=
  let endsMark (rest : Bytes) : Bool := rest.head?.all isSpace
  match body with
  | c :: rest =>
    if c = 45 ∨ c = 43 ∨ c = 42 then
      if endsMark rest then some { ordered := false, mark := c, width := 1 } else none
    else
      let digits := body.takeWhile Text.isDigit
      match body.drop digits.length with
      | d :: after =>
        if (d = 46 ∨ d = 41) ∧ 1 ≤ digits.length ∧ digits.length ≤ 9 ∧ endsMark after then
          some { ordered := true, mark := d, start := Double.digitsValue digits, width := digits.length + 1 }
        else none
      | [] => none
  | [] => none

/-! ## Tables -/

/-- The alignment that a cell of the line below the header gives. -/
def alignment? (cell : Bytes) : Option Alignment :=
  let cell := trimSpace cell
  let left := cell.head? == some 58
  let inner := if left then cell.drop 1 else cell
  let right := inner.getLast? == some 58
  let dashes := if right then inner.dropLast else inner
  if dashes.isEmpty || !dashes.all (· == 45) then none
  else some (if left then (if right then .center else .left) else if right then .right else .plain)

/-- The alignments of the line below a table's header, if it is such a line. -/
def alignments? (line : Bytes) : Option (List Alignment) :=
  let allowed := line.all fun c => isSpace c || c == '-' || c == '|' || c == ':'
  if !allowed then none
  else
    let cells := Text.splitOn 124 line
    let cells := if cells.head?.any isBlankLine then cells.drop 1 else cells
    let cells := if cells.getLast?.any isBlankLine then cells.dropLast else cells
    cells.mapM alignment?

/-- Cuts a row at its bars; a bar after a backslash belongs to its cell. -/
def splitCells : Bytes → List Bytes
  | [] => [[]]
  | 92 :: 124 :: rest =>
    match splitCells rest with
    | [] => [[92, 124]]
    | first :: more => (92 :: 124 :: first) :: more
  | c :: rest =>
    match splitCells rest with
    | [] => [[c]]
    | first :: more => if c = 124 then [] :: first :: more else (c :: first) :: more

/-- The cells of a row. -/
def cells (line : Bytes) : List Bytes :=
  let line := trimSpace line
  let line := Text.withoutStart "|" line
  let line := Text.withoutEnd "|" line
  if line.isEmpty then [] else (splitCells line).map trimSpace

/-- A row with exactly as many cells as there are columns. -/
def fitCells (columns : Nat) (row : List Bytes) : List Bytes :=
  (row ++ List.replicate columns []).take columns

/-- Cuts the lines of a paragraph before a table's header: the lines before it and the table. -/
def table? (before : List Bytes) : List Bytes → Option (List Bytes × Block)
  | header :: line :: rows =>
    match alignments? line with
    | some (a :: as) =>
      let header := cells header
      if header.length = (a :: as).length then
        some (before.reverse,
          .table (a :: as) header (rows.map fun r => fitCells (a :: as).length (cells r)))
      else none
    | _ => table? (header :: before) (line :: rows)
  | _ => none

/-! ## Open blocks -/

/-- A container. -/
inductive Holder where
  | quote
  | list (ordered : Bool) (mark : UInt8) (start : Nat)
  /-- An item, with the columns that its content is indented by. -/
  | item (offset : Nat)
  deriving DecidableEq, Repr

/-- A block in its container. -/
structure Entry where
  block : Block
  /-- Whether a blank line stands before the block. -/
  blank : Bool
  /-- Whether blank lines stand between the blocks inside. -/
  loose : Bool := false

/-- An open container with its blocks so far, the latest first. -/
structure Frame where
  holder : Holder
  entries : List Entry := []
  blank : Bool

/-- The open block at the end of the innermost container. Lines are kept backwards. -/
inductive Leaf where
  | none
  | paragraph (lines : List Bytes)
  | fence (mark : UInt8) (length indent : Nat) (info : Bytes) (lines : List Bytes)
  | indented (lines : List Bytes)
  | html (ending : HtmlEnd) (lines : List Bytes)

/-- The state between two lines. -/
structure Builder where
  /-- Whether tables are read. -/
  tables : Bool
  /-- The open containers, innermost first. -/
  frames : List Frame := []
  /-- The blocks of the document so far, the latest first. -/
  entries : List Entry := []
  leaf : Leaf := .none
  /-- Whether a blank line stands before the leaf. -/
  leafBlank : Bool := false
  definitions : List Definition := []
  /-- The depth from which the line before was blank, if it was. -/
  lastBlank : Option Nat := some 0

namespace Builder

/-- Adds a block to the innermost container. -/
def add (b : Builder) (e : Entry) : Builder :=
  match b.frames with
  | [] => { b with entries := e :: b.entries }
  | f :: fs => { b with frames := { f with entries := e :: f.entries } :: fs }

/-- Whether a block that opens at a depth has a blank line before it. -/
def blankAt (b : Builder) (depth : Nat) : Bool := b.lastBlank.any (· ≤ depth)

/-- A container as a block. A list is tight if no blank line stands between its items or between the
blocks of one of them. -/
def close (f : Frame) : Entry :=
  let blocks := f.entries.reverse.map Entry.block
  match f.holder with
  | .quote => { block := .quote blocks, blank := f.blank }
  | .item _ => { block := .item blocks, blank := f.blank, loose := f.entries.dropLast.any Entry.blank }
  | .list ordered _ start =>
    let tight := !f.entries.any Entry.loose && !f.entries.dropLast.any Entry.blank
    { block := .list ordered start tight blocks, blank := f.blank }

def paragraphText (lines : List Bytes) : Bytes := trimEnd (Text.unlines lines.reverse)

/-- What the lines of a paragraph hold: the definitions at their start, the text behind these if
there is any, and the table that the text ends in. -/
def paragraphParts (b : Builder) (lines : List Bytes) : List Definition × Option Bytes × Option Block :=
  let text := paragraphText lines
  let (found, rest) := leadingDefinitions text.length text
  if isBlankLine rest then (found, none, none)
  else
    match if b.tables then table? [] (Text.lines rest) else none with
    | some ([], table) => (found, none, some table)
    | some (before, table) => (found, some (trimEnd (Text.unlines before)), some table)
    | none => (found, some rest, none)

/-- Closes the leaf. A paragraph first yields the definitions at its start, and may end in a table.
No blank line counts as standing before a table. -/
def closeLeaf (b : Builder) : Builder :=
  let blank := b.leafBlank
  let done := { b with leaf := .none }
  let block (block : Block) : Builder := done.add { block, blank }
  match b.leaf with
  | .none => done
  | .paragraph lines =>
    let (found, text, table) := b.paragraphParts lines
    let done := { done with definitions := b.definitions ++ found }
    match text, table with
    | none, none => done.add { block := .vacant, blank }
    | none, some table => done.add { block := table, blank := false }
    | some text, none => done.add { block := .paragraph text, blank }
    | some text, some table =>
      (done.add { block := .paragraph text, blank }).add { block := table, blank := false }
  | .fence _ _ _ info lines => block (.code info (lines.reverse.flatMap (· ++ [10])))
  | .indented lines =>
    block (.code [] ((lines.dropWhile isBlankLine).reverse.flatMap (· ++ [10])))
  | .html _ lines => block (.html lines.reverse.flatten none)

/-- Closes containers until a number of them is left. -/
def closeFrames : Nat → Builder → Builder
  | 0, b => b
  | n + 1, b =>
    match b.frames with
    | [] => b
    | f :: fs => closeFrames n ({ b with frames := fs }.add (close f))

/-- Closes the leaf and all containers below a depth. -/
def enter (b : Builder) (depth : Nat) : Builder :=
  let b := b.closeLeaf
  closeFrames (b.frames.length - depth) b

def push (b : Builder) (holder : Holder) : Builder :=
  { b with frames := { holder, blank := b.blankAt b.frames.length } :: b.frames }

def openLeaf (b : Builder) (leaf : Leaf) : Builder :=
  { b with leaf, leafBlank := b.blankAt b.frames.length, lastBlank := none }

/-- Adds a block that is complete with its line. -/
def addLine (b : Builder) (block : Block) : Builder :=
  { b.add { block, blank := b.blankAt b.frames.length } with lastBlank := none }

/-- How many of the containers, outermost first, a line continues, and what is left of it. -/
def matched (b : Builder) : List Frame → Nat → LineRest → Nat × LineRest
  | [], n, l => (n, l)
  | f :: fs, n, l =>
    match f.holder with
    | .list _ _ _ => b.matched fs (n + 1) l
    | .quote =>
      if l.indent ≤ 3 && l.body.head? == some 62 then b.matched fs (n + 1) ((l.past 1).skip 1) else (n, l)
    | .item offset =>
      if l.isBlank then
        -- An item that begins with an empty line ends at a second one.
        let empty : Bool := fs.isEmpty && f.entries.isEmpty && match b.leaf with
          | .none => true
          | _ => false
        if empty then (n, l) else b.matched fs (n + 1) l
      else if l.indent ≥ offset then b.matched fs (n + 1) (l.skip offset)
      else (n, l)

/-- Opens a list item, in the list that is open if it has the same kind of mark. -/
def openItem (b : Builder) (depth : Nat) (m : Marker) (offset : Nat) : Builder :=
  let b := b.enter depth
  let list : Holder := .list m.ordered m.mark m.start
  let b :=
    match b.frames with
    | f :: _ =>
      match f.holder with
      | .list ordered mark _ =>
        if ordered = m.ordered ∧ mark = m.mark then b else (b.enter (depth - 1)).push list
      | _ => b.push list
    | [] => b.push list
  b.push (.item offset)

/-- Leaves the list that is open at a depth: what is no item does not belong to it. -/
def leaveList (b : Builder) (depth : Nat) : Builder :=
  let b := b.enter depth
  match b.frames with
  | f :: _ =>
    match f.holder with
    | .list _ _ _ => b.enter (depth - 1)
    | _ => b
  | [] => b

/-- The lines of the paragraph that is open, if one is. -/
def paragraph? (b : Builder) : Option (List Bytes) :=
  match b.leaf with
  | .paragraph lines => some lines
  | _ => none

/-- Reads what is left of a line at a depth, opening one block after the other. `whole` tells whether
all open containers go on, and `ending` is the line feed of the line if it has one. Each container
takes a byte at least, so the length of the line suffices as a bound. -/
def step : Nat → Builder → Nat → Bool → LineRest → Bytes → Builder
  | 0, b, _, _, _, _ => b
  | bound + 1, b, depth, whole, l, ending =>
    let body := l.body
    let paragraph := b.paragraph?
    let line : Bytes := body
    if l.isBlank then { b.enter depth with lastBlank := some depth }
    else if l.indent ≥ 4 then
      match paragraph with
      -- Indentation does not end a paragraph.
      | some lines => { b with leaf := .paragraph (line :: lines), lastBlank := none }
      | none => (b.leaveList depth).openLeaf (.indented [(l.skip 4).content])
    else if body.head? = some 62 then
      let b := (b.leaveList depth).push .quote
      step bound b b.frames.length true ((l.past 1).skip 1) ending
    else if let some (level, text) := heading? body then (b.leaveList depth).addLine (.heading level text)
    else if let some (mark, length, info) := fence? body then
      (b.leaveList depth).openLeaf (.fence mark length l.indent info [])
    else if let some html := htmlBlock? paragraph.isSome (body ++ ending) then
      let first := l.content ++ ending
      let b := b.leaveList depth
      if html ≠ .blank ∧ html.closes first then b.addLine (.html first none)
      else b.openLeaf (.html html [first])
    else if let (some lines, true, some level) := (paragraph, whole, underline? body) then
      -- Definitions alone make no heading; then the line is read once more.
      match b.paragraphParts lines with
      | (_, none, _) => step bound b.closeLeaf depth whole l ending
      | (found, some text, table) =>
        let done : Builder :=
          { b with leaf := .none, definitions := b.definitions ++ found, lastBlank := none }
        (table.elim done fun table => done.add { block := table, blank := false }).add
          { block := .heading level text, blank := b.leafBlank }
    else if isRule body then (b.leaveList depth).addLine .rule
    else
      let continued : Builder :=
        match paragraph with
        | some lines => { b with leaf := .paragraph (line :: lines), lastBlank := none }
        | none => (b.leaveList depth).openLeaf (.paragraph [line])
      match marker? body with
      | none => continued
      | some m =>
        let rest := l.past m.width
        -- Neither an empty item nor a number other than one ends a paragraph.
        if whole && paragraph.isSome && (rest.isBlank || (m.ordered && m.start != 1)) then continued
        else
          -- From the fifth column on the content is indented code.
          let width := if rest.isBlank || rest.indent ≥ 5 then 1 else rest.indent
          let b := b.openItem depth m (l.indent + m.width + width)
          step bound b b.frames.length true (rest.skip width) ending

/-- Reads a line. -/
def line (b : Builder) (text ending : Bytes) : Builder :=
  let (depth, l) := b.matched b.frames.reverse 0 { text }
  let whole := depth == b.frames.length
  let fresh : Builder := b.step (text.length + 2) depth whole l ending
  let lastBlank := if l.isBlank then some depth else none
  let result : Builder :=
    if !whole then fresh
    else
      match b.leaf with
      | .fence mark length indent info lines =>
        let body := l.body
        let run := (body.takeWhile (· == mark)).length
        if l.indent ≤ 3 && run ≥ length && isBlankLine (body.drop run) then
          { b.closeLeaf with lastBlank := none }
        else
          { b with leaf := .fence mark length indent info ((l.skip indent).content :: lines), lastBlank }
      | .indented lines =>
        if l.indent ≥ 4 || l.isBlank then
          { b with leaf := .indented ((l.skip 4).content :: lines), lastBlank }
        else fresh
      | .html html lines =>
        let line := l.content ++ ending
        if html = .blank then
          if l.isBlank then fresh else { b with leaf := .html html (line :: lines), lastBlank }
        else if html.closes line then
          { b with leaf := .none, lastBlank := none }.add
            { block := .html lines.reverse.flatten (some line), blank := b.leafBlank }
        else { b with leaf := .html html (line :: lines), lastBlank }
      | _ => fresh
  if isBlankLine text then { result with lastBlank := some 0 } else result

/-- Reads lines one after the other. -/
def lines (b : Builder) : List Bytes → Builder
  | [] => b
  | [last] => if last.isEmpty then b else b.line last []
  | l :: ls => (b.line l [10]).lines ls

end Builder

/-- A document: its blocks and the definitions of link targets. -/
structure Document where
  blocks : List Block
  definitions : List Definition

/-- Reads a document. Of several definitions with one label the first is kept. -/
def Document.parse (tables : Bool) (text : Bytes) : Document :=
  let b := (({ tables } : Builder).lines (Text.lines text)).enter 0
  { blocks := b.entries.reverse.map Entry.block
    definitions := (b.definitions.foldl
      (fun kept d => if kept.any (fun k => labelKey k.label == labelKey d.label) then kept else d :: kept)
      []).reverse }

end Bindery.Markdown
