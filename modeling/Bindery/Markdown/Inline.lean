import Bindery.Markdown.Autolink
import Bindery.Markdown.Entity
import Bindery.Markdown.Tag

/-!
# Inside the lines

Emphasis, links, images, code and the like in the text of a block. A text is read from left to right
into items. Runs of emphasis marks and opening brackets wait among them until what closes them is
found; those that nothing closes are text.
-/

namespace Bindery.Markdown

open Text (bytes)

/-- A piece of a text. -/
inductive Inline where
  /-- Text as written, with escapes and references. -/
  | text (source : Bytes)
  | softBreak
  | hardBreak
  | code (content : Bytes)
  | emphasis (strong : Bool) (children : List Inline)
  | deleted (children : List Inline)
  | link (destination title : Bytes) (children : List Inline)
  | image (destination title : Bytes) (children : List Inline)
  | autolink (label url : Bytes) (isMail : Bool)
  | html (source : Bytes)
  | checkbox (checked : Bool)
  deriving Repr

mutual

/-- Whether a link stands in a piece. -/
def Inline.hasLink : Inline → Bool
  | .link _ _ _ => true
  | .emphasis _ children => haveLink children
  | .deleted children => haveLink children
  | .image _ _ children => haveLink children
  | _ => false
termination_by structural i => i

/-- Whether a link stands in any of several pieces. -/
def haveLink : List Inline → Bool
  | [] => false
  | i :: is => i.hasLink || haveLink is
termination_by structural is => is

end

/-- A run of emphasis marks. -/
structure Run where
  mark : UInt8
  /-- How many marks are left. -/
  length : Nat
  /-- How many marks there were. -/
  whole : Nat
  canOpen : Bool
  canClose : Bool

/-- What the text read so far consists of. -/
inductive Item where
  | node (i : Inline)
  | run (r : Run)
  /-- An opening bracket, and the text after it. -/
  | bracket (image : Bool) (after : Bytes)

namespace Item

/-- What an item is when nothing closes it. -/
def settle : Item → Inline
  | .node i => i
  | .run r => .text (List.replicate r.length r.mark)
  | .bracket image _ => .text (if image then "![" else "[")

def isBracket : Item → Bool
  | .bracket _ _ => true
  | _ => false

end Item

/-- Joins neighbouring texts. -/
def joinTexts : List Inline → List Inline
  | [] => []
  | i :: is =>
    match i, joinTexts is with
    | .text a, .text b :: rest => .text (a ++ b) :: rest
    | i, rest => i :: rest

def settleAll (items : List Item) : List Inline := joinTexts (items.map Item.settle)

/-! ## Emphasis -/

/-- How many marks two runs take from each other: two for strong emphasis, else one. None if they are
of different marks, or if one of them could both open and close and their lengths add up to a multiple
of three. -/
def Run.taken (opener closer : Run) : Nat :=
  if !opener.canOpen || opener.mark != closer.mark then 0
  else if (opener.canClose || closer.canOpen) && (opener.whole + closer.whole) % 3 == 0
      && closer.whole % 3 != 0 then 0
  else if opener.length ≥ 2 && closer.length ≥ 2 then 2
  else 1

/-- The nearest run that a run closes, among items with the latest first: the items between, the run,
and the items before it. -/
def opener? (closer : Run) : List Item → Option (List Item × Run × List Item)
  | [] => none
  | item :: before =>
    let further := (opener? closer before).map fun (between, r, rest) => (item :: between, r, rest)
    match item with
    | .run r => if r.taken closer > 0 then some ([], r, before) else further
    | _ => further

/-- Resolves the runs of marks. `left` holds the items already passed, the latest first. Each step
passes an item or uses up marks, which bounds their number. -/
def pairRuns : Nat → List Item → List Item → List Item
  | 0, left, right => left.reverse ++ right
  | _, left, [] => left.reverse
  | bound + 1, left, item :: right =>
    match item with
    | .run closer =>
      match if closer.canClose then opener? closer left else none with
      | none => pairRuns bound (item :: left) right
      | some (between, opener, before) =>
        let n := opener.taken closer
        let children := settleAll between.reverse
        let node : Inline :=
          if closer.mark = 126 then .deleted children else .emphasis (n == 2) children
        let rest (r : Run) : List Item :=
          if r.length > n then [.run { r with length := r.length - n }] else []
        pairRuns bound (.node node :: rest opener ++ before) (rest closer ++ right)
    | item => pairRuns bound (item :: left) right

/-- How many steps pairing can take. -/
def pairBound (items : List Item) : Nat :=
  items.foldl (fun n i => n + match i with
    | .run r => 2 * r.length + 2
    | _ => 2) 1

/-- Items as pieces, with emphasis. -/
def emphasize (items : List Item) : List Inline := settleAll (pairRuns (pairBound items) [] items)

/-- A run of marks between two code points. Marks open where something other than white space follows
and close where something other than white space stands before. -/
def Run.between (mark : UInt8) (length before after : Nat) : Run :=
  let leftFlank := !Text.isSpaceRune after
    && (!Text.isPunctRune after || Text.isSpaceRune before || Text.isPunctRune before)
  let rightFlank := !Text.isSpaceRune before
    && (!Text.isPunctRune before || Text.isSpaceRune after || Text.isPunctRune after)
  -- Underscores inside of a word neither open nor close.
  let inner := mark == 95
  { mark, length, whole := length
    canOpen := leftFlank && (!inner || !rightFlank || Text.isPunctRune before)
    canClose := rightFlank && (!inner || !leftFlank || Text.isPunctRune after) }

/-! ## Code -/

/-- The text up to a run of exactly so many backticks, and how many bytes it takes with the run. -/
def codeEnd? (ticks : Nat) : Nat → Bytes → Option (Bytes × Nat)
  | 0, _ => none
  | _, [] => none
  | bound + 1, c :: rest =>
    if c = 96 then
      let run := ((c :: rest).takeWhile (· == 96)).length
      if run = ticks then some ([], run)
      else
        (codeEnd? ticks bound ((c :: rest).drop run)).map fun (t, n) =>
          (List.replicate run 96 ++ t, run + n)
    else (codeEnd? ticks bound rest).map fun (t, n) => (c :: t, n + 1)

/-- The content of code: line feeds are blanks, and one blank is dropped at both ends unless there is
nothing else. -/
def codeContent (s : Bytes) : Bytes :=
  let isEdge (c : Option UInt8) : Bool := c.any fun c => c == 32 || c == 10
  let s := if isEdge s.head? && isEdge s.getLast? && !isBlankLine s then (s.drop 1).dropLast else s
  s.map fun c => if c = 10 then 32 else c

/-! ## Reading -/

/-- What reading a text depends on. -/
structure Manner where
  /-- Whether the additions of the wider dialect are read: deletions, bare addresses, task boxes. -/
  wide : Bool
  definitions : List Definition
  /-- Whether the text starts a list item, where a task box may stand. -/
  startsItem : Bool := false
  /-- Whether the text is a table's cell, where a bar in code is escaped. -/
  isCell : Bool := false

/-- The state of reading. -/
structure Flow where
  rest : Bytes
  /-- What was read, the latest byte first. -/
  before : Bytes := []
  /-- Whether a line or the text after a node starts here. -/
  head : Bool := true
  escaped : Bool := false
  /-- The text since the last node, the latest byte first. -/
  pending : Bytes := []
  /-- The items, the latest first. -/
  items : List Item := []

namespace Flow

/-- Puts the pending text among the items. -/
def flush (f : Flow) : Flow :=
  if f.pending.isEmpty then f
  else { f with items := .node (.text f.pending.reverse) :: f.items, pending := [] }

/-- Passes bytes. -/
def advance (f : Flow) (n : Nat) : Flow :=
  { f with rest := f.rest.drop n, before := (f.rest.take n).reverse ++ f.before }

/-- Adds an item that takes bytes. -/
def emit (f : Flow) (item : Item) (n : Nat) : Flow :=
  let f := (f.flush).advance n
  { f with items := item :: f.items, head := true }

/-- Passes a byte as text. -/
def keep (f : Flow) (c : UInt8) : Flow := { f.advance 1 with pending := c :: f.pending, head := false }

/-- The code point before. -/
def lastRune (f : Flow) : Nat :=
  (((Text.runes (f.before.take 4).reverse).getLast?).map (·.1)).getD 10

/-- The last opening bracket: the items behind it, the latest first, its kind, the text after it and
the items before it. -/
def bracket? : List Item → Option (List Item × Bool × Bytes × List Item)
  | [] => none
  | .bracket image after :: before => some ([], image, after, before)
  | item :: before => (bracket? before).map fun (inside, image, after, rest) => (item :: inside, image, after, rest)

/-- The target in parentheses after a bracket, and the text after it. -/
def inlineTarget? (s : Bytes) : Option (Bytes × Bytes × Bytes) :=
  match s.dropWhile isSpace with
  | 41 :: after => some ([], [], after)
  | s => do
    let (destination, s) ← destination? s
    match s.dropWhile isSpace with
    | 41 :: after => some (destination, [], after)
    | s =>
      let (title, s) ← title? s
      match s.dropWhile isSpace with
      | 41 :: after => some (destination, title, after)
      | _ => none

/-- The target of a link whose text ends at a closing bracket, with the text after the link. -/
def target? (definitions : List Definition) (label afterBracket : Bytes) : Option (Bytes × Bytes × Bytes) :=
  let defined (label after : Bytes) : Option (Bytes × Bytes × Bytes) :=
    (define? definitions label).map fun d => (d.destination, d.title, after)
  let shortcut := defined label afterBracket
  match afterBracket with
  | 40 :: rest => (inlineTarget? rest).or shortcut
  | 91 :: rest =>
    match closure? 91 93 rest with
    | none => shortcut
    | some (name, after) => defined (if isBlankLine name then label else name) after
  | _ => shortcut

/-- Handles a closing bracket. Without a target, or with a link inside a link, the brackets are
text. -/
def closeBracket (f : Flow) (m : Manner) : Flow :=
  let g := f.flush
  match bracket? g.items with
  | none => f.keep 93
  | some (inside, image, after, before) =>
    let label := after.take (after.length - g.rest.length)
    -- Links hold no links, but pictures may.
    let linked := inside.any fun
      | .node i => i.hasLink
      | _ => false
    let target := if !image && linked then none else target? m.definitions label (g.rest.drop 1)
    match target with
    | none =>
      let text := (Item.bracket image after).settle
      { g with items := inside ++ Item.node text :: before }.keep 93
    | some (destination, title, rest) =>
      let children := emphasize inside.reverse
      let node : Inline :=
        if image then .image destination title children else .link destination title children
      { g with items := before }.emit (.node node) (g.rest.length - rest.length)

/-- A bare address here, or after the byte here. -/
def bareAddress? (f : Flow) (m : Manner) : Option Flow :=
  if !m.wide || f.items.any Item.isBracket then none
  else
    let line := f.rest.takeWhile (· != 10)
    let lead : Bool := line.head?.any fun c => (bytes " *_~(").contains c
    let line := if lead then line.drop 1 else line
    (bareLink? line).map fun a =>
      let f := if lead then f.keep (f.rest.headD 0) else f
      let label := line.take a.length
      let url := if a.scheme.isEmpty then label else a.scheme ++ "://" ++ label
      f.emit (.node (.autolink label url a.isMail)) a.length

/-- A task box at the start of a list item: whether it is checked, and how many bytes it takes. -/
def checkbox? (m : Manner) (f : Flow) : Option (Bool × Nat) :=
  if !m.wide || !m.startsItem || !f.before.isEmpty then none
  else
    match f.rest with
    | 91 :: c :: 93 :: rest =>
      if isSpace c ∨ c = 120 ∨ c = 88 then some (!isSpace c, 3 + (rest.takeWhile isSpace).length) else none
    | _ => none

/-- Reads a node that starts with a byte. -/
def node? (m : Manner) (f : Flow) (c : UInt8) : Option Flow :=
  if c = 96 then
    let ticks := (f.rest.takeWhile (· == 96)).length
    let after := f.rest.drop ticks
    match codeEnd? ticks after.length after with
    | some (content, n) =>
      let content := codeContent content
      -- In a cell the bar has its backslash even inside of code.
      let content := if m.isCell then Text.replaceAll "\\|" "|" content else content
      some (f.emit (.node (.code content)) (ticks + n))
    | none => some (f.emit (.node (.text (List.replicate ticks 96))) ticks)
  else if c = 42 ∨ c = 95 then
    let length := (f.rest.takeWhile (· == c)).length
    let after := (Text.firstRune (f.rest.drop length ++ [10])).1
    some (f.emit (.run (.between c length f.lastRune after)) length)
  else if c = 126 ∧ m.wide then
    let length := (f.rest.takeWhile (· == c)).length
    if length > 2 || f.before.head? == some 126 then f.bareAddress? m
    else
      let after := (Text.firstRune (f.rest.drop length ++ [10])).1
      some (f.emit (.run (.between c length f.lastRune after)) length)
  else if c = 91 then
    match checkbox? m f with
    | some (checked, n) => some (f.emit (.node (.checkbox checked)) n)
    | none => some (f.emit (.bracket false (f.rest.drop 1)) 1)
  else if c = 33 ∧ (f.rest.drop 1).head? = some 91 then some (f.emit (.bracket true (f.rest.drop 2)) 2)
  else if c = 60 then
    match bracketed? f.rest with
    | some a =>
      let label := (f.rest.drop 1).take a.length
      some (f.emit (.node (.autolink label label a.isMail)) (a.length + 2))
    | none => (rawHtml? f.rest).map fun n => f.emit (.node (.html (f.rest.take n))) n
  else if c = 40 ∨ c = 32 then f.bareAddress? m
  else none

/-- Ends a line: the text of the line without the white space at its end, and a break. Two blanks at
the end make a hard one. -/
def endLine (f : Flow) : Flow :=
  let line := match f.pending with
    | 13 :: line => line
    | line => line
  let hard : Bool := match line with
    | 32 :: 32 :: _ => true
    | _ => false
  { f with pending := line.dropWhile isSpace }.emit (.node (if hard then .hardBreak else .softBreak)) 1

/-- Reads a text up to its end. Each step takes a byte at least. -/
def read (m : Manner) : Nat → Flow → Flow
  | 0, f => f
  | bound + 1, f =>
    match f.rest with
    | [] => { f with pending := f.pending.dropWhile isSpace }.flush
    | c :: rest =>
      if c = 10 then read m bound f.endLine
      else if c = 92 ∧ rest.head? = some 10 ∧ f.pending.head? ≠ some 92 then
        read m bound (f.emit (.node .hardBreak) 2)
      else
        let isMark := Text.isPunct c
        let trigger := (isMark && !f.escaped) || isSpace c || f.head
        let start := if isSpace c || (f.head && !isMark) then 32 else c
        if trigger && start = 93 then read m bound { f.closeBracket m with escaped := false }
        else
          match if trigger then node? m f start else none with
          | some g => read m bound g
          | none =>
            let escaped := f.escaped && !(trigger && (start = 32 || start = 40) && m.wide)
            read m bound { f.keep c with escaped := !escaped && c == 92 }

end Flow

def inlines (m : Manner) (s : Bytes) : List Inline :=
  emphasize (Flow.read m (s.length + 1) { rest := s }).items.reverse

end Bindery.Markdown
