import Bindery.Markdown.Target

/-!
# Raw HTML

Tags, comments and the like inside a document, and the lines that open a block of them.
-/

namespace Bindery.Markdown

open Text (bytes)

/-! ## Inside a line -/

/-- The length of white space, including line feeds, at the start of a text. -/
def gap (s : Bytes) : Nat := (s.takeWhile Text.isGap).length

/-- The length of a tag name. -/
def tagName? (s : Bytes) : Option Nat :=
  match s with
  | c :: rest =>
    if Text.isLetter c then
      some (1 + (rest.takeWhile fun c => Text.isLetter c || Text.isDigit c || c == '-').length)
    else none
  | [] => none

/-- The length of the value of an attribute. -/
def attributeValue? (s : Bytes) : Option Nat :=
  match s with
  | c :: rest =>
    if c = 34 ∨ c = 39 then
      match Text.cutByte? c rest with
      | some (inside, _) => some (inside.length + 2)
      | none => none
    else
      let isValueByte (c : UInt8) : Bool :=
        c > 32 && c != 34 && c != 39 && c != '=' && c != '<' && c != '>' && c != 96
      match (s.takeWhile isValueByte).length with
      | 0 => none
      | n => some n
  | [] => none

/-- The length of an attribute with the white space before it. -/
def attribute? (s : Bytes) : Option Nat := do
  let lead := gap s
  guard (lead > 0)
  let s := s.drop lead
  let first ← s.head?
  guard (Text.isLetter first || first == '_' || first == ':')
  let name := (s.takeWhile fun c => Text.isWord c || c == ':' || c == '.' || c == '-').length
  let s := s.drop name
  let before := gap s
  match s.drop before with
  | 61 :: rest =>
    let after := gap rest
    match attributeValue? (rest.drop after) with
    | some n => some (lead + name + before + 1 + after + n)
    -- The equals sign is left over where no value follows.
    | none => some (lead + name)
  | _ => some (lead + name)

/-- The length of the attributes of a tag. -/
def attributes : Nat → Bytes → Nat
  | 0, _ => 0
  | bound + 1, s =>
    match attribute? s with
    | some n => n + attributes bound (s.drop n)
    | none => 0

/-- The length of an opening tag. -/
def openTag? (s : Bytes) : Option Nat := do
  let rest ← Text.afterStart? "<" s
  let name ← tagName? rest
  let rest := rest.drop name
  let attrs := attributes rest.length rest
  let rest := rest.drop attrs
  let space := gap rest
  match rest.drop space with
  | 62 :: _ => some (1 + name + attrs + space + 1)
  | 47 :: 62 :: _ => some (1 + name + attrs + space + 2)
  | _ => none

/-- The length of a closing tag. -/
def closeTag? (s : Bytes) : Option Nat := do
  let rest ← Text.afterStart? "</" s
  let name ← tagName? rest
  let rest := rest.drop name
  let space := gap rest
  match rest.drop space with
  | 62 :: _ => some (2 + name + space + 1)
  | _ => none

/-- The length of a text up to and including an ending. -/
def through? (ending s : Bytes) : Option Nat :=
  (Text.cut? ending s).map fun (before, _) => before.length + ending.length

/-- The length of raw HTML at the start of a text. -/
def rawHtml? (s : Bytes) : Option Nat :=
  match s with
  | 60 :: c :: rest =>
    if Text.isLetter c || Text.isDigit c then openTag? s
    else if c = 47 then closeTag? s
    else if Text.startsWith "<!--" s then
      if Text.startsWith "<!-->" s then some 5
      else if Text.startsWith "<!--->" s then some 6
      else (through? "-->" (s.drop 4)).map (· + 4)
    else if c = 63 then (through? "?>" (s.drop 2)).map (· + 2)
    else if c = 33 then
      match rest with
      | d :: _ =>
        if 65 ≤ d ∧ d ≤ 90 then (through? ">" (s.drop 2)).map (· + 2)
        else if Text.startsWith "<![CDATA[" s then (through? "]]>" (s.drop 9)).map (· + 9)
        else none
      | [] => none
    else none
  | _ => none

/-! ## Blocks -/

/-- How a block of HTML ends. -/
inductive HtmlEnd where
  /-- With the closing tag of a literal element. -/
  | literal
  /-- With a line that holds a text. -/
  | text (ending : Bytes)
  /-- Before a blank line. -/
  | blank
  deriving DecidableEq, Repr

/-- Elements whose tags open a block. -/
def blockElements : List Bytes := List.map bytes
  ["address", "article", "aside", "base", "basefont", "blockquote", "body", "caption", "center", "col",
    "colgroup", "dd", "details", "dialog", "dir", "div", "dl", "dt", "fieldset", "figcaption", "figure",
    "footer", "form", "frame", "frameset", "h1", "h2", "h3", "h4", "h5", "h6", "head", "header", "hr",
    "html", "iframe", "legend", "li", "link", "main", "menu", "menuitem", "meta", "nav", "noframes",
    "ol", "optgroup", "option", "p", "param", "search", "section", "summary", "table", "tbody", "td",
    "tfoot", "th", "thead", "title", "tr", "track", "ul"]

/-- Elements whose content is literal. -/
def literalElements : List Bytes := ["script", "pre", "style", "textarea"]

/-- Whether a line closes a literal element. -/
def closesLiteral (line : Bytes) : Bool :=
  let line := line.map Text.lowerByte
  literalElements.any fun e => Text.contains (bytes "</" ++ e ++ ">") line

/-- Whether a line closes a block of HTML. -/
def HtmlEnd.closes (e : HtmlEnd) (line : Bytes) : Bool :=
  match e with
  | .literal => closesLiteral line
  | .text ending => Text.contains ending line
  | .blank => isBlankLine line

/-- How the block that a line opens will end, if the line opens one. A single complete tag of any
element opens a block too, but not inside a paragraph. -/
def htmlBlock? (inParagraph : Bool) (s : Bytes) : Option HtmlEnd :=
  match s with
  | 60 :: rest =>
    let name := (rest.takeWhile Text.isLetter).map Text.lowerByte
    let follows (c : Option UInt8) (slash : Bool) : Bool :=
      match c with
      | none => true
      | some c => isSpace c || c == '>' || (c == '/' && slash)
    let afterName := rest.drop name.length
    if literalElements.contains name
        && follows afterName.head? (Text.startsWith "/>" afterName) then some .literal
    else if Text.startsWith "<!--" s then some (.text "-->")
    else if Text.startsWith "<?" s then some (.text "?>")
    else if Text.startsWith "<![CDATA[" s then some (.text "]]>")
    else if Text.startsWith "<!" s && (rest.drop 1).head?.any (fun c => 65 ≤ c && c ≤ 90) then
      some (.text ">")
    else
      let tail := match rest with
        | 47 :: rest => rest.dropWhile (· == 32)
        | rest => rest
      let element := tail.take ((tagName? tail).getD 0)
      let after := tail.drop element.length
      let isComplete : Bool :=
        match (openTag? s).or (closeTag? s) with
        | some n => !(s.take n).contains 10 && isBlankLine (s.drop n)
        | none => false
      let lowered := element.map Text.lowerByte
      if blockElements.contains lowered && follows after.head? (Text.startsWith "/>" after) then
        some .blank
      else if isComplete && !inParagraph && !literalElements.contains lowered then some .blank
      else none
  | _ => none

end Bindery.Markdown
