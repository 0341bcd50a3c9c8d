import Bindery.Markdown.Block
import Bindery.Markdown.Inline

/-!
# Documents as HTML

Blocks and the pieces inside them are written as elements, each block on lines of its own. Raw HTML is
left out unless it is asked for.
-/

namespace Bindery.Markdown

open Text (bytes)

/-- How a document is read and written. -/
structure Style where
  /-- Whether the wider dialect is read: tables, deletions, bare addresses, task boxes. -/
  wide : Bool := false
  /-- Whether raw HTML is kept. -/
  raw : Bool := false
  deriving DecidableEq, Repr

/-! ## Characters -/

/-- A byte of text; those with a meaning in HTML are replaced by references. -/
def escapeByte (c : UInt8) : Bytes :=
  if c = 38 then "&amp;"
  else if c = 60 then "&lt;"
  else if c = 62 then "&gt;"
  else if c = 34 then "&quot;"
  else if c = 0 then [0xEF, 0xBF, 0xBD]
  else [c]

def escape (s : Bytes) : Bytes := s.flatMap escapeByte

def escapeText (s : Bytes) : Bytes := escape (plainText s)

def percent (c : UInt8) : Bytes := 37 :: (Text.padZeros 2 (Text.ofNatHex c.toNat)).map Text.upperByte

/-- Whether a byte stands in an address as it is. -/
def isAddressByte (c : UInt8) : Bool := Text.isWord c || (bytes "!#$&'()*+,-./:;=?@~").contains c

/-- An address with escapes for what cannot stand in one; escapes that are there are kept. -/
def escapeAddress : Bytes → Bytes
  | [] => []
  | 37 :: a :: b :: rest =>
    if Text.isHexDigit a then 37 :: a :: b :: escapeAddress rest
    else percent 37 ++ escapeAddress (a :: b :: rest)
  | c :: rest => (if isAddressByte c then [c] else percent c) ++ escapeAddress rest

/-- Whether an address could run a program or read local data. -/
def isDangerous (url : Bytes) : Bool :=
  let url := url.map Text.lowerByte
  let images : List Bytes := ["data:image/png;", "data:image/gif;", "data:image/jpeg;", "data:image/webp;",
    "data:image/svg+xml;"]
  let schemes : List Bytes := ["javascript:", "vbscript:", "file:", "data:"]
  !images.any (fun p => Text.startsWith p url) && schemes.any fun p => Text.startsWith p url

/-- The value of an address attribute; a dangerous address is left out. -/
def addressValue (style : Style) (url : Bytes) : Bytes :=
  if style.raw || !isDangerous url then escape (escapeAddress (plainText url)) else []

def titleAttribute (title : Bytes) : Bytes :=
  if title.isEmpty then [] else bytes " title=\"" ++ escapeText title ++ "\""

/-- What stands in place of raw HTML. -/
def omitted : Bytes := "<!-- raw HTML omitted -->"

/-! ## Pieces -/

mutual

/-- The plain text of a piece, for an image's description. -/
def Inline.alt : Inline → Bytes
  | .text source => escapeText source
  | .softBreak => [10]
  | .hardBreak => bytes "<br>\n"
  | .code content => escapeText content
  | .emphasis _ children => alts children
  | .deleted children => alts children
  | .link _ _ children => alts children
  | .image _ _ children => alts children
  | .autolink _ _ _ => []
  | .html _ => []
  | .checkbox _ => []
termination_by structural i => i

/-- The plain text of several pieces. -/
def alts : List Inline → Bytes
  | [] => []
  | i :: is => i.alt ++ alts is
termination_by structural is => is

end

mutual

/-- A piece as HTML. -/
def Inline.render (style : Style) : Inline → Bytes
  | .text source => escapeText source
  | .softBreak => [10]
  | .hardBreak => bytes "<br>\n"
  | .code content => bytes "<code>" ++ escape content ++ "</code>"
  | .emphasis strong children =>
    let tag : Bytes := if strong then "strong" else "em"
    bytes "<" ++ tag ++ ">" ++ renderPieces style children ++ "</" ++ tag ++ ">"
  | .deleted children => bytes "<del>" ++ renderPieces style children ++ "</del>"
  | .link destination title children =>
    bytes "<a href=\"" ++ addressValue style destination ++ "\"" ++ titleAttribute title ++ ">"
      ++ renderPieces style children ++ "</a>"
  | .image destination title children =>
    bytes "<img src=\"" ++ addressValue style destination ++ "\" alt=\"" ++ alts children ++ "\""
      ++ titleAttribute title ++ ">"
  | .autolink label url isMail =>
    let lead : Bytes :=
      if isMail && !Text.startsWith "mailto:" (url.map Text.lowerByte) then "mailto:" else []
    bytes "<a href=\"" ++ lead ++ escape (escapeAddress url) ++ "\">" ++ escape label ++ "</a>"
  | .html source => if style.raw then source else omitted
  | .checkbox checked =>
    if checked then bytes "<input checked=\"\" disabled=\"\" type=\"checkbox\"> "
    else bytes "<input disabled=\"\" type=\"checkbox\"> "
termination_by structural i => i

/-- Several pieces as HTML. -/
def renderPieces (style : Style) : List Inline → Bytes
  | [] => []
  | i :: is => i.render style ++ renderPieces style is
termination_by structural is => is

end

/-! ## Blocks -/

/-- Where a paragraph stands. -/
structure Place where
  /-- Whether its list is tight, so that it is no element of its own. -/
  tight : Bool := false
  /-- Whether it is the first block of a list item. -/
  first : Bool := false

/-- The attribute that aligns a cell. -/
def Alignment.styling : Alignment → Bytes
  | .plain => []
  | .left => " style=\"text-align:left\""
  | .center => " style=\"text-align:center\""
  | .right => " style=\"text-align:right\""

/-- A row of cells as HTML. -/
def renderRow (style : Style) (definitions : List Definition) (tag : Bytes) (alignments : List Alignment)
    (row : List Bytes) : Bytes :=
  let cell (a : Alignment) (text : Bytes) : Bytes :=
    bytes "<" ++ tag ++ a.styling ++ ">"
      ++ renderPieces style (inlines { wide := style.wide, definitions, isCell := true } text)
      ++ "</" ++ tag ++ ">\n"
  bytes "<tr>\n" ++ ((alignments.zip row).flatMap fun (a, text) => cell a text) ++ "</tr>\n"

mutual

/-- A block as HTML. -/
def Block.render (style : Style) (definitions : List Definition) (place : Place) : Block → Bytes
  | .paragraph text =>
    let m : Manner := { wide := style.wide, definitions, startsItem := place.first }
    let body := renderPieces style (inlines m text)
    if place.tight then body else bytes "<p>" ++ body ++ "</p>\n"
  | .heading level text =>
    let tag := bytes "h" ++ Text.ofNat level
    bytes "<" ++ tag ++ ">" ++ renderPieces style (inlines { wide := style.wide, definitions } text)
      ++ "</" ++ tag ++ ">\n"
  | .rule => bytes "<hr>\n"
  | .code info text =>
    let language := info.takeWhile (· != 32)
    let attr : Bytes :=
      if language.isEmpty then [] else bytes " class=\"language-" ++ escapeText language ++ "\""
    bytes "<pre><code" ++ attr ++ ">" ++ escape text ++ "</code></pre>\n"
  | .html body closing =>
    if style.raw then body ++ closing.getD []
    else omitted ++ [10] ++ if closing.isSome then omitted ++ [10] else []
  | .quote children =>
    bytes "<blockquote>\n" ++ renderBlocks style definitions {} children ++ "</blockquote>\n"
  | .list ordered start tight items =>
    let tag : Bytes := if ordered then "ol" else "ul"
    let attr : Bytes :=
      if ordered && start != 1 then bytes " start=\"" ++ Text.ofNat start ++ "\"" else []
    bytes "<" ++ tag ++ attr ++ ">\n" ++ renderBlocks style definitions { tight } items
      ++ "</" ++ tag ++ ">\n"
  | .item children =>
    let lead : Bytes :=
      match children with
      | .paragraph _ :: _ => if place.tight then [] else [10]
      | [] | .vacant :: _ => []
      | _ => [10]
    bytes "<li>" ++ lead ++ renderBlocks style definitions { tight := place.tight, first := true } children
      ++ "</li>\n"
  | .table alignments header rows =>
    let body : Bytes :=
      if rows.isEmpty then []
      else
        bytes "<tbody>\n" ++ rows.flatMap (renderRow style definitions "td" alignments) ++ "</tbody>\n"
    bytes "<table>\n<thead>\n" ++ renderRow style definitions "th" alignments header ++ "</thead>\n"
      ++ body ++ "</table>\n"
  | .vacant => []
termination_by structural b => b

/-- Several blocks as HTML. In a tight list a line feed stands behind a paragraph that something
follows. -/
def renderBlocks (style : Style) (definitions : List Definition) (place : Place) : List Block → Bytes
  | [] => []
  | b :: bs =>
    let gap : Bytes :=
      match b, bs with
      | .paragraph _, _ :: _ => if place.tight then [10] else []
      | _, _ => []
    b.render style definitions place ++ gap
      ++ renderBlocks style definitions { place with first := false } bs
termination_by structural bs => bs

end

def render (style : Style) (text : Bytes) : Bytes :=
  let d := Document.parse style.wide text
  renderBlocks style d.definitions {} d.blocks

end Bindery.Markdown
