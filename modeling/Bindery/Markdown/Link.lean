import Bindery.Markdown.Html
import Bindery.Url

/-!
# Links of a document

Everything in a document that leads elsewhere, and the files beside the document among it.
-/

namespace Bindery.Markdown

open Text (bytes)

/-- How a link is written. -/
inductive LinkKind where
  | inline
  | image
  | auto
  | definition
  deriving DecidableEq, Repr

/-- The name of a kind of link. -/
def LinkKind.name : LinkKind → Bytes
  | .inline => "inline"
  | .image => "image"
  | .auto => "auto"
  | .definition => "reference_definition"

/-- A link and where it leads. -/
structure Link where
  kind : LinkKind
  destination : Bytes
  deriving DecidableEq, Repr

namespace Link

/-- Whether a link leads to a file beside the document: neither to an address nor to a place inside
the document itself. -/
def isLocal (l : Link) : Bool :=
  let d := Text.trim l.destination
  if d.isEmpty || Text.startsWith "#" d || Text.startsWith "//" d then false
  else
    match Url.parse? d with
    | some u => u.scheme.isEmpty && u.host.isEmpty
    | none => false

/-- The path of a link, without query and fragment. -/
def path (l : Link) : Bytes :=
  let d := (Text.trim l.destination).takeWhile fun c => c != 63 && c != 35
  (Url.unescape? d).getD d

end Link

mutual

/-- The links in a piece, in order. -/
def Inline.links : Inline → List Link
  | .link destination _ children => { kind := .inline, destination } :: linksOf children
  | .image destination _ children => { kind := .image, destination } :: linksOf children
  | .autolink _ url _ => [{ kind := .auto, destination := url }]
  | .emphasis _ children => linksOf children
  | .deleted children => linksOf children
  | .text _ => []
  | .softBreak => []
  | .hardBreak => []
  | .code _ => []
  | .html _ => []
  | .checkbox _ => []
termination_by structural i => i

/-- The links in several pieces. -/
def linksOf : List Inline → List Link
  | [] => []
  | i :: is => i.links ++ linksOf is
termination_by structural is => is

end

mutual

/-- The links in a block, in order. -/
def Block.links (m : Manner) : Block → List Link
  | .paragraph text => linksOf (inlines m text)
  | .heading _ text => linksOf (inlines m text)
  | .rule => []
  | .code _ _ => []
  | .html _ _ => []
  | .quote children => blockLinks m children
  | .list _ _ _ items => blockLinks m items
  | .item children => blockLinks m children
  | .table _ header rows => (header :: rows).flatten.flatMap fun cell => linksOf (inlines m cell)
  | .vacant => []
termination_by structural b => b

/-- The links in several blocks. -/
def blockLinks (m : Manner) : List Block → List Link
  | [] => []
  | b :: bs => b.links m ++ blockLinks m bs
termination_by structural bs => bs

end

/-- The links of a document: those in the text, and then the definitions ordered by their labels. -/
def links (wide : Bool) (text : Bytes) : List Link :=
  let d := Document.parse wide text
  blockLinks { wide, definitions := d.definitions } d.blocks
    ++ (d.definitions.mergeSort fun a b => Text.le a.label b.label).map fun d =>
      { kind := .definition, destination := d.destination }

/-- The files beside a document that it leads to, each once, in the order of their first
appearance. -/
def localPaths (text : Bytes) : List Bytes :=
  (((links false text).filter Link.isLocal).map Link.path).filter (!·.isEmpty) |>.eraseDups

end Bindery.Markdown
