import Bindery.Text.Basic

/-!
# Markup

Fragments of a web page as trees. Text and attribute values are escaped when a tree is written, so no
text of a book can open a tag or leave an attribute, and every element that is opened is closed. Only what
the program words itself is written as it is.
-/

namespace Bindery.Website

open Text (bytes)

/-- A fragment of a web page. -/
inductive Markup where
  /-- Text, escaped when it is written. -/
  | text (s : Bytes)
  /-- Text that is written as it is. -/
  | verbatim (s : Bytes)
  /-- A named character. -/
  | entity (name : Bytes)
  /-- A tag without content. -/
  | single (tag : Bytes)
  /-- An element with its attributes and its content. -/
  | element (tag : Bytes) (attributes : List (Bytes × Bytes)) (content : List Markup)
  deriving Repr

namespace Markup

/-- A byte written so that it means itself. -/
def escapeByte (c : UInt8) : Bytes :=
  if c == '&' then "&amp;"
  else if c == '\'' then "&#39;"
  else if c == '<' then "&lt;"
  else if c == '>' then "&gt;"
  else if c == '"' then "&#34;"
  else [c]

/-- A text written so that it means itself. -/
def escape (s : Bytes) : Bytes := s.flatMap escapeByte

/-- An attribute as it stands in a tag. -/
def attributeText (a : Bytes × Bytes) : Bytes := bytes " " ++ a.1 ++ "=\"" ++ escape a.2 ++ "\""

def openTag (tag : Bytes) (attributes : List (Bytes × Bytes)) : Bytes :=
  bytes "<" ++ tag ++ attributes.flatMap attributeText ++ ">"

def closeTag (tag : Bytes) : Bytes := bytes "</" ++ tag ++ ">"

mutual

/-- A fragment as text. -/
def render : Markup → Bytes
  | .text s => escape s
  | .verbatim s => s
  | .entity name => bytes "&" ++ name ++ ";"
  | .single tag => openTag tag []
  | .element tag attributes content =>
    openTag tag attributes ++ renderAll content ++ closeTag tag
termination_by structural m => m

/-- Several fragments as text. -/
def renderAll : List Markup → Bytes
  | [] => []
  | m :: ms => m.render ++ renderAll ms
termination_by structural ms => ms

end

def classed (tag class' : Bytes) (content : List Markup) : Markup :=
  .element tag [("class", class')] content

def link (target : Bytes) (content : Bytes) : Markup := .element "a" [("href", target)] [.text content]

end Markup

end Bindery.Website
