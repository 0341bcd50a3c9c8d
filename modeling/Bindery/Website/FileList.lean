import Bindery.Path
import Bindery.Website.Description
import Bindery.Website.FileSize

/-!
# Lists of files to download

The files of each language as a list of links, with the size of each file and what its kind is for.
-/

namespace Bindery.Website

open Text (bytes)

/-- A file that is offered. -/
structure Download where
  /-- The path relative to the output directory. -/
  path : Bytes
  size : Int
  deriving DecidableEq, Repr

/-- The files of one language. -/
structure Shelf where
  id : Bytes := []
  name : Bytes := []
  files : List Download := []
  deriving DecidableEq, Repr

/-- The suffix of the name of a file without its dot. -/
def Download.suffix (d : Download) : Bytes :=
  let name := Path.base d.path
  if Text.endsWith ".tar.xz" name then "tar.xz" else Text.withoutStart "." (Path.ext name)

section

variable (sizeText : Nat → Bytes)

/-- The link to a file with its size, in which no line is broken. A size below zero counts as zero. -/
def Download.anchor (d : Download) : Markup :=
  let size := Text.replaceAll " " "&nbsp;" (sizeText d.size.toNat)
  .classed "span" "file"
    [.link d.path (Path.base d.path), .entity "nbsp",
      .classed "span" "size" [.text "(", .verbatim size, .text ")"]]

/-- What a file is for, if its kind is described. -/
def Download.note (known : List (Bytes × List Markup)) (d : Download) : List Markup :=
  match known.lookup d.suffix with
  | some description => [.single "br", .classed "span" "desc" description]
  | none => []

def Download.item (known : List (Bytes × List Markup)) (d : Download) : Markup :=
  .classed "li" "download" (d.anchor sizeText :: d.note known)

def Shelf.list (s : Shelf) : Markup :=
  .classed "ul" "downloads" (s.files.map (Download.item sizeText (descriptions s.id)))

/-- The files of a language under its name. -/
def Shelf.item (s : Shelf) : Markup :=
  .classed "li" "lang" [.classed "span" "lang-name" [.text s.name], s.list sizeText]

/-- The files of all languages; `sizeText` words a size. With more than one language there is an outer list
of languages. -/
def fileListWith (shelves : List Shelf) : List Markup :=
  if shelves.length > 1 then [.classed "ul" "langs" (shelves.map (Shelf.item sizeText))]
  else shelves.map (Shelf.list sizeText)

end

def fileList (shelves : List Shelf) : List Markup := fileListWith FileSize.text shelves

end Bindery.Website
