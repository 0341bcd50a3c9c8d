import Bindery.FileTree
import Bindery.Website.Page

/-!
# The website of a book

The website is one page in the output directory that links to the files of all languages.
-/

namespace Bindery.Website

open Text (bytes)

def indexName : Bytes := "index.html"

/-- The files at and below a path with their contents, in the order of a walk through the
directories. -/
def walk (tree : FileTree) (path : Bytes) : Except Fault (List (Bytes × Bytes)) := do
  match ← tree.stat path with
  | .file content => .ok [(path, content)]
  | .directory =>
    .ok ((tree.below path).filterMap fun
      | (parts, .file content) => some (Path.join [path, FileTree.pathOf parts], content)
      | (_, .directory) => none)

/-- The files of one language below the output directory, without the page itself and the paths to be
skipped. -/
def Shelf.collect (tree : FileTree) (out : Bytes) (skip : List Bytes) (s : Shelf) :
    Except Fault Shelf :=
  let directory := Path.join [out, s.id]
  match walk tree directory with
  | .error cause =>
    .error (.raiseFrom cause .fileSystem "cannot list generated files" [("path", .str directory)])
  | .ok found =>
    let files := found.map fun (path, content) =>
      ({ path := (Path.relative? out path).getD path, size := content.length } : Download)
    .ok { s with files := s.files ++ files.filter fun d => d.path != indexName && !skip.contains d.path }

def collect (tree : FileTree) (out : Bytes) (shelves : List Shelf) (skip : List Bytes) :
    Except Fault (List Shelf) :=
  shelves.mapM (Shelf.collect tree out skip)

/-- The path of the page. A page that is there already is never replaced. -/
def newIndex (tree : FileTree) (out : Bytes) : Except Fault Bytes :=
  let target := Path.join [out, indexName]
  if tree.exists? target then
    .error (.raise .fileSystem "website already exists" [("path", .str target)])
  else .ok target

def write (tree : FileTree) (target page : Bytes) : Except Fault FileTree :=
  (tree.write target (Text.trim page ++ [10])).mapError fun cause =>
    .raiseFrom cause .fileSystem "cannot write website" [("path", .str target)]

end Bindery.Website
