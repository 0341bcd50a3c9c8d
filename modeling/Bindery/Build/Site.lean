import Bindery.Build.Edition
import Bindery.Website.Site

/-!
# The website of a build

A book has a website if its metadata names a template for it.
-/

namespace Bindery.Build

open Text (bytes)
open Manifest (Edition)

def outerKey : Bytes := "website_outer"

def bodyKey : Bytes := "website_body"

/-- The content of the template that a key names; empty without such a key. -/
def template (s : Session) (w : World) (key : Bytes) : Except Fault Bytes :=
  match w.services.store.get? [] key with
  | none => .ok []
  | some value =>
    match value.format? with
    | none | some [] =>
      .error (.raise .metadata "website template must be a path" [("key", .str key)])
    | some name => do
      let path ← (Resolver.resolveInside w.tree s.resolver.root name).mapError (·.toFault)
      (w.tree.read path).mapError (refused "cannot read website template" path)

/-- The files that the page does not list. -/
def unlisted (editions : List Edition) : List Bytes :=
  Manifest.fileName :: editions.map fun e => Path.join [e.id, labelsFile]

/-- Answers metadata keys as in the first language. -/
def siteLookup (s : Session) (o : Surroundings) (tree : FileTree) (key : Bytes) :
    ExceptT Fault Expansion.Script Bytes :=
  ExceptT.mk (Expansion.metadataText (s.setting o tree (s.langs.headD {})) key)

/-- Writes the website and returns its path, which is empty for a book without one. -/
def writeSite (s : Session) (o : Surroundings) (out : Bytes) (editions : List Edition) :
    Step Bytes := do
  let w ← get
  let outer ← require (template s w outerKey)
  if outer.isEmpty then pure []
  else
    let body ← require (template s w bodyKey)
    let shelves := editions.map fun e => ({ id := e.id, name := e.name } : Website.Shelf)
    let shelves ← require (Website.collect w.tree out shelves (unlisted editions))
    let target ← require (Website.newIndex w.tree out)
    let page : Website.Page := { outer, body, shelves }
    let text ← consult (s.fetcher o) (s.langs.headD {}).id
      (page.render (some (siteLookup s o w.tree))).run
    changeFiles fun tree => Website.write tree target text
    pure target

end Bindery.Build
