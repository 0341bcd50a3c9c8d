import Bindery.Directive.Replace
import Bindery.Markdown.Html
import Bindery.Website.FileList

/-!
# The page of a book

A page is made from an outer template, into which the rendered body and the list of files are put.
Directives in the result may ask for metadata and for nothing else.
-/

namespace Bindery.Website

open Text (bytes)

/-- The place of the body in the outer template. -/
def bodyMark : Bytes := [123, 98, 111, 100, 121, 125]

/-- What opens the place of the list of files. -/
def filesOpen : Bytes := "<div id=\"files\">"

/-- What closes the place of the list of files. -/
def filesClose : Bytes := "</div>"

/-- What a page is made from. -/
structure Page where
  outer : Bytes
  body : Bytes
  shelves : List Shelf := []

namespace Page

/-- Puts the rendered body in its place, if the template has one. -/
def withBody (p : Page) : Bytes :=
  match Text.cut? bodyMark p.outer with
  | none => p.outer
  | some (before, after) =>
    let rendered := Markdown.render { wide := true, raw := true } (Text.trim p.body)
    Text.trim before ++ [10] ++ Text.trim rendered ++ [10] ++ Text.trim after

/-- The place of the list of files in a text: what stands before and after it. -/
def filesPlace? (text : Bytes) : Except Fault (Option (Bytes × Bytes)) :=
  match Text.cut? filesOpen text with
  | none => .ok none
  | some (before, rest) =>
    match Text.cut? filesClose rest with
    | some (_, after) => .ok (some (before, after))
    | none =>
      .error (.classified
        (.passing .validation "website template opens the file list but never closes it"
          [("tag", .str filesOpen)]) none)

/-- Puts the list of files in its place, if the text has one. -/
def withFiles (p : Page) (text : Bytes) : Except Fault Bytes := do
  match ← filesPlace? text with
  | none => .ok text
  | some (before, after) =>
    .ok (Text.trim before ++ Markup.renderAll (fileList p.shelves) ++ Text.trim after)

/-- Answers a directive of a page with the value of a metadata key. -/
def answer {m : Type → Type} [Monad m] [MonadExceptOf Fault m] (lookup : Option (Bytes → m Bytes))
    (inv : Invocation) : m Bytes :=
  let key := inv.args.headD []
  if inv.directive != .metadata then
    throw (Fault.raise .directive "only \\meta is allowed in website templates"
      [("directive", .str inv.directive.name), ("line", .int inv.line)])
  else
    match lookup with
    | none => throw (Fault.raise .metadata "no metadata available" [("key", .str key)])
    | some lookup => lookup key

/-- The page as text. -/
def render {m : Type → Type} [Monad m] [MonadExceptOf Fault m] (p : Page)
    (lookup : Option (Bytes → m Bytes)) : m Bytes :=
  match p.withFiles p.withBody with
  | .error fault => throw fault
  | .ok text => replaceM text (answer lookup)

end Page

end Bindery.Website
