import Bindery.Build.Session
import Bindery.Gzip
import Bindery.Manifest
import Bindery.Markdown.Link

/-!
# Editions

The edition of a language is its expanded document with the label table and the files that the
document links to. A pass that fails takes back what it wrote.
-/

namespace Bindery.Build

open Text (bytes)
open Manifest (Edition)

def labelsFile : Bytes := "labels.yaml"

def directory (out : Bytes) (lang : Bytes) : Bytes := Path.join [out, lang]

/-- A label table as it is written. -/
def labelsText (labels : Label.Registry) : Bytes :=
  let kind (entries : List (Bytes × Nat)) : Yaml.Tree :=
    .map ((Yaml.sortEntries entries).map fun (key, number) => (key, .int number))
  (Yaml.Tree.map ((Yaml.sortEntries labels.table).map fun (k, entries) => (k, kind entries))).render

def refused (message path : Bytes) (cause : Fault) : Fault :=
  .raiseFrom cause .fileSystem message [("path", .str path)]

/-! ## Resources -/

/-- What goes into the copy of a resource, and whether that is all of it. -/
def resourceContent (r : Expansion.Resource) (source : Bytes) : Except Fault Gzip.Content :=
  if r.decompress then
    match Gzip.unpack? source with
    | some content => .ok content
    | none => .error (refused "cannot decompress resource" r.source .other)
  else .ok { bytes := source, intact := true }

/-- Copies a resource into a directory. -/
def copyResource (dir : Bytes) (r : Expansion.Resource) : Step Unit := do
  let target := Path.join [dir, r.target]
  changeFiles fun tree =>
    (tree.makeDirectory (Path.dir target)).mapError (refused "cannot create resource directory" target)
  let source ← require <|
    ((← get).tree.read r.source).mapError (refused "cannot open resource" r.source)
  let content ← require (resourceContent r source)
  changeFiles fun tree =>
    (tree.write target content.bytes).mapError (refused "cannot create resource" target)
  if !content.intact then throw (refused "cannot copy resource" r.source .other)

/-! ## Links -/

/-- The paths that a document links to and that do not exist next to it, in order. -/
def missingTargets (tree : FileTree) (dir text : Bytes) : List Bytes :=
  let isMissing (path : Bytes) : Bool :=
    let path := Path.clean path
    Text.startsWith "/" path || path == bytes ".." || Text.startsWith "../" path
      || !tree.exists? (Path.join [dir, path])
  Text.sort ((Markdown.localPaths text).filter isMissing)

def warnOfLinks (context : LogContext) (dir text : Bytes) : Effect Unit := modify fun w =>
  (missingTargets w.tree dir text).foldl (fun w path =>
    w.log (context.record .warn "Link target not found in output" [("path", .str path)])) w

/-! ## Passes -/

/-- Writes the edition of a language. -/
def writeEdition (s : Session) (o : Surroundings) (context : LogContext) (out : Bytes)
    (d : Descriptor) : Step Edition := do
  let tree := (← get).tree
  let root ← require <| (s.rootFor tree d).mapError fun cause =>
    cause.passOn .path "cannot resolve root document" [("lang", .str d.id)]
  let result ← consult (s.fetcher o) d.id (Expansion.expand (s.setting o tree d) root)
  let dir := directory out d.id
  changeFiles fun tree =>
    (tree.makeDirectory dir).mapError (refused "cannot create language directory" dir)
  let document := Path.join [dir, s.name ++ ".md"]
  changeFiles fun tree =>
    (tree.write document result.text).mapError (refused "cannot write document" document)
  let labels := Path.join [dir, labelsFile]
  changeFiles fun tree =>
    (tree.write labels (labelsText result.labels)).mapError (refused "cannot write label table" labels)
  result.resources.forM (copyResource dir)
  -- Only now do all files stand there that a link can lead to.
  warnOfLinks context dir result.text
  pure
    { id := d.id, name := d.name, locale := d.locale
      document := (Path.relative? out document).getD []
      fingerprint := Manifest.fingerprint result.text
      sources := result.root.files.map s.relative
      labels := result.labels.entries.length
      resources := result.resources.map (·.target) }

/-- What a failed pass takes back. A pass without a language shares the output directory, so it takes
back only its document and its label table. -/
def discarded (s : Session) (out : Bytes) (d : Descriptor) : List Bytes :=
  let dir := directory out d.id
  if d.id.isEmpty then [Path.join [dir, s.name ++ ".md"], Path.join [dir, labelsFile]] else [dir]

/-- Removes a path that a failed pass wrote. -/
def discard (context : LogContext) (w : World) (path : Bytes) : World :=
  match w.tree.removeAll path with
  | .ok tree => { w with tree }
  | .error _ =>
    w.log (context.record .warn "Cannot remove output of failed pass" [("path", .str path)])

/-- The pass for a language. -/
def pass (s : Session) (o : Surroundings) (context : LogContext) (out : Bytes) (d : Descriptor) :
    Effect (Except Fault Edition) := do
  let context := { context with lang := d.id }
  let result ← (writeEdition s o context out d).run
  if !result.toBool then
    modify fun w =>
      ((discarded s out d).foldl (discard context) w).log
        (context.record .error "Language pass failed" [])
  pure result

/-- What came of several passes: the results of those that succeeded, and the fault of the build. A
single failure is the fault itself, several are joined, and a cancellation counts only if nothing else
failed. -/
def settle {α : Type} (results : List (Except Fault α)) : List α × Option Fault :=
  let done := results.filterMap Except.toOption
  let faults := results.filterMap faultOf
  let fault :=
    match faults.filter fun f => !f.isCancelled with
    | [f] => some f
    | [] => faults.head?
    | fs => some (.joined fs)
  (done, fault)

/-- The passes for all languages, at once if they are to be concurrent. They are independent: one that
fails does not stop the others. -/
def passes (s : Session) (o : Surroundings) (out : Bytes) (concurrent : Bool) (context : LogContext) :
    Effect (List Edition × Option Fault) := do
  let results ←
    if concurrent && 1 < s.langs.length then
      Effect.together o.schedule (s.langs.map (pass s o context out))
    else s.langs.mapM (pass s o context out)
  pure (settle results)

end Bindery.Build
