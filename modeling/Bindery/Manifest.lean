import Bindery.Digest.Sha256
import Bindery.FileTree
import Bindery.Yaml.Decode
import Bindery.Yaml.Writer

/-!
# Build manifests

A manifest records what a build consumed and produced. It is stored beside the documents, and its
hash tells whether two builds gave the same documents from the same sources.
-/

namespace Bindery

open Text (bytes)

namespace Manifest

/-- A repository at the commit that was used. -/
structure Source where
  name : Bytes := []
  url : Bytes := []
  commit : Bytes := []
  date : Moment := .zero
  deriving DecidableEq, Repr

/-- What one language gave. -/
structure Edition where
  id : Bytes := []
  name : Bytes := []
  locale : Bytes := []
  document : Bytes := []
  fingerprint : Bytes := []
  sources : List Bytes := []
  labels : Int := 0
  resources : List Bytes := []
  deriving DecidableEq, Repr

end Manifest

/-- The record of a build. -/
structure Manifest where
  id : Bytes := []
  timestamp : Moment := .zero
  status : Bytes := []
  /-- How long the build took, in milliseconds. -/
  duration : Int := 0
  root : Bytes := []
  input : Bytes := []
  /-- The checkout that holds the root, if any. -/
  project : Option Manifest.Source := none
  editions : List Manifest.Edition := []
  repositories : List Manifest.Source := []
  deriving DecidableEq, Repr

namespace Manifest

def fileName : Bytes := "manifest.yaml"

def fingerprint (document : Bytes) : Bytes := Sha256.hex document

/-! ## Writing -/

open Yaml.Tree (field textField? fieldOf? record)

def textsTree (texts : List Bytes) : Yaml.Tree := .list (texts.map .text)

/-- A repository as written. An unknown date is left out. -/
def Source.tree (s : Source) : Yaml.Tree :=
  record
    [field "name" (.text s.name), field "url" (.text s.url), field "commit" (.text s.commit),
      fieldOf? "date" (if s.date.isZero then none else some (.time s.date))]

/-- What a language gave, as written. -/
def Edition.tree (e : Edition) : Yaml.Tree :=
  record
    [field "id" (.text e.id), textField? "name" e.name, textField? "locale" e.locale,
      field "document" (.text e.document), field "fingerprint" (.text e.fingerprint),
      field "sources" (textsTree e.sources), field "labels" (.int e.labels),
      fieldOf? "resources" (if e.resources.isEmpty then none else some (textsTree e.resources))]

/-- A manifest as written. -/
def tree (m : Manifest) : Yaml.Tree :=
  record
    [field "id" (.text m.id), field "timestamp" (.time m.timestamp), field "status" (.text m.status),
      field "duration_ms" (.int m.duration),
      field "inputs" (record
        [field "root" (.text m.root), field "input" (.text m.input),
          fieldOf? "project" (m.project.map Source.tree)]),
      field "languages" (.list (m.editions.map Edition.tree)),
      fieldOf? "repositories"
        (if m.repositories.isEmpty then none else some (.list (m.repositories.map Source.tree)))]

def render (m : Manifest) : Bytes := m.tree.render

/-! ## Comparing -/

/-- The part of a manifest that says which documents were made from what: neither the time nor the
place of the build belongs to it. -/
structure Essence where
  input : Bytes
  project : Option Source
  editions : List Edition
  repositories : List Source
  deriving DecidableEq, Repr

/-- An essence as written. -/
def Essence.tree (e : Essence) : Yaml.Tree :=
  record
    [field "input" (.text e.input), field "project" ((e.project.map Source.tree).getD .null),
      field "languages" (.list (e.editions.map Edition.tree)),
      field "repos" (.list (e.repositories.map Source.tree))]

/-- The essence of a manifest, with languages and repositories put in order. -/
def essenceBy (arrangeEditions : List Edition → List Edition)
    (arrangeSources : List Source → List Source) (m : Manifest) : Essence :=
  { input := m.input, project := m.project, editions := arrangeEditions m.editions
    repositories := arrangeSources m.repositories }

/-- The hash of a build whose languages and repositories are put in order in given ways. -/
def hashBy (arrangeEditions : List Edition → List Edition)
    (arrangeSources : List Source → List Source) (m : Manifest) : Bytes :=
  Sha256.hex (m.essenceBy arrangeEditions arrangeSources).tree.render

/-- Sorts items by a text of each. -/
def sortOn {α : Type} (key : α → Bytes) (items : List α) : List α :=
  items.mergeSort fun a b => Text.le (key a) (key b)

/-- The hash of a build: the order of languages and repositories is that of their names. -/
def hash (m : Manifest) : Bytes := m.hashBy (sortOn Edition.id) (sortOn Source.name)

/-! ## Reading -/

/-- Reads a node. The state tells whether anything did not have the expected shape; a date that
cannot be read ends the reading. -/
abbrev Reading := StateT Bool Option

namespace Reading

/-- Notes that something does not have the expected shape. -/
def mismatch {α : Type} (standing : α) : Reading α := do
  set true
  return standing

/-- Takes what a node reads as, and leaves the value as it is where it does not fit. -/
def take {α : Type} (standing : α) : Option α → Reading α
  | some value => return value
  | none => mismatch standing

/-- Reads a field; a missing or null one leaves the value as it is. -/
def get {α : Type} (fields : List (Bytes × Yaml.Node)) (name : Bytes) (standing : α)
    (read : Yaml.Node → Reading α) : Reading α :=
  match fields.lookup name with
  | none => return standing
  | some node => if node.isNull then return standing else read node

def text (node : Yaml.Node) : Reading Bytes := take [] node.text?

def int (node : Yaml.Node) : Reading Int := take 0 node.int?

def fields (node : Yaml.Node) : Reading (List (Bytes × Yaml.Node)) := take [] node.fields?

/-- A point in time: a scalar that is one, or the text of one. A record is taken for the unknown one. -/
def time (node : Yaml.Node) : Reading Moment :=
  match node with
  | .scalar tag _ s =>
    match Yaml.scalarValue? tag s with
    | some (.time t) => return t
    | _ => StateT.lift (Moment.parseRfc3339? s)
  | .mapping _ => do
    let _ ← fields node
    return .zero
  | .sequence _ => mismatch .zero

/-- The items of a list; missing ones are dropped. -/
def list {α : Type} (read : Yaml.Node → Reading α) (node : Yaml.Node) : Reading (List α) :=
  match node with
  | .sequence items => (items.filter fun n => !n.isNull).mapM read
  | _ => mismatch []

/-- A repository. -/
def source (node : Yaml.Node) : Reading Source := do
  let fs ← fields node
  return { name := ← get fs "name" [] text, url := ← get fs "url" [] text
           commit := ← get fs "commit" [] text, date := ← get fs "date" .zero time }

/-- What a language gave. -/
def edition (node : Yaml.Node) : Reading Edition := do
  let fs ← fields node
  return { id := ← get fs "id" [] text, name := ← get fs "name" [] text
           locale := ← get fs "locale" [] text, document := ← get fs "document" [] text
           fingerprint := ← get fs "fingerprint" [] text
           sources := ← get fs "sources" [] (list text), labels := ← get fs "labels" 0 int
           resources := ← get fs "resources" [] (list text) }

/-- A manifest. -/
def manifest (node : Yaml.Node) : Reading Manifest := do
  let fs ← fields node
  let inputs ← get fs "inputs" [] fields
  return { id := ← get fs "id" [] text, timestamp := ← get fs "timestamp" .zero time
           status := ← get fs "status" [] text, duration := ← get fs "duration_ms" 0 int
           root := ← get inputs "root" [] text, input := ← get inputs "input" [] text
           project := ← get inputs "project" none fun n => do return some (← source n)
           editions := ← get fs "languages" [] (list edition)
           repositories := ← get fs "repositories" [] (list source) }

end Reading

/-- A way to decode the text of a manifest. -/
abbrev Decoder := Bytes → Except Fault Manifest

/-- Decodes a manifest; an empty document is decoded into an empty manifest. -/
def decode : Decoder := fun text =>
  match Yaml.parse? text with
  | none => .error .yaml
  | some none => .ok {}
  | some (some node) =>
    if node.isNull then .ok {}
    else
      match (Reading.manifest node).run false with
      | none => .error .other
      | some (_, true) => .error .yaml
      | some (m, false) => .ok m

/-- Reads a manifest from its text. -/
def parseWith (decode : Decoder) (text : Bytes) : Except Fault Manifest :=
  (decode text).mapError (·.passOn .validation "unmarshal manifest")

def parse : Bytes → Except Fault Manifest := parseWith decode

/-! ## Files -/

/-- Reads a manifest from a file. -/
def loadWith (decode : Decoder) (tree : FileTree) (path : Bytes) : Except Fault Manifest :=
  match tree.read path with
  | .ok text => parseWith decode text
  | .error cause =>
    .error (.raiseFrom cause .fileSystem "cannot read manifest" [("path", .str path)])

def load : FileTree → Bytes → Except Fault Manifest := loadWith decode

def save (m : Manifest) (tree : FileTree) (path : Bytes) : Except Fault FileTree :=
  (tree.write path m.render).mapError fun cause =>
    .raiseFrom cause .fileSystem "cannot write manifest" [("path", .str path)]

end Manifest

end Bindery
