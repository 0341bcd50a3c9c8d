import Bindery.Fault.Basic
import Bindery.Language.Basic
import Bindery.Metadata.Layer
import Bindery.Metadata.Record
import Bindery.Text.Title

/-!
# The metadata store

The store holds a default layer and a layer per language. A key is looked for in the layer of the
language first. All passes of a build share one store; each writes into the layer of its own language.
-/

namespace Bindery.Metadata

open Text (bytes)

/-- A declared repository. -/
structure Repository where
  id : Bytes
  url : Bytes
  deriving DecidableEq, Repr

/-- The layers of a book. -/
structure Store where
  base : Layer := []
  langs : List (Bytes × Layer) := []

namespace Store

def setBase (s : Store) (layer : Layer) : Store := { s with base := layer }

/-- The layer of a language; the empty identifier names the default layer. -/
def layer (s : Store) (id : Bytes) : Layer :=
  if id.isEmpty then s.base else (s.langs.lookup id).getD []

/-- Adds what a block declares to the layer of a language. -/
def merge (s : Store) (id : Bytes) (block : Layer) : Store :=
  if id.isEmpty then { s with base := s.base.merge block }
  else { s with langs := (id, (s.layer id).merge block) :: s.langs.filter (·.1 != id) }

/-- The value of a key for a language. -/
def get? (s : Store) (id key : Bytes) : Option Value :=
  if id.isEmpty then s.base.get? key
  else
    match (s.layer id).get? key with
    | some v => some v
    | none => s.base.get? key

/-- The text of a key for a language. -/
def string (s : Store) (id key : Bytes) : Except Fault Bytes :=
  let refuse (message : Bytes) : Except Fault Bytes :=
    .error (.raise .metadata message [("key", .str key), ("lang", .str id)])
  match s.get? id key with
  | none => refuse "unknown metadata key"
  | some v =>
    match v.format? with
    | none => refuse "metadata value is not a scalar"
    | some text => .ok text

/-- The descriptors of declared languages, in order. `seen` are the identifiers declared before. -/
def describe (seen : List Bytes) : List (Bytes × Bytes) → Except Fault (List Descriptor)
  | [] => .ok []
  | (id, name) :: rest =>
    if Text.isWhite id then .error (.raise .metadata "language without id" [("key", .str "langs")])
    else if seen.contains id then .error (.raise .metadata "duplicate language" [("lang", .str id)])
    else (describe (id :: seen) rest).map (Descriptor.ofId id name :: ·)

/-- The languages that the default layer declares. -/
def languages (s : Store) : Except Fault (List Descriptor) :=
  match s.base.lookup (bytes "langs") with
  | none => .ok []
  | some v =>
    match v.records? ["id", "name", "locale"] with
    | none => .error (.raiseFrom .yaml .metadata "invalid language list" [("key", .str "langs")])
    | some records =>
      describe [] (records.map fun r => (r.head?.getD [], (r.drop 1).head?.getD []))

/-- Adds a repository to a list, in the place of one with the same mnemonic. -/
def putRepository (list : List Repository) (r : Repository) : List Repository :=
  if list.any (·.id == r.id) then list.map fun o => if o.id == r.id then r else o
  else list ++ [r]

/-- The repositories of a list of declarations, on top of those before. -/
def collect (done : List Repository) : List Repository → Except Fault (List Repository)
  | [] => .ok done
  | r :: rest =>
    if r.id.isEmpty || r.url.isEmpty then
      .error (.raise .metadata "repository needs id and url" [("id", .str r.id)])
    else collect (putRepository done r) rest

/-- The repositories that a layer declares. -/
def declared (layer : Layer) (context : Context) : Except Fault (List Repository) :=
  match layer.lookup (bytes "repos") with
  | none => .ok []
  | some v =>
    match v.records? ["id", "url"] with
    | none => .error (.raiseFrom .yaml .metadata "invalid repository list" context)
    | some records =>
      .ok (records.map fun r => { id := r.head?.getD [], url := (r.drop 1).head?.getD [] })

/-- The repositories of a language: those of the default layer, with those of the language in the
place of the ones with the same mnemonic. -/
def repositories (s : Store) (id : Bytes) : Except Fault (List Repository) := do
  let base ← declared s.base []
  let own ← if id.isEmpty then .ok [] else declared (s.layer id) [("lang", .str id)]
  collect [] (base ++ own)

/-- The title of a type of definitions: what the key of the type with `Title` after it says, or the
type in title case. -/
def definitionTitle (s : Store) (id type : Bytes) : Bytes :=
  match (s.get? id (type ++ "Title")).bind Value.format? with
  | some (c :: title) => c :: title
  | _ => Text.title type

end Store

end Bindery.Metadata
