import Bindery.Build.World
import Bindery.Config.Basic
import Bindery.Metadata.Initial
import Bindery.Workspace

/-!
# Sessions

Before the passes of a build run, the metadata that the root document declares is read, for the book
and for each of its languages, and the repositories are declared.
-/

namespace Bindery.Build

open Text (bytes)
open Metadata (Store)
open Repository (Reference)

/-- What the passes of a build share and do not change. -/
structure Session where
  resolver : Resolver
  /-- The root document. -/
  input : Bytes
  /-- The name of the documents that are written. -/
  name : Bytes
  /-- The declared languages, or a single unnamed one. -/
  langs : List Descriptor
  workspace : Option Workspace := none

/-! ## Repositories -/

/-- Adds a repository of a language to the references. A mnemonic that is known with another address
gets an override for the language. -/
def addReference (lang : Bytes) (refs : List Reference) (r : Metadata.Repository) : List Reference :=
  if refs.any (·.mnemonic == r.id) then
    refs.map fun ref =>
      if ref.mnemonic == r.id && ref.url != r.url then
        { ref with overrides := (lang, r.url) :: ref.overrides }
      else ref
  else refs ++ [{ mnemonic := r.id, url := [], overrides := [(lang, r.url)] }]

/-- Adds the repositories of a language to the references. -/
def addReferences (store : Store) (refs : List Reference) (d : Descriptor) :
    Except Fault (List Reference) :=
  if d.id.isEmpty then .ok refs
  else do
    let declared ← store.repositories d.id
    .ok (declared.foldl (addReference d.id) refs)

/-- The repositories of a book, one reference for each mnemonic. -/
def references (store : Store) (langs : List Descriptor) : Except Fault (List Reference) := do
  let base ← store.repositories []
  langs.foldlM (addReferences store) (base.map fun r => { mnemonic := r.id, url := r.url })

/-! ## Opening -/

/-- The context of a language among those of the book. -/
def contextOf (langs : List Descriptor) (d : Descriptor) : LanguageContext :=
  if d.id.isEmpty then {} else { active := d, configured := langs.length }

/-- Adds the metadata of each language to the store. -/
def loadLanguages (resolver : Resolver) (tree : FileTree) (input : Bytes) (langs : List Descriptor)
    (store : Store) : Except Fault Store :=
  langs.foldlM (fun store d =>
    match Metadata.loadInitial resolver tree input (contextOf langs d) with
    | .ok layer => .ok (store.merge d.id layer)
    | .error cause =>
      .error (cause.passOn .metadata "cannot load language metadata" [("lang", .str d.id)])) store

/-- Where the book lies. -/
def locate (config : Config) (tree : FileTree) : Except Fault (Resolver × Bytes) := do
  let input := Path.absolute tree.cwd config.input
  let root := if config.root.isEmpty then Path.dir input else config.root
  let resolver ← (Resolver.ofRoot tree root).mapError (·.toFault)
  if Path.contains resolver.root input then .ok (resolver, input)
  else
    .error (.raise .path "input document lies outside the root"
      [("path", .str input), ("root", .str resolver.root)])

/-- Reads what the root document declares: the session, the metadata and the repositories. -/
def Session.prepare (config : Config) (tree : FileTree) :
    Except Fault (Session × Store × List Reference) := do
  let (resolver, input) ← locate config tree
  let name := if config.name.isEmpty then Path.stem input else config.name
  let base ← Metadata.loadInitial resolver tree input {}
  let store : Store := { base }
  let declared ← store.languages
  -- A book without languages takes one pass, for the language of the empty identifier.
  let langs := if declared.isEmpty then [{}] else declared
  let store ← loadLanguages resolver tree input declared store
  let refs ← references store langs
  .ok ({ resolver, input, name, langs }, store, refs)

/-- The workspace that the settings ask for. -/
def workspaceOf (config : Config) : Workspace :=
  if config.workspace.persistent then .kept config.workspace.dir []
  else .ephemeral config.workspace.dir

/-- Opens a session. A workspace is made only if there are repositories. -/
def Session.start (config : Config) (now : Moment) : Step Session := do
  let (session, store, refs) ← require (Session.prepare config (← get).tree)
  modify fun w =>
    { w with services := { w.services with store, cache := { refs }, metrics := w.metrics } }
  if refs.isEmpty then pure session
  else
    let (workspace, tree) ← require ((workspaceOf config).create now.stampText (← get).tree)
    modify fun w => { w with tree }
    pure { session with workspace := some workspace }

namespace Session

/-- Closes a session: its workspace is removed unless it is kept. -/
def close (s : Session) : Effect Unit := modify fun w =>
  match s.workspace with
  | none => w
  | some workspace =>
    match workspace.cleanup w.tree with
    | .ok (_, tree) => { w with tree }
    | .error _ => w.log { level := .warn, message := "Workspace cleanup failed" }

def context (s : Session) (d : Descriptor) : LanguageContext := contextOf s.langs d

def fetcher (s : Session) (o : Surroundings) : Repository.Fetcher :=
  o.fetch ((s.workspace.map Workspace.dir).getD [])

/-- What the pass for a language is given. -/
def setting (s : Session) (o : Surroundings) (tree : FileTree) (d : Descriptor) : Expansion.Setting :=
  { tree, resolver := s.resolver, lang := s.context d, now := o.now
    checkout := o.checkout s.resolver.root, cancelled := o.cancelled }

def rootFor (s : Session) (tree : FileTree) (d : Descriptor) : Except Fault Bytes :=
  (s.resolver.resolve tree (Path.dir s.input) (Path.base s.input) (s.context d)).mapError (·.toFault)

/-- A path as it is recorded: relative to the root of the book if it lies inside. -/
def relative (s : Session) (path : Bytes) : Bytes := (s.resolver.relative path).toOption.getD path

end Session

end Bindery.Build
