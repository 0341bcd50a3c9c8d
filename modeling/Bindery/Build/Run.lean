import Bindery.Build.Site

/-!
# Builds

A build opens a session, clears the output directory, runs the passes and writes the website. It
records what it did in a manifest, which also marks the directory as one that the next build may clear.
-/

namespace Bindery.Build

open Text (bytes)
open Manifest (Edition)

/-! ## The output directory -/

/-- Makes the output directory an empty one, and returns the manifest of the build that it held. A
directory with content is cleared only if it holds a manifest. -/
def clearOutput (decode : Manifest.Decoder) (out : Bytes) (tree : FileTree) :
    Except Fault (Option Manifest × FileTree) :=
  let make (tree : FileTree) : Except Fault FileTree :=
    (tree.makeDirectory out).mapError (refused "cannot create output directory" out)
  match tree.stat out with
  | .error .missingFile => do .ok (none, ← make tree)
  | .error cause => .error (refused "cannot read output directory" out cause)
  | .ok (.file _) => .error (refused "cannot read output directory" out .fileSystem)
  | .ok .directory =>
    if (tree.names out).isEmpty then do .ok (none, ← make tree)
    else
      -- What another program keeps in the directory is not removed.
      match Manifest.loadWith decode tree (Path.join [out, Manifest.fileName]) with
      | .error cause =>
        .error (refused "output directory is not empty and holds no earlier build" out cause)
      | .ok previous => do .ok (some previous, ← make (tree.remove out))

/-- Clears the output directory. -/
def clean (decode : Manifest.Decoder) (out : Bytes) : Step (Option Manifest) := do
  let (previous, tree) ← require (clearOutput decode out (← get).tree)
  modify fun w => { w with tree }
  pure previous

/-! ## Outcomes -/

/-- How a build ended. -/
inductive Status where
  | success
  | failed
  | cancelled
  deriving DecidableEq, Repr

namespace Status

/-- The word for a status. -/
def name : Status → Bytes
  | .success => "success"
  | .failed => "failed"
  | .cancelled => "cancelled"

/-- The status of a build that ended with a fault or without one. -/
def ofFault : Option Fault → Status
  | none => .success
  | some f => if f.isCancelled then .cancelled else .failed

end Status

/-- What came of a build. -/
structure Outcome where
  id : Bytes := []
  /-- The output directory, empty as long as it is not known. -/
  output : Bytes := []
  /-- The path of the website, empty without one. -/
  website : Bytes := []
  /-- The hash of the manifest of a successful build. -/
  hash : Bytes := []
  /-- Whether a successful build with the same hash was replaced. -/
  unchanged : Bool := false
  editions : List Edition := []
  manifest : Option Manifest := none
  fault : Option Fault := none

def Outcome.status (r : Outcome) : Status := .ofFault r.fault

/-! ## Manifests -/

/-- A checkout as it is recorded. -/
def projectSource : Expansion.Checkout → Option Manifest.Source
  | .found s => some { name := s.name, url := s.webPage, commit := s.commit, date := s.date }
  | _ => none

/-- The record of a build. -/
def manifestOf (s : Session) (o : Surroundings) (cache : Repository.Cache) (r : Outcome) : Manifest :=
  { id := o.id, timestamp := o.now.toUniversal, status := r.status.name, duration := o.elapsed
    root := s.resolver.root, input := s.relative s.input
    project := projectSource (o.checkout s.resolver.root)
    editions := r.editions
    repositories := cache.snapshots.map fun (name, s) =>
      { name, url := s.url, commit := s.commit, date := s.date } }

/-- Whether a build gave the same as a successful build before it. -/
def isUnchanged (m : Manifest) (previous : Option Manifest) : Bool :=
  previous.any fun p => p.status == Status.success.name && p.hash == m.hash

/-- Writes the manifest of a build. Not being able to is a failure of its own only if nothing failed
before. -/
def record (s : Session) (o : Surroundings) (previous : Option Manifest) (r : Outcome) :
    Effect Outcome := do
  let w ← get
  let m := manifestOf s o w.services.cache r
  match m.save w.tree (Path.join [r.output, Manifest.fileName]), r.fault with
  | .error fault, none => pure { r with fault := some fault }
  | .error _, some _ => pure { r with manifest := some m }
  | .ok tree, fault =>
    set { w with tree }
    let r := { r with manifest := some m }
    if fault.isSome then pure r
    else pure { r with hash := m.hash, unchanged := isUnchanged m previous }

/-! ## Running -/

/-- Runs the passes and writes the website. -/
def produce (s : Session) (o : Surroundings) (context : LogContext) (out : Bytes)
    (concurrent : Bool) : Effect Outcome := do
  let (editions, fault) ← stage context "expand" Prod.snd (passes s o out concurrent)
  let r : Outcome := { id := o.id, output := out, editions, fault }
  if fault.isSome then pure r
  else
    match ← (Step.asStage context "website" fun _ => writeSite s o out editions).run with
    | .ok website => pure { r with website }
    | .error fault => pure { r with fault := some fault }

/-- Runs the stages of a build. -/
def stages (o : Surroundings) (config : Config) : Effect Outcome := do
  let context : LogContext := { buildId := o.id }
  match ← (Step.asStage context "prepare" fun _ => Session.start config o.now).run with
  | .error fault => pure { id := o.id, fault := some fault }
  | .ok session =>
    let out := Path.absolute (← get).tree.cwd config.output
    let result ←
      match ← (Step.asStage context "clean" fun _ => clean Manifest.decode out).run with
      | .error fault => pure { id := o.id, output := out, fault := some fault }
      | .ok previous => do
        record session o previous (← produce session o context out config.isConcurrent)
    session.close
    pure result

/-- Builds a book. -/
def run (o : Surroundings) (config : Config) : Effect Outcome := do
  let result ← stages o config
  modify fun w => (w.count .build).count (.outcome result.status.name)
  pure result

/-! ## Previews -/

/-- The edition of a language that is expanded but not written. -/
structure Preview where
  root : Bytes
  expanded : Expansion.Expanded

/-- A path as it is shown: relative to the root of the book. -/
def Preview.name (p : Preview) (path : Bytes) : Bytes := (Path.relative? p.root path).getD path

/-- The declared language with an identifier; the empty one means the first. -/
def Session.language (s : Session) (id : Bytes) : Except Fault Descriptor :=
  if id.isEmpty then .ok (s.langs.headD {})
  else
    match s.langs.find? (·.id == id) with
    | some d => .ok d
    | none => .error (.raise .validation "language is not declared" [("lang", .str id)])

/-- Expands the book for a language without writing anything. -/
def Session.preview (s : Session) (o : Surroundings) (lang : Bytes) : Step Preview := do
  let tree := (← get).tree
  let d ← require (s.language lang)
  let root ← require (s.rootFor tree d)
  let expanded ← consult (s.fetcher o) d.id (Expansion.expand (s.setting o tree d) root)
  pure { root := s.resolver.root, expanded }

/-- Opens a session and expands the book for a language. -/
def preview (o : Surroundings) (config : Config) (lang : Bytes) : Step Preview := do
  let session ← Session.start config o.now
  let result ← ExceptT.lift (session.preview o lang).run
  session.close
  require result

end Bindery.Build
