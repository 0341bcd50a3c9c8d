import Bindery.Build.Run
import Bindery.Command.Arguments
import Bindery.Config.File
import Bindery.Exposition
import Bindery.Repository.Client
import Bindery.Version
import Bindery.Watch

/-!
# Commands

What a command does to the files, and what it prints. A command that fails prints nothing.
-/

namespace Bindery

open Text (bytes)

/-- What a command finds besides the files. -/
structure Host where
  environment : Environment := []
  version : Version := {}
  /-- The identifier for a build. -/
  id : Bytes := []
  now : Moment := .zero
  /-- How long a build takes, in milliseconds. -/
  elapsed : Int := 0
  clone : Repository.Cloner
  /-- The checkout that holds a directory. -/
  checkout : Bytes → Expansion.Checkout
  /-- The order in which passes that are done at once take turns. -/
  schedule : List Nat := []

namespace Command

open Build (Step require changeFiles)

/-- What a build finds, with repositories cloned as the settings say. -/
def surroundings (h : Host) (config : Config) (tree : FileTree) : Build.Surroundings :=
  let f := config.fetching
  let client (workspace : Bytes) : Repository.Client :=
    { workspace, depth := f.depth, credentials := f.login?, policy := f.policy, clone := h.clone }
  { id := h.id, now := h.now, elapsed := h.elapsed, checkout := h.checkout, schedule := h.schedule
    fetch := fun workspace => (client workspace).fetch tree false }

def configOf (h : Host) (c : CommandLine) : Step Config := do
  let tree := (← get).tree
  require (Config.load tree (Config.loadEnvironment tree h.environment) c.config)

/-! ## Building -/

/-- The line for an edition that was written. -/
def editionLine (e : Manifest.Edition) : Bytes :=
  let name := if e.name.isEmpty then bytes "document" else e.name
  Text.padEnd 10 name ++ " " ++ e.document ++ " (" ++ Text.ofNat e.sources.length ++ " sources, "
    ++ Text.ofInt e.labels ++ " labels)\n"

/-- The lines for a successful build. -/
def summary (h : Host) (r : Build.Outcome) : Bytes :=
  let website : Bytes :=
    if r.website.isEmpty then [] else Text.padEnd 10 "website" ++ " " ++ r.website ++ "\n"
  let note : Bytes := if r.unchanged then ", outputs unchanged" else []
  r.editions.flatMap editionLine ++ website ++ "Build completed in "
    ++ Duration.millisText h.elapsed.toNat ++ note ++ "\n"

/-- Writes the metrics to a file, if one is named. A failure is only logged. -/
def writeMetrics (path : Bytes) : Build.Effect Unit := modify fun w =>
  if path.isEmpty then w
  else
    match w.tree.write path (Metric.exposition w.metrics) with
    | .ok tree => { w with tree }
    | .error _ => w.log { level := .warn, message := "Failed to write metrics" }

/-- Builds a book and tells what was written. -/
def build (h : Host) (config : Config) : Step Bytes := do
  let o := surroundings h config (← get).tree
  let r ← ExceptT.lift (Build.run o config)
  writeMetrics config.metricsFile
  match r.fault with
  | some fault => throw fault
  | none => pure (summary h r)

/-- Builds a book while it is watched: a failure is logged and does not end the watching. -/
def rebuild (h : Host) (config : Config) : Step Bytes := do
  match ← ExceptT.lift (build h config).run with
  | .ok output => pure output
  | .error _ =>
    modify fun w => w.log { level := .warn, message := "Rebuild failed" }
    pure []

/-- The settings with what the words of a build say instead. -/
def overridden (config : Config) (input output : Bytes) (sequential : Bool) : Config :=
  let config := config.withInput input
  let config := if output.isEmpty then config else { config with output }
  if sequential then { config with concurrent := some false } else config

/-! ## Other commands -/

def labelLine (labels : Label.Registry) (e : Label.Entry) : Bytes :=
  Text.padEnd 24 e.anchor ++ " " ++ labels.title e.kind ++ " " ++ Text.ofNat e.number ++ "\n"

/-- What is shown of an edition that is not written: its text, or its inclusion tree and perhaps its
labels. -/
def previewText (p : Build.Preview) (labels print : Bool) : Bytes :=
  if print then p.expanded.text
  else
    p.expanded.root.picture p.name
      ++ if labels then p.expanded.labels.entries.flatMap (labelLine p.expanded.labels) else []

/-- What is watched for a configuration. -/
def watchOf (cwd : Bytes) (config : Config) (debounce : Int) : Watch :=
  let root := if config.root.isEmpty then Path.dir config.input else config.root
  (Watch.ofRoot cwd root [config.output, config.workspace.dir, config.metricsFile]).withDebounce
    debounce

/-- Checks that what is to be watched exists. -/
def requireWatchable (w : Watch) : Step Unit := do
  match (← get).tree.stat w.root with
  | .ok _ => pure ()
  | .error cause =>
    throw (Fault.raiseFrom cause .fileSystem "cannot watch directory" [("path", .str w.root)])

/-- The path of the configuration file that is written. -/
def samplePath (c : CommandLine) (output : Bytes) : Bytes :=
  if !output.isEmpty then Path.join [output, Config.standardFile]
  else if c.config.isEmpty then Config.standardFile
  else c.config

/-- How the program is used. -/
def usage : Bytes :=
  bytes "Usage: bookbuilder [-c PATH] [-v] [--version] [COMMAND]\n\n"
    ++ "  build [INPUT] [-o DIR] [--sequential]\n"
    ++ "  tree [INPUT] [-l ID] [--labels] [-p]\n"
    ++ "  watch [INPUT] [-o DIR] [--debounce DURATION]\n"
    ++ "  init [--force] [-o DIR]\n"

end Command

open Command in
/-- Does what a command line says, and returns what it prints. Watching builds once here; the
program goes on from there. -/
def CommandLine.run (h : Host) (c : CommandLine) : Build.Step Bytes := do
  match c.task with
  | .version => pure (h.version.line ++ "\n")
  | .help => pure usage
  | .build input output sequential =>
    Command.build h (overridden (← configOf h c) input output sequential)
  | .tree input lang labels print =>
    let config := (← configOf h c).withInput input
    let p ← Build.preview (surroundings h config (← get).tree) config lang
    pure (previewText p labels print)
  | .watch input output debounce =>
    let config := overridden (← configOf h c) input output false
    requireWatchable (watchOf (← get).tree.cwd config debounce)
    rebuild h config
  | .init output force =>
    let path := samplePath c output
    Build.changeFiles fun tree => Config.writeSample tree path force
    pure (bytes "Wrote " ++ path ++ "\n")

end Bindery
