import Bindery.Config.Basic
import Bindery.Config.EnvFile
import Bindery.Yaml.Writer

/-!
# Configuration files

Finding, reading and writing configuration files. Variables may also be set by a file beside the
configuration, but never against the environment itself.
-/

namespace Bindery.Config

open Text (bytes)

/-- The configuration file that is read when none is named. -/
def standardFile : Bytes := "bookbuilder.yaml"

/-- The files that may set variables; the first that exists counts. -/
def envFiles : List Bytes := [".env", ".env.local"]

/-- The environment with the variables that the first file of variables adds. -/
def loadEnvironment (tree : FileTree) (env : Environment) : Environment :=
  match envFiles.find? tree.exists? with
  | none => env
  | some name =>
    match (tree.read name).toOption.bind EnvFile.parse? with
    | some vars => vars.foldl (fun env (name, value) => env.setDefault name value) env
    | none => env

/-- Reads a configuration file. Without a name the standard file is read if there is one. -/
def load (tree : FileTree) (env : Environment) (path : Bytes) : Except Fault Config :=
  let explicit := !path.isEmpty
  let path := if explicit then path else standardFile
  match tree.read path with
  | .ok text =>
    (parse env text).mapError fun f =>
      match f.classifiedPart? with
      | some g => g.withDefault "path" (.str path)
      | none => f
  | .error .missingFile =>
    if explicit then .error (.raise .config "configuration file not found" [("path", .str path)])
    else finish {}
  | .error cause =>
    .error (.raiseFrom cause .config "cannot read configuration file" [("path", .str path)])

/-! ## Writing -/

open Yaml.Tree (field textField? fieldOf? record)

/-- Credentials as written. -/
def credentialsTree (c : Repository.Credentials) : Yaml.Tree :=
  record
    [field "type" (.text c.type), textField? "username" c.username, textField? "password" c.password,
      textField? "token" c.token, textField? "key_path" c.keyPath]

/-- The settings for fetching as written. -/
def fetchingTree (f : FetchSettings) : Yaml.Tree :=
  record
    [field "depth" (.int f.depth), fieldOf? "auth" (f.credentials.map credentialsTree),
      field "max_retries" (.int f.retries), field "retry_backoff" (.text f.backoff.name),
      field "retry_initial_delay" (.text f.initialDelay), field "retry_max_delay" (.text f.maxDelay)]

/-- A configuration as written. -/
def tree (c : Config) : Yaml.Tree :=
  record
    [field "input" (.text c.input), textField? "root" c.root, field "output" (.text c.output),
      textField? "name" c.name,
      field "workspace" (record
        [textField? "dir" c.workspace.dir, field "persistent" (.bool c.workspace.persistent)]),
      field "git" (fetchingTree c.fetching), fieldOf? "concurrent" (c.concurrent.map Yaml.Tree.bool),
      textField? "metrics_file" c.metricsFile,
      field "logging" (record
        [field "level" (.text c.logLevel.word), field "format" (.text c.logFormat.word)])]

/-- The configuration that is written as an example to start from. -/
def sample : Config :=
  { fetching := { credentials := some { type := "token", token := "$\x7bGIT_TOKEN\x7d" } } }

/-- Writes the example to a file. An existing file is only replaced when asked for. -/
def writeSample (files : FileTree) (path : Bytes) (force : Bool) : Except Fault FileTree :=
  if files.exists? path && !force then
    .error (.raise .config "configuration file already exists (use --force to overwrite)"
      [("path", .str path)])
  else
    (files.write path sample.tree.render).mapError fun cause =>
      .raiseFrom cause .fileSystem "cannot write configuration file" [("path", .str path)]

end Bindery.Config
