import Bindery.Backoff
import Bindery.Config.Environment
import Bindery.Config.Violation
import Bindery.Config.Vocabulary
import Bindery.Log
import Bindery.Repository.Credentials
import Bindery.Yaml.Decode

/-!
# Configuration

What a book is built from and how. A configuration is read from a document over the standard
settings, completed, and checked as a whole: all violations are reported at once.
-/

namespace Bindery

open Text (bytes)

/-! ## Words -/

/-- How log records are written. -/
inductive LogFormat where
  | text
  | json
  deriving DecidableEq, Repr

namespace LogFormat

/-- The word for a format. -/
def word : LogFormat → Bytes
  | .text => "text"
  | .json => "json"

/-- The words for formats; anything else means text. -/
def vocabulary : Vocabulary LogFormat := .ofWords [("json", .json), ("text", .text)] .text

end LogFormat

namespace Level

/-- The word for a level in a configuration. -/
def word : Level → Bytes
  | .debug => "debug"
  | .info => "info"
  | .warn => "warn"
  | .error => "error"

/-- The words for levels; anything else means the ordinary level. -/
def vocabulary : Vocabulary Level :=
  .ofWords [("debug", .debug), ("info", .info), ("warn", .warn), ("warning", .warn), ("error", .error)]
    .info

/-- The level of a word in its exact spelling; anything else means the ordinary level. -/
def ofWord (s : Bytes) : Level :=
  ([.debug, .info, .warn, .error].find? fun l : Level => l.word == s).getD .info

/-- The level in force: everything when asked for, or else what the environment says, or else what is
configured. -/
def inForce (verbose : Bool) (env : Environment) (configured : Level) : Level :=
  if verbose then .debug
  else
    match env.get "BOOKBUILDER_LOG_LEVEL" with
    | [] => configured
    | word => vocabulary.read word

end Level

namespace BackoffMode

/-- The words for the ways a delay grows; other words have no meaning. -/
def vocabulary : Vocabulary (Option BackoffMode) :=
  .ofWords [("fixed", some .fixed), ("linear", some .linear), ("exponential", some .exponential)] none

/-- The mode that a word names. An unknown word is kept as it is. -/
def ofWord (word : Bytes) : BackoffMode := (vocabulary.read word).getD (.other word)

end BackoffMode

namespace Repository.Credentials

/-- The words for the ways to log in; nothing means none, and other words have no meaning. -/
def vocabulary : Vocabulary (Option Bytes) :=
  .ofWords [("none", some "none"), ("", some "none"), ("token", some "token"), ("basic", some "basic"),
    ("ssh", some "ssh")] none

end Repository.Credentials

/-! ## Settings -/

/-- Where repositories are checked out. -/
structure WorkspaceSettings where
  dir : Bytes := []
  /-- Whether checkouts are kept between builds. -/
  persistent : Bool := false
  deriving DecidableEq, Repr

/-- How repositories are fetched. -/
structure FetchSettings where
  depth : Int := 0
  credentials : Option Repository.Credentials := none
  retries : Int := 2
  backoff : BackoffMode := .linear
  initialDelay : Bytes := "1s"
  maxDelay : Bytes := "30s"
  deriving DecidableEq, Repr

/-- The settings of a program run. -/
structure Config where
  /-- The root document. -/
  input : Bytes := "book.md"
  /-- The directory that all paths of the book lie in. -/
  root : Bytes := []
  output : Bytes := "build"
  /-- The name of the documents that are written. -/
  name : Bytes := []
  workspace : WorkspaceSettings := {}
  fetching : FetchSettings := {}
  /-- Whether the languages are built at the same time; not saying so means yes. -/
  concurrent : Option Bool := none
  metricsFile : Bytes := []
  logLevel : Level := .info
  logFormat : LogFormat := .text
  deriving DecidableEq, Repr

namespace FetchSettings

def policy (f : FetchSettings) : Backoff :=
  .ofSettings f.backoff ((Duration.parse? f.initialDelay).getD 0)
    ((Duration.parse? f.maxDelay).getD 0) (Int64.ofInt f.retries)

/-- The credentials in use; those of type `none` are not. -/
def login? (f : FetchSettings) : Option Repository.Credentials :=
  f.credentials.filter fun c => c.type != bytes "none"

end FetchSettings

namespace Config

def isConcurrent (c : Config) : Bool := c.concurrent.getD true

/-! ## Reading -/

/-- The fields of a mapping that has none but known ones. -/
def knownFields? (names : List Bytes) (node : Yaml.Node) : Option (List (Bytes × Yaml.Node)) := do
  let fields ← node.fields?
  guard (fields.all fun f => names.contains f.1)
  some fields

/-- Reads a field over the value it has; a missing or null field changes nothing. -/
def field? {α : Type} (fields : List (Bytes × Yaml.Node)) (name : Bytes)
    (read? : Yaml.Node → Option α) (standing : α) : Option α :=
  match fields.lookup name with
  | none => some standing
  | some node => if node.isNull then some standing else read? node

/-- Reads where repositories are checked out. -/
def workspaceOf? (w : WorkspaceSettings) (node : Yaml.Node) : Option WorkspaceSettings := do
  let fields ← knownFields? ["dir", "persistent"] node
  some
    { dir := ← field? fields "dir" Yaml.Node.text? w.dir
      persistent := ← field? fields "persistent" Yaml.Node.bool? w.persistent }

/-- Reads credentials. -/
def credentialsOf? (node : Yaml.Node) : Option Repository.Credentials := do
  let fields ← knownFields? ["type", "username", "password", "token", "key_path"] node
  let text? (name : Bytes) : Option Bytes := field? fields name Yaml.Node.text? []
  some
    { type := ← text? "type", token := ← text? "token", username := ← text? "username"
      password := ← text? "password", keyPath := ← text? "key_path" }

/-- Reads how repositories are fetched. -/
def fetchingOf? (f : FetchSettings) (node : Yaml.Node) : Option FetchSettings := do
  let fields ← knownFields?
    ["depth", "auth", "max_retries", "retry_backoff", "retry_initial_delay", "retry_max_delay"] node
  let backoff ← field? fields "retry_backoff" Yaml.Node.text? f.backoff.name
  some
    { depth := ← field? fields "depth" Yaml.Node.int? f.depth
      credentials := ← field? fields "auth" (fun n => (credentialsOf? n).map some) f.credentials
      retries := ← field? fields "max_retries" Yaml.Node.int? f.retries
      backoff := .ofWord backoff
      initialDelay := ← field? fields "retry_initial_delay" Yaml.Node.text? f.initialDelay
      maxDelay := ← field? fields "retry_max_delay" Yaml.Node.text? f.maxDelay }

/-- Reads how records are logged. -/
def loggingOf? (c : Config) (node : Yaml.Node) : Option (Level × LogFormat) := do
  let fields ← knownFields? ["level", "format"] node
  let level ← field? fields "level" Yaml.Node.text? c.logLevel.word
  let format ← field? fields "format" Yaml.Node.text? c.logFormat.word
  some (Level.vocabulary.read level, LogFormat.vocabulary.read format)

/-- Reads a document over the standard settings. Unknown and repeated fields are refused. -/
def ofNode? (node : Yaml.Node) : Option Config := do
  let c : Config := {}
  let fields ← knownFields?
    ["input", "root", "output", "name", "workspace", "git", "concurrent", "metrics_file", "logging"] node
  let (logLevel, logFormat) ← field? fields "logging" (loggingOf? c) (c.logLevel, c.logFormat)
  some
    { input := ← field? fields "input" Yaml.Node.text? c.input
      root := ← field? fields "root" Yaml.Node.text? c.root
      output := ← field? fields "output" Yaml.Node.text? c.output
      name := ← field? fields "name" Yaml.Node.text? c.name
      workspace := ← field? fields "workspace" (workspaceOf? c.workspace) c.workspace
      fetching := ← field? fields "git" (fetchingOf? c.fetching) c.fetching
      concurrent := ← field? fields "concurrent" (fun n => n.bool?.map some) c.concurrent
      metricsFile := ← field? fields "metrics_file" Yaml.Node.text? c.metricsFile
      logLevel, logFormat }

/-! ## Completing and checking -/

/-- Trims the paths, and writes the way to log in as the vocabulary does. -/
def normalize (c : Config) : Config :=
  let credentials := c.fetching.credentials.map fun auth =>
    { auth with type := (Repository.Credentials.vocabulary.read auth.type).getD auth.type }
  { c with
    input := Text.trim c.input
    root := Text.trim c.root
    output := Text.trim c.output
    fetching := { c.fetching with credentials } }

/-- A text, or a standard one in place of the empty text. -/
def orElse (s standard : Bytes) : Bytes := if s.isEmpty then standard else s

/-- Fills in what follows from the rest: the root is the directory of the input, and the name its
stem. -/
def complete (c : Config) : Config :=
  let f := c.fetching
  { c with
    root := if c.root.isEmpty && !c.input.isEmpty then Path.dir c.input else c.root
    name := if c.name.isEmpty && !c.input.isEmpty then Path.stem c.input else c.name
    fetching :=
      { f with
        backoff := if f.backoff.name.isEmpty then .linear else f.backoff
        initialDelay := orElse f.initialDelay "1s"
        maxDelay := orElse f.maxDelay "30s" } }

/-- What is wrong with credentials. -/
def credentialViolations (c : Repository.Credentials) : List Violation :=
  if c.type == bytes "none" then []
  else if c.type == bytes "token" then
    Violation.required "git.auth.token" c.token "token auth needs a token"
  else if c.type == bytes "basic" then
    if c.username.isEmpty || c.password.isEmpty then
      [{ field := "git.auth", code := "required"
         message := "basic auth needs username and password" }]
    else []
  else if c.type == bytes "ssh" then
    Violation.required "git.auth.key_path" c.keyPath "ssh auth needs a key path"
  else
    [{ field := "git.auth.type", code := "one_of", message := "must be none, token, basic or ssh" }]

/-- What is wrong with the settings for fetching. -/
def fetchViolations (f : FetchSettings) : List Violation :=
  let (initial, initialBad) := Violation.positiveDuration "git.retry_initial_delay" f.initialDelay
  let (longest, longestBad) := Violation.positiveDuration "git.retry_max_delay" f.maxDelay
  (if f.retries < 0 then
      [{ field := "git.max_retries", code := "min", message := "must not be negative" }]
    else [])
    ++ (if f.backoff.isKnown then []
      else [{ field := "git.retry_backoff", code := "one_of"
              message := "must be fixed, linear or exponential" }])
    ++ initialBad ++ longestBad
    ++ (if initial > 0 && longest > 0 && longest < initial then
        [{ field := "git.retry_max_delay", code := "min"
           message := "must not be shorter than the initial delay" }]
      else [])
    ++ (f.credentials.map credentialViolations).getD []

/-- Everything that is wrong with a configuration. -/
def violations (c : Config) : List Violation :=
  Violation.required "input" c.input "input document is required"
    ++ Violation.required "output" c.output "output directory is required"
    ++ Violation.oneOf "logging.format" ["text", "json"] c.logFormat.word
    ++ fetchViolations c.fetching

/-- Completes and checks a configuration. -/
def finish (c : Config) : Except Fault Config :=
  let c := c.normalize.complete
  match Violation.toFault? c.violations with
  | none => .ok c
  | some f => .error (f.passOn .config "invalid configuration")

/-- Reads a configuration from a document, in which variables of the environment are replaced. An
empty document gives the standard settings. -/
def parseWith (parser : Yaml.Parser) (env : Environment) (text : Bytes) : Except Fault Config :=
  let refused : Fault := .raiseFrom .yaml .config "invalid configuration"
  match parser (env.expand text) with
  | none => .error refused
  | some none => finish {}
  | some (some node) =>
    if node.isNull then finish {}
    else
      match ofNode? node with
      | some c => c.finish
      | none => .error refused

def parse : Environment → Bytes → Except Fault Config := parseWith Yaml.parse?

/-! ## Another input -/

/-- Builds another document. Root and name follow it where they were those of the old one. -/
def withInput (c : Config) (input : Bytes) : Config :=
  if input.isEmpty || input == c.input then c
  else
    { c with
      root := if c.root == Path.dir c.input then Path.dir input else c.root
      name := if c.name == Path.stem c.input then Path.stem input else c.name
      input }

end Config

end Bindery
