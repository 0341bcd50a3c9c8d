import Bindery.Value

/-!
# Faults

Every failure is a `Fault`. Most are classified: they have a category, which fixes how the program
exits, a severity, a retry strategy, a message and a context of keys such as the file and the line.
The others are what a classified fault was caused by.
-/

namespace Bindery

open Text (bytes)

/-! ## Classification -/

/-- The concern that failed. -/
inductive Category where
  | config | validation | auth | notFound
  | path | inclusion | code | repository | label | metadata | directive
  | network | git | build | fileSystem | internal
  | other (name : Bytes)
  deriving DecidableEq, Repr

/-- How far a fault reaches. -/
inductive Severity where
  | fatal | error | warning | info
  | other (name : Bytes)
  deriving DecidableEq, Repr

/-- Whether and how trying again can help. -/
inductive Retry where
  | never | immediate | backoff | rateLimit | userAction
  | other (name : Bytes)
  deriving DecidableEq, Repr

namespace Category

/-- The name of a category in messages. -/
def name : Category → Bytes
  | .config => "config"
  | .validation => "validation"
  | .auth => "auth"
  | .notFound => "not_found"
  | .path => "path"
  | .inclusion => "inclusion"
  | .code => "code"
  | .repository => "repository"
  | .label => "label"
  | .metadata => "metadata"
  | .directive => "directive"
  | .network => "network"
  | .git => "git"
  | .build => "build"
  | .fileSystem => "filesystem"
  | .internal => "internal"
  | .other name => name

/-- The categories that the library itself uses. -/
def all : List Category :=
  [.config, .validation, .auth, .notFound, .path, .inclusion, .code, .repository, .label, .metadata,
    .directive, .network, .git, .build, .fileSystem, .internal]

def ofName (s : Bytes) : Category := (all.find? fun c => c.name == s).getD (.other s)

/-- The severity of a fault of this category when nothing else is said. -/
def severity : Category → Severity
  | .auth | .network | .git | .fileSystem | .notFound | .other _ => .error
  | _ => .fatal

/-- The retry strategy of a fault of this category when nothing else is said. -/
def retry : Category → Retry
  | .auth => .userAction
  | .network | .git | .fileSystem => .backoff
  | _ => .never

/-- The exit code of the program for a fault of this category. -/
def exitCode : Category → Nat
  | .validation => 2
  | .path | .inclusion | .code | .label | .metadata | .directive => 3
  | .auth => 5
  | .config => 7
  | .network | .git | .repository => 8
  | .internal => 10
  | .build | .fileSystem => 11
  | .notFound | .other _ => 1

end Category

namespace Severity

/-- The name of a severity in messages. -/
def name : Severity → Bytes
  | .fatal => "fatal"
  | .error => "error"
  | .warning => "warning"
  | .info => "info"
  | .other name => name

def ofName (s : Bytes) : Severity :=
  ([.fatal, .error, .warning, .info].find? fun c : Severity => c.name == s).getD (.other s)

end Severity

namespace Retry

/-- The name of a retry strategy. -/
def name : Retry → Bytes
  | .never => "never"
  | .immediate => "immediate"
  | .backoff => "backoff"
  | .rateLimit => "rate_limit"
  | .userAction => "user"
  | .other name => name

def ofName (s : Bytes) : Retry :=
  ([.never, .immediate, .backoff, .rateLimit, .userAction].find? fun c : Retry => c.name == s).getD
    (.other s)

/-- Whether the strategy allows another attempt without the user. -/
def allows : Retry → Bool
  | .never | .userAction => false
  | _ => true

end Retry

/-! ## Context -/

/-- The keys and values that say where and why something failed. No key occurs twice in a context
that is built by `set`. -/
abbrev Context := List (Bytes × Value)

namespace Context

def get? (c : Context) (key : Bytes) : Option Value := c.lookup key

/-- Sets a key, replacing the value it had. -/
def set (c : Context) (key : Bytes) (value : Value) : Context :=
  if (c.lookup key).isSome then c.map fun (k, v) => if k == key then (k, value) else (k, v)
  else c ++ [(key, value)]

/-- Sets a key unless it is set already: what is known closer to the failure is more precise. -/
def setDefault (c : Context) (key : Bytes) (value : Value) : Context :=
  if (c.lookup key).isSome then c else c ++ [(key, value)]

def merge (c other : Context) : Context := other.foldl (fun c (k, v) => set c k v) c

/-- The context as text: `key=value` pairs ordered by key. -/
def text (c : Context) : Bytes :=
  Text.joinWith " " ((c.mergeSort fun a b => Text.le a.1 b.1).map fun (k, v) => k ++ "=" ++ v.plain)

end Context

/-! ## Faults -/

/-- What a classified fault says of itself, apart from its cause. -/
structure Report where
  category : Category
  severity : Severity
  retry : Retry
  message : Bytes
  context : Context := []
  deriving Repr

/-- The ways in which fetching a repository fails that are told apart. -/
inductive CloneFailure where
  | auth | notFound | unsupportedProtocol | rateLimit | timeout
  deriving DecidableEq, Repr

/-- A failure. -/
inductive Fault where
  /-- A classified failure, with what caused it. -/
  | classified (report : Report) (cause : Option Fault)
  /-- A message from outside the library. -/
  | plain (text : Bytes)
  /-- A text that is no number. -/
  | number (text : Bytes)
  /-- A repository that could not be fetched. -/
  | clone (failure : CloneFailure) (operation url : Bytes) (inner : Fault)
  /-- A failure with a note in front. -/
  | wrapped (note : Bytes) (inner : Fault)
  /-- Several independent failures. -/
  | joined (faults : List Fault)
  /-- The work was cancelled. -/
  | cancelled
  /-- A text that is no document of the metadata language, or not of the expected shape. -/
  | yaml
  /-- A file that does not exist. -/
  | missingFile
  /-- Any other refusal of the file system. -/
  | fileSystem
  /-- A failure of which nothing further is known. -/
  | other
  /-- The program broke off at once, because it read a list beyond its end. -/
  | crashed
  deriving Repr

namespace CloneFailure

/-- The words between the operation and the address. -/
def words : CloneFailure → Bytes
  | .auth => " auth error for "
  | .notFound => " not found "
  | .unsupportedProtocol => " unsupported protocol "
  | .rateLimit => " rate limited "
  | .timeout => " network timeout "

end CloneFailure

namespace Report

/-- A report with the severity and retry strategy that its category calls for. -/
def standard (category : Category) (message : Bytes) (context : Context) : Report :=
  { category, severity := category.severity, retry := category.retry, message, context }

/-- A report of plain severity that is not to be retried, as given to what only passes a failure
on. -/
def passing (category : Category) (message : Bytes) (context : Context) : Report :=
  { category, severity := .error, retry := .never, message, context }

/-- The text of a report without its cause. -/
def text (r : Report) : Bytes :=
  let context : Bytes :=
    if r.context.isEmpty then [] else bytes " (" ++ Context.text r.context ++ ")"
  bytes "[" ++ r.category.name ++ ":" ++ r.severity.name ++ "] " ++ r.message ++ context

/-- Where in the sources a report points: `[lang] file:line: \directive`, without what is unknown.
It is empty when the report names no file. -/
def location (r : Report) : Bytes :=
  match Context.get? r.context "file" with
  | none => []
  | some file =>
    let lang : Bytes :=
      match Context.get? r.context "lang" with
      | none | some (.str []) => []
      | some v => bytes "[" ++ v.plain ++ "] "
    let line : Bytes :=
      match Context.get? r.context "line" with
      | none => []
      | some v => bytes ":" ++ v.plain
    let directive : Bytes :=
      match Context.get? r.context "directive" with
      | none => []
      | some v => bytes ": \\" ++ v.plain
    lang ++ file.plain ++ line ++ directive

end Report

namespace Fault

/-- A classified fault with the severity and retry strategy of its category. -/
def raise (category : Category) (message : Bytes) (context : Context := []) : Fault :=
  .classified (.standard category message context) none

def raiseFrom (cause : Fault) (category : Category) (message : Bytes) (context : Context := []) :
    Fault :=
  .classified (.standard category message context) (some cause)

/-- Passes a fault on under a category of its own. -/
def passOn (cause : Fault) (category : Category) (message : Bytes) (context : Context := []) :
    Fault :=
  .classified (.passing category message context) (some cause)

mutual

/-- The text of a fault, with its causes. -/
def text : Fault → Bytes
  | .classified report cause => report.text ++ causeText cause
  | .plain text => text
  | .number text => text
  | .clone failure operation url inner =>
    operation ++ failure.words ++ url ++ ": " ++ text inner
  | .wrapped note inner => note ++ ": " ++ text inner
  | .joined faults => Text.joinWith "\n" (texts faults)
  | .cancelled => "context canceled"
  | .yaml => "malformed document"
  | .missingFile => "no such file or directory"
  | .fileSystem => "file system failure"
  | .other => "failure"
  | .crashed => "index out of range"
termination_by structural f => f

/-- The text of the cause of a fault, after a colon. -/
def causeText : Option Fault → Bytes
  | none => []
  | some f => bytes ": " ++ text f
termination_by structural f => f

/-- The texts of several faults. -/
def texts : List Fault → List Bytes
  | [] => []
  | f :: fs => text f :: texts fs
termination_by structural fs => fs

end

mutual

/-- A fault and everything it was caused by, the outermost first. -/
def chain : Fault → List Fault
  | .classified report cause => .classified report cause :: chainOfCause cause
  | .clone failure operation url inner => .clone failure operation url inner :: chain inner
  | .wrapped note inner => .wrapped note inner :: chain inner
  | .joined faults => .joined faults :: chains faults
  | .plain text => [.plain text]
  | .number text => [.number text]
  | .cancelled => [.cancelled]
  | .yaml => [.yaml]
  | .missingFile => [.missingFile]
  | .fileSystem => [.fileSystem]
  | .other => [.other]
  | .crashed => [.crashed]
termination_by structural f => f

/-- The chain of a cause. -/
def chainOfCause : Option Fault → List Fault
  | none => []
  | some f => chain f
termination_by structural f => f

/-- The chains of several faults, one after the other. -/
def chains : List Fault → List Fault
  | [] => []
  | f :: fs => chain f ++ chains fs
termination_by structural fs => fs

end

/-- The report of a fault that is itself classified. -/
def ownReport? : Fault → Option Report
  | .classified report _ => some report
  | _ => none

/-- The outermost classified fault in the chain of a fault. -/
def classifiedPart? (f : Fault) : Option Fault := f.chain.find? fun g => g.ownReport?.isSome

/-- The outermost report in the chain of a fault. -/
def report? (f : Fault) : Option Report := f.chain.findSome? ownReport?

/-- The category of a fault; an unclassified one is internal. -/
def category (f : Fault) : Category := (f.report?.map Report.category).getD .internal

def severity (f : Fault) : Severity := (f.report?.map Report.severity).getD .error

def retry (f : Fault) : Retry := (f.report?.map Report.retry).getD .never

/-- Whether a fault has the same category and message, anywhere in its chain, as a classified
fault. -/
def agreesWith (f target : Fault) : Bool :=
  match target.ownReport? with
  | none => false
  | some t =>
    f.chain.any fun g =>
      match g.ownReport? with
      | none => false
      | some r => r.category == t.category && r.message == t.message

/-- Whether the work was cancelled. -/
def isCancelled (f : Fault) : Bool :=
  f.chain.any fun
    | .cancelled => true
    | _ => false

/-- Whether fetching failed in the given way. -/
def isClone (f : Fault) (failure : CloneFailure) : Bool :=
  f.chain.any fun
    | .clone g _ _ _ => g == failure
    | _ => false

/-- Sets a context key of a classified fault; other faults have none. -/
def withContext (f : Fault) (key : Bytes) (value : Value) : Fault :=
  match f with
  | .classified r cause => .classified { r with context := Context.set r.context key value } cause
  | f => f

/-- Sets a context key of a classified fault unless it is set. -/
def withDefault (f : Fault) (key : Bytes) (value : Value) : Fault :=
  match f with
  | .classified r cause =>
    .classified { r with context := Context.setDefault r.context key value } cause
  | f => f

end Fault

end Bindery
