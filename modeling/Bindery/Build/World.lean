import Bindery.Expansion.Document

/-!
# The world of a build

A build reads and writes files, counts what it does and writes log records. Its stages change this
world; a stage that fails leaves behind what it did up to there. What changes the world does so in
single actions, so that several things can be done at once: their actions take turns.
-/

namespace Bindery.Build

open Text (bytes)

/-- What a build finds outside of the files. -/
structure Surroundings where
  /-- The identifier of the build. -/
  id : Bytes := []
  /-- When the build starts. -/
  now : Moment := .zero
  /-- How long the build takes, in milliseconds. -/
  elapsed : Int := 0
  /-- Fetches repositories into a workspace. What that writes and removes lies in the workspace, which
  nothing else of a build reads, and is not among the files of the world. -/
  fetch : Bytes → Repository.Fetcher
  /-- The checkout that holds a directory. -/
  checkout : Bytes → Expansion.Checkout
  cancelled : Bool := false
  /-- The order in which passes that are done at once take turns. -/
  schedule : List Nat := []

/-- What a build changes. -/
structure World where
  tree : FileTree
  services : Expansion.Services := {}

namespace World

def count (w : World) (event : Metric) : World :=
  { w with services.metrics := w.services.metrics ++ [event] }

def log (w : World) (record : LogRecord) : World :=
  { w with services.log := w.services.log ++ [record] }

/-- Everything that was counted. -/
def metrics (w : World) : List Metric := w.services.metrics ++ w.services.cache.metrics

end World

/-! ## Effects -/

/-- What is done to the world, action by action. An action sees the world and changes it at once, and
what is done next depends on what it saw. -/
inductive Effect (α : Type) where
  | done (a : α)
  | act (change : World → World) (next : World → Effect α)

namespace Effect

variable {α β : Type}

def bind : Effect α → (α → Effect β) → Effect β
  | .done a, f => f a
  | .act change next, f => .act change fun w => (next w).bind f

instance : Monad Effect where
  pure := .done
  bind := bind

instance : MonadStateOf World Effect where
  get := .act id .done
  set w := .act (fun _ => w) fun _ => .done ()
  modifyGet f := .act (fun w => (f w).2) fun w => .done (f w).1

/-- Does everything that is to be done, with nothing in between. -/
def run : Effect α → World → α × World
  | .done a, w => (a, w)
  | .act change next, w => (next w).run (change w)

instance : CoeFun (Effect α) fun _ => World → α × World := ⟨run⟩

/-- Does several things at once. Each number of the schedule lets the one at this place take its next
action; those that the schedule leaves unfinished go on one after the other. Each leaves its result in
the slot of its place. -/
def together : List Nat → List (Effect α) → Effect (List α)
  | [], pool => pool.mapM id
  | i :: schedule, pool =>
    match pool[i]? with
    | some (.act change next) => .act change fun w => together schedule (pool.set i (next w))
    | _ => together schedule pool

end Effect

/-- A step that can fail. -/
abbrev Step := ExceptT Fault Effect

/-- Goes on with a result, or fails. -/
def require {α : Type} (result : Except Fault α) : Step α := ExceptT.mk (pure result)

/-- Changes the files, or fails. -/
def changeFiles (change : FileTree → Except Fault FileTree) : Step Unit :=
  ExceptT.mk <| modifyGet fun w =>
    match change w.tree with
    | .ok tree => (.ok (), { w with tree })
    | .error fault => (.error fault, w)

/-- Asks the shared services for what a script needs, one request after the other. -/
def ask {α : Type} (fetch : Repository.Fetcher) (lang : Bytes) : Expansion.Script α → Effect α
  | .done a => .done a
  | .ask request next =>
    .act (fun w => { w with services := (w.services.answer fetch lang request).2 }) fun w =>
      ask fetch lang (next (w.services.answer fetch lang request).1)

/-- Asks the shared services for what a script that can fail needs. -/
def consult {α : Type} (fetch : Repository.Fetcher) (lang : Bytes)
    (script : Expansion.Script (Except Fault α)) : Step α :=
  ExceptT.mk (ask fetch lang script)

/-! ## Stages -/

/-- The word for how a stage ended. -/
def stageResult : Option Fault → Bytes
  | none => "success"
  | some f => if f.isCancelled then "canceled" else "fatal"

/-- Does the work of a stage: it is counted, and a failure other than by cancellation is logged.
`fault?` tells whether the stage failed. -/
def stage {α : Type} (context : LogContext) (name : Bytes) (fault? : α → Option Fault)
    (work : LogContext → Effect α) : Effect α := do
  let context := { context with stage := name }
  let result ← work context
  let fault := fault? result
  modify fun w => (w.count (.stage name)).count (.stageResult name (stageResult fault))
  if fault.any fun f => !f.isCancelled then
    modify fun w => w.log (context.record .error "Stage failed" [])
  pure result

def faultOf {α : Type} : Except Fault α → Option Fault
  | .ok _ => none
  | .error f => some f

/-- A stage whose work can fail. -/
def Step.asStage {α : Type} (context : LogContext) (name : Bytes) (work : LogContext → Step α) :
    Step α :=
  ExceptT.mk (stage context name faultOf fun context => (work context).run)

end Bindery.Build
