import Bindery.Fault.Basic
import Bindery.Log

/-!
# Faults on the console

The exit code, the line shown to the user and the log record of a fault.
-/

namespace Bindery.Fault

open Text (bytes)

def exitCode (f : Fault) : Nat := (f.report?.map fun r => r.category.exitCode).getD 1

/-- The line for a fault that is not a list of several. Internal faults are shown in full only to
those who ask for details. -/
def displayOne (verbose : Bool) (f : Fault) : Bytes :=
  match f.report? with
  | none => bytes "Error: " ++ f.text
  | some r =>
    if r.category == .internal && !verbose then "Internal error occurred (use -v for details)"
    else if r.location.isEmpty then bytes "Error: " ++ f.text
    else r.location ++ ": " ++ f.text

mutual

/-- What the user is shown: one line, or one per fault where several were joined. -/
def display (verbose : Bool) : Fault → Bytes
  | .joined faults => Text.joinWith "\n" (displays verbose faults)
  | .classified report cause => displayOne verbose (.classified report cause)
  | .clone failure operation url inner => displayOne verbose (.clone failure operation url inner)
  | .wrapped note inner => displayOne verbose (.wrapped note inner)
  | .plain text => displayOne verbose (.plain text)
  | .number text => displayOne verbose (.number text)
  | .cancelled => displayOne verbose .cancelled
  | .yaml => displayOne verbose .yaml
  | .missingFile => displayOne verbose .missingFile
  | .fileSystem => displayOne verbose .fileSystem
  | .other => displayOne verbose .other
  | .crashed => displayOne verbose .crashed
termination_by structural f => f

/-- The lines of several faults. -/
def displays (verbose : Bool) : List Fault → List Bytes
  | [] => []
  | f :: fs => display verbose f :: displays verbose fs
termination_by structural fs => fs

end

/-- Whether a fault is logged as well as shown. -/
def shouldLog (verbose : Bool) (f : Fault) : Bool :=
  verbose || (f.report?.map fun r => r.severity == .fatal).getD true

/-- The log record of a fault. -/
def logRecord (f : Fault) : LogRecord :=
  match f.report? with
  | none => { level := .error, message := "Unclassified error", attrs := [("error", .str f.text)] }
  | some r =>
    let level : Level :=
      match r.severity with
      | .info => .info
      | .warning => .warn
      | _ => .error
    let retryable : List (Bytes × Value) :=
      if r.retry.allows then [(bytes "retryable", .bool true)] else []
    { level, message := r.message
      attrs := (bytes "category", .str r.category.name) :: r.context ++ retryable }

end Bindery.Fault
