import Bindery.Value

/-!
# Log records

Records carry a level, a message and attributes. The context of a build (its id, the stage and the
language) is put in front of the attributes of every record written inside it.
-/

namespace Bindery

/-- The level of a log record. -/
inductive Level where
  | debug
  | info
  | warn
  | error
  deriving DecidableEq, Repr

namespace Level

/-- The name of a level in a record. -/
def name : Level → Bytes
  | .debug => "DEBUG"
  | .info => "INFO"
  | .warn => "WARN"
  | .error => "ERROR"

/-- The number by which levels are compared. -/
def rank : Level → Int
  | .debug => -4
  | .info => 0
  | .warn => 4
  | .error => 8

end Level

/-- One log record. -/
structure LogRecord where
  level : Level
  message : Bytes
  attrs : List (Bytes × Value) := []
  deriving Repr

/-- What is known about the build while a record is written. Empty fields are unknown. -/
structure LogContext where
  buildId : Bytes := []
  stage : Bytes := []
  lang : Bytes := []
  deriving DecidableEq, Repr

namespace LogContext

/-- The attributes that a context adds: its non-empty fields. -/
def attrs (c : LogContext) : List (Bytes × Value) :=
  let field (key : Bytes) (s : Bytes) : List (Bytes × Value) :=
    if s.isEmpty then [] else [(key, .str s)]
  field "build_id" c.buildId ++ field "stage" c.stage ++ field "lang" c.lang

def record (c : LogContext) (level : Level) (message : Bytes) (attrs : List (Bytes × Value)) :
    LogRecord :=
  { level, message, attrs := c.attrs ++ attrs }

end LogContext

end Bindery
