import Bindery.Duration
import Bindery.Fault.Basic
import Bindery.Text.Utf8

/-!
# Violations

What is wrong with the settings of a configuration. All violations are reported together.
-/

namespace Bindery

open Text (bytes)

/-- A setting that breaks a rule. -/
structure Violation where
  field : Bytes
  /-- The rule. -/
  code : Bytes
  message : Bytes
  deriving DecidableEq, Repr

namespace Violation

/-- The text of a violation, with the field if there is one. -/
def text (v : Violation) : Bytes :=
  if v.field.isEmpty then v.message else bytes "field '" ++ v.field ++ "': " ++ v.message

def required (field value message : Bytes) : List Violation :=
  if (Text.trim value).isEmpty then [{ field, code := "required", message }] else []

/-- A value must be one of those allowed. -/
def oneOf (field : Bytes) (allowed : List Bytes) (value : Bytes) : List Violation :=
  if allowed.contains value then []
  else
    [{ field, code := "one_of"
       message := bytes "must be one of [" ++ Text.joinWith " " allowed ++ "]" }]

/-- A value must be a duration above zero: the duration, which is zero when the rule is broken. -/
def positiveDuration (field value : Bytes) : Int64 × List Violation :=
  match Duration.parse? value with
  | some d =>
    if d > 0 then (d, [])
    else (0, [{ field, code := "duration", message := "must be a positive duration" }])
  | none => (0, [{ field, code := "duration", message := "must be a positive duration" }])

/-- The fault that reports violations, if there are any. -/
def toFault? (violations : List Violation) : Option Fault :=
  if violations.isEmpty then none
  else
    some (.raise .validation (Text.joinWith "; " (violations.map text))
      [("fields", .str (Text.joinWith "," (violations.map field)))])

end Violation

end Bindery
