import Bindery.Value

/-!
# Metadata values as records

Languages and repositories are declared as lists of small maps whose fields are texts. A field may be
written as any scalar, and its text counts.
-/

namespace Bindery.Value

open Text (bytes)

/-- The text of a scalar as it is written in a block. -/
def scalarText? : Value → Option Bytes
  | .null => some []
  | .bool b => some (if b then "true" else "false")
  | .int n => some (Text.ofInt n)
  | .float x => some <| match x with
    | .nan => bytes ".nan"
    | .infinite negative => if negative then bytes "-.inf" else bytes ".inf"
    | x => x.render
  | .str s => some s
  | .time t => some t.rfc3339Nano
  | .list _ | .map _ | .table _ => none

/-- The texts of named fields; a missing field is empty. -/
def fieldTexts? (names : List Bytes) (entries : List (Bytes × Value)) : Option (List Bytes) :=
  names.mapM fun name =>
    match entries.lookup name with
    | some v => v.scalarText?
    | none => some []

/-- The named fields of a record. The names of a map with other than string keys are their texts. -/
def record? (names : List Bytes) : Value → Option (List Bytes)
  | .map entries => fieldTexts? names entries
  | .table entries => do
    let named ← entries.mapM fun (k, v) => k.scalarText?.map fun name => (name, v)
    guard ((named.map (·.1)).eraseDups.length = named.length)
    fieldTexts? names named
  | _ => none

/-- The named fields of all records of a list. Missing records are dropped, and a missing list is
empty. -/
def records? (names : List Bytes) : Value → Option (List (List Bytes))
  | .null => some []
  | .list items => (items.filter fun | .null => false | _ => true).mapM (record? names)
  | _ => none

end Bindery.Value
