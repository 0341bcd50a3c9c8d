import Bindery.Text.Utf8

/-!
# Environment variables

The variables that a configuration may refer to as `$NAME` or `${NAME}`.
-/

namespace Bindery

open Text (bytes)

/-- Names and values of environment variables. -/
abbrev Environment := List (Bytes × Bytes)

namespace Environment

/-- The value of a variable; an unset one is empty. -/
def get (env : Environment) (name : Bytes) : Bytes := (env.lookup name).getD []

/-- Sets a variable unless it is set already or its name is empty. -/
def setDefault (env : Environment) (name value : Bytes) : Environment :=
  if name.isEmpty || name.contains 0 || value.contains 0 || (env.lookup name).isSome then env
  else env ++ [(name, value)]

/-- Whether a byte is a name by itself. -/
def isSpecial (c : UInt8) : Bool :=
  Text.isDigit c || [(42 : UInt8), 35, 36, 64, 33, 63, 45].contains c

/-- The name that stands after a dollar sign, and how many bytes it takes with its braces. An empty
name that takes bytes is malformed and dropped; one that takes none leaves the sign as it is. -/
def mention (s : Bytes) : Bytes × Nat :=
  match s with
  | 123 :: rest =>
    match rest with
    | c :: 125 :: _ => if c = 125 then ([], 2) else ([c], 3)
    | _ =>
      match Text.cutByte? 125 rest with
      | some ([], _) => ([], 2)
      | some (name, _) => (name, name.length + 2)
      | none => ([], 1)
  | c :: _ =>
    if isSpecial c then ([c], 1)
    else
      let name := s.takeWhile Text.isWord
      (name, name.length)
  | [] => ([], 0)

/-- Replaces the variables in a text. `skip` counts the bytes of a name that was just replaced. -/
def expandAfter (env : Environment) : Nat → Bytes → Bytes
  | _, [] => []
  | skip + 1, _ :: rest => expandAfter env skip rest
  | 0, c :: rest =>
    if c = 36 ∧ rest ≠ [] then
      match mention rest with
      | ([], 0) => c :: expandAfter env 0 rest
      | ([], width) => expandAfter env width rest
      | (name, width) => env.get name ++ expandAfter env width rest
    else c :: expandAfter env 0 rest

def expand (env : Environment) (s : Bytes) : Bytes := expandAfter env 0 s

end Environment

end Bindery
