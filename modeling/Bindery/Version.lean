import Bindery.Text.Basic

/-!
# The version of the program
-/

namespace Bindery

open Text (bytes)

/-- What is known of the program itself. -/
structure Version where
  version : Bytes := "unknown"
  commit : Bytes := "unknown"
  built : Bytes := "unknown"
  deriving DecidableEq, Repr

def Version.line (v : Version) : Bytes :=
  bytes "bookbuilder " ++ v.version ++ " (commit " ++ v.commit ++ ", built " ++ v.built ++ ")"

end Bindery
