import Bindery.FileTree
import Bindery.Moment

/-!
# Workspaces

The directory in which repositories are checked out. A persistent workspace has a fixed place and is
kept; any other is a new directory each time, and is removed afterwards.
-/

namespace Bindery

open Text (bytes)

/-- A workspace. Its directory is empty as long as none was made. -/
structure Workspace where
  base : Bytes
  dir : Bytes := []
  persistent : Bool := false
  deriving DecidableEq, Repr

namespace Workspace

/-- The directory for what no other directory is named for. -/
def temporaryDirectory : Bytes := "/tmp"

/-- The base of a workspace, with its default. -/
def baseOf (base : Bytes) : Bytes := if base.isEmpty then temporaryDirectory else base

/-- A workspace that is removed after use. -/
def ephemeral (base : Bytes) : Workspace := { base := baseOf base }

/-- A workspace that is kept. -/
def kept (base name : Bytes) : Workspace :=
  let base := baseOf base
  let name := if name.isEmpty then bytes "repositories" else name
  { base, dir := Path.join [base, name], persistent := true }

/-- The path of the n-th directory with a stamp. -/
def candidate (base stamp : Bytes) (n : Nat) : Bytes :=
  Path.join [base, bytes "bookbuilder-" ++ stamp ++ "-" ++ Text.ofNat n]

/-- A path of a new directory with a stamp in its name. -/
def freshPath (tree : FileTree) (base stamp : Bytes) : Bytes :=
  let taken (n : Nat) : Bool := tree.exists? (candidate base stamp n)
  candidate base stamp
    (((List.range (tree.entries.length + 1)).find? fun n => !taken n).getD tree.entries.length)

/-- Makes the directory of a workspace. -/
def create (w : Workspace) (stamp : Bytes) (tree : FileTree) : Except Fault (Workspace × FileTree) :=
  let refused (message path : Bytes) (cause : Fault) : Fault :=
    .raiseFrom cause .fileSystem message [("path", .str path)]
  if w.persistent then do
    let tree ← (tree.makeDirectory w.dir).mapError
      (refused "failed to create persistent workspace" w.dir)
    .ok (w, tree)
  else do
    let tree ← (tree.makeDirectory w.base).mapError (refused "failed to create workspace base" w.base)
    let dir := freshPath tree w.base stamp
    let tree ← (tree.makeDirectory dir).mapError (refused "failed to create workspace" w.base)
    .ok ({ w with dir }, tree)

/-- Removes the directory of a workspace that is not kept. -/
def cleanup (w : Workspace) (tree : FileTree) : Except Fault (Workspace × FileTree) :=
  if w.dir.isEmpty || w.persistent then .ok (w, tree)
  else
    match tree.removeAll w.dir with
    | .ok tree => .ok ({ w with dir := [] }, tree)
    | .error cause =>
      .error (.raiseFrom cause .fileSystem "failed to clean up workspace" [("path", .str w.dir)])

end Workspace

end Bindery
