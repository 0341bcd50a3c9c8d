import Bindery.FileTree
import Bindery.Gzip
import Bindery.Repository.Commit
import Bindery.Repository.Snapshot

/-!
# Work trees

A directory lies in a work tree if it or one above it holds the records of version control. From these
follow the commit that is checked out, its date and the address of the repository.
-/

namespace Bindery.Repository.WorkTree

open Text (bytes)

/-- The name of the records. -/
def recordsName : Bytes := ".git"

/-- A directory and all those above it, the innermost first. -/
def enclosing (tree : FileTree) (dir : Bytes) : List Bytes :=
  let parts := tree.components dir
  (List.range (parts.length + 1)).reverse.map fun n => 47 :: FileTree.pathOf (parts.take n)

/-- The directory of the records of a work tree, which a file may name. -/
def recordsOf? (tree : FileTree) (root : Bytes) : Option Bytes :=
  let path := Path.join [root, recordsName]
  match tree.read path with
  | .error _ => some path
  | .ok text =>
    (Text.afterStart? "gitdir:" (Text.trim text)).map fun target =>
      let target := Text.trim target
      if Path.isAbsolute target then target else Path.join [root, target]

def file? (tree : FileTree) (records name : Bytes) : Option Bytes :=
  (tree.read (Path.join [records, name])).toOption

/-- The commit that a name stands for in the list of packed names. -/
def packed? (text name : Bytes) : Option Bytes :=
  (Text.lines text).findSome? fun line => do
    let (commit, found) ← Text.cutByte? 32 (Text.trim line)
    if found == name then some commit else none

/-- The commit that is checked out. -/
def head? (tree : FileTree) (records : Bytes) : Option Bytes := do
  let head := Text.trim (← file? tree records "HEAD")
  match Text.afterStart? "ref:" head with
  | none => some head
  | some name =>
    let name := Text.trim name
    match file? tree records name with
    | some commit => some (Text.trim commit)
    | none => packed? (← file? tree records "packed-refs") name

/-- The name of the file that holds an object. -/
def objectFile (id : Bytes) : Bytes := Path.join ["objects", id.take 2, id.drop 2]

/-- The text of an object: its file is deflated behind two bytes, and starts with its kind and
length. -/
def object? (tree : FileTree) (records id : Bytes) : Option Bytes := do
  let file ← file? tree records (objectFile id)
  let unpacked := Deflate.inflate (file.drop 2)
  let _ ← unpacked.rest
  let (_, text) ← Text.cutByte? 0 unpacked.output
  some text

/-- The value of a key in a section of the settings. -/
def setting? (text heading key : Bytes) : Option Bytes :=
  let lines := (Text.lines text).map Text.trim
  let inside := (lines.dropWhile (· != heading)).drop 1
  (inside.takeWhile fun l => !Text.startsWith "[" l).findSome? fun line => do
    let (name, value) ← Text.cutByte? 61 line
    if Text.trim name == key then some (Text.trim value) else none

/-- The address of the repository, empty when none is known. -/
def originUrl (tree : FileTree) (records : Bytes) : Bytes :=
  ((file? tree records "config").bind fun text => setting? text "[remote \"origin\"]" "url").getD []

/-- The work tree that holds a directory; none if there is none. Records that cannot be read are a
failure. -/
def detect (tree : FileTree) (dir : Bytes) : Except Fault (Option Snapshot) :=
  match (enclosing tree dir).find? fun d => tree.exists? (Path.join [d, recordsName]) with
  | none => .ok none
  | some root =>
    let unreadable : Fault := .raise .git "cannot read HEAD of checkout" [("path", .str root)]
    let found : Option Snapshot := do
      let records ← recordsOf? tree root
      let commit ← head? tree records
      let date ← Commit.dateOf? (← object? tree records commit)
      some { root, url := originUrl tree records, commit, date }
    match found with
    | some snapshot => .ok (some snapshot)
    | none => .error unreadable

end Bindery.Repository.WorkTree
