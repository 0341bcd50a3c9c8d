import Bindery.Fault.Basic
import Bindery.Path

/-!
# File trees

The files that the library reads and writes: a finite set of paths, each a directory or a file with
its content. A path is the list of its components from the root, so that a directory's content is what
has its path as a beginning.
-/

namespace Bindery

/-- A node of a file tree. -/
inductive FileEntry where
  | directory
  | file (content : Bytes)
  deriving DecidableEq, Repr

/-- The files and directories below the root, and the directory that relative paths start from. -/
structure FileTree where
  entries : List (List Bytes × FileEntry) := []
  cwd : Bytes := [47]
  deriving Repr

namespace FileTree

def components (t : FileTree) (path : Bytes) : List Bytes :=
  Path.cleanComponents (Path.absolute t.cwd path)

def find? (t : FileTree) (at' : List Bytes) : Option FileEntry :=
  if at'.isEmpty then some .directory else t.entries.lookup at'

/-- Walks down from a directory. Only directories can be passed through. -/
def descend (t : FileTree) (here : List Bytes) : List Bytes → Except Fault FileEntry
  | [] =>
    match t.find? here with
    | some e => .ok e
    | none => .error .missingFile
  | c :: rest =>
    match t.find? here with
    | some .directory => t.descend (here ++ [c]) rest
    | some (.file _) => .error .fileSystem
    | none => .error .missingFile

/-- What stands at a path. A NUL byte stands in no path. -/
def stat (t : FileTree) (path : Bytes) : Except Fault FileEntry :=
  if path.contains 0 then .error .fileSystem else t.descend [] (t.components path)

/-- The content of a file. -/
def read (t : FileTree) (path : Bytes) : Except Fault Bytes := do
  match ← t.stat path with
  | .file content => .ok content
  | .directory => .error .fileSystem

/-- Whether a way through the tree passes directories only, up to something that is there. The place that
it starts from is kept backwards. -/
def passes (t : FileTree) (done : List Bytes) : List Bytes → Bool
  | [] => (t.find? done.reverse).isSome
  | c :: rest =>
    t.find? done.reverse == some .directory && t.passes (Path.pushComponent true done c) rest

/-- Whether a path names a file. The path is gone as it is written: whatever `..` leads back out of has
to be a directory. -/
def isFile (t : FileTree) (path : Bytes) : Bool :=
  let way := if Path.isAbsolute path then path else t.cwd ++ 47 :: path
  match t.stat path with
  | .ok (.file _) => t.passes [] (Text.splitOn 47 way)
  | _ => false

/-- Whether a path names a directory. -/
def isDirectory (t : FileTree) (path : Bytes) : Bool :=
  match t.stat path with
  | .ok .directory => true
  | _ => false

def exists? (t : FileTree) (path : Bytes) : Bool := (t.stat path).toOption.isSome

def put (t : FileTree) (at' : List Bytes) (e : FileEntry) : FileTree :=
  { t with entries := (at', e) :: t.entries.filter (·.1 != at') }

/-- Writes a file into an existing directory. -/
def write (t : FileTree) (path content : Bytes) : Except Fault FileTree :=
  let parts := t.components path
  if path.contains 0 then .error .fileSystem
  else
    match t.descend [] parts.dropLast with
    | .error f => .error f
    | .ok (.file _) => .error .fileSystem
    | .ok .directory =>
      match t.find? parts with
      | some .directory => .error .fileSystem
      | _ => .ok (t.put parts (.file content))

/-- Makes a directory inside another with all those in between. -/
def makeFrom (t : FileTree) (here : List Bytes) : List Bytes → Except Fault FileTree
  | [] => .ok t
  | c :: rest =>
    let next := here ++ [c]
    match t.find? next with
    | some .directory => t.makeFrom next rest
    | some (.file _) => .error .fileSystem
    | none => (t.put next .directory).makeFrom next rest

/-- Makes a directory and those it lies in. -/
def makeDirectory (t : FileTree) (path : Bytes) : Except Fault FileTree :=
  if path.contains 0 then .error .fileSystem else t.makeFrom [] (t.components path)

/-- Removes a path and everything below it. -/
def remove (t : FileTree) (path : Bytes) : FileTree :=
  let parts := t.components path
  { t with entries := t.entries.filter fun e => !parts.isPrefixOf e.1 }

/-- Removes what stands at a path, if anything does. A path that leads through a file cannot be
removed. -/
def removeAll (t : FileTree) (path : Bytes) : Except Fault FileTree :=
  match t.stat path with
  | .ok _ | .error .missingFile => .ok (t.remove path)
  | .error f => .error f

/-- The names in a directory, in order. -/
def names (t : FileTree) (path : Bytes) : List Bytes :=
  let parts := t.components path
  Text.sort <| t.entries.filterMap fun (p, _) =>
    if parts.isPrefixOf p && p.length = parts.length + 1 then p.getLast? else none

/-- Everything below a directory, with paths relative to it, in the order of the paths' components:
a directory comes before what it holds. -/
def below (t : FileTree) (path : Bytes) : List (List Bytes × FileEntry) :=
  let parts := t.components path
  let found := t.entries.filterMap fun (p, e) =>
    if parts.isPrefixOf p && p.length > parts.length then some (p.drop parts.length, e) else none
  found.mergeSort fun a b => a.1 ≤ b.1

/-! ## Reading finds an entry -/

theorem find?_of_descend {t : FileTree} {here rest : List Bytes} {e : FileEntry}
    (h : t.descend here rest = .ok e) : t.find? (here ++ rest) = some e := by
  induction rest generalizing here with
  | nil =>
    rw [descend] at h
    split at h <;> simp_all
  | cons c rest ih =>
    rw [descend] at h
    split at h
    · simpa using ih h
    · cases h
    · cases h

/-- A file that can be read is one of the entries. -/
theorem mem_of_read {t : FileTree} {path text : Bytes} (h : t.read path = .ok text) :
    (t.components path, FileEntry.file text) ∈ t.entries := by
  unfold read stat at h
  split at h
  · simp [bind, Except.bind] at h
  · cases hd : t.descend [] (t.components path) with
    | error f => simp [hd, bind, Except.bind] at h
    | ok e =>
      have hf := find?_of_descend hd
      cases e with
      | directory => simp [hd, bind, Except.bind] at h
      | file content =>
        simp only [hd, bind, Except.bind, Except.ok.injEq] at h
        subst h
        rw [List.nil_append, find?] at hf
        split at hf
        · cases hf
        · rw [List.lookup_eq_some_iff] at hf
          obtain ⟨before, after, he, -⟩ := hf
          simp [he]

def pathOf (parts : List Bytes) : Bytes := Text.joinWith [47] parts

end FileTree

end Bindery
