import Bindery.FileTree
import Bindery.Language.Basic

/-!
# Resolving paths

Directives name files relative to the file they stand in. A resolver turns such a name into the path of
a file inside the root of the book, and prefers the variant for the language of the pass.
-/

namespace Bindery

open Text (bytes)

/-- The root inside which paths are resolved, absolute and cleaned. -/
structure Resolver where
  root : Bytes
  deriving DecidableEq, Repr

namespace Resolver

/-- Why a path is not resolved. -/
inductive Refusal where
  | noDirectory (path : Bytes) (cause : Option Fault)
  | emptyInDirectory (directory : Bytes)
  | emptyInRoot (root : Bytes)
  | escapesProject (path root : Bytes)
  | escapesRepository (path root : Bytes)
  | noFile (path : Bytes)
  | noVariant (path localized : Bytes)
  | outside (path : Bytes)

/-- The fault of a refusal. -/
def Refusal.toFault : Refusal → Fault
  | .noDirectory path cause =>
    .classified (.standard .path "project root is not a directory" [("path", .str path)]) cause
  | .emptyInDirectory directory => .raise .path "empty path" [("dir", .str directory)]
  | .emptyInRoot root => .raise .path "empty path" [("root", .str root)]
  | .escapesProject path root =>
    .raise .path "path escapes project root" [("path", .str path), ("root", .str root)]
  | .escapesRepository path root =>
    .raise .path "path escapes repository root" [("path", .str path), ("root", .str root)]
  | .noFile path => .raise .path "file does not exist" [("path", .str path)]
  | .noVariant path localized =>
    .raise .path "neither language-specific nor plain file exists"
      [("path", .str path), ("localized", .str localized)]
  | .outside path => .raise .path "path is outside project root" [("path", .str path)]

/-- The resolver of a root directory. -/
def ofRoot (tree : FileTree) (root : Bytes) : Except Refusal Resolver :=
  let path := Path.absolute tree.cwd root
  match tree.stat path with
  | .ok .directory => .ok { root := path }
  | .ok (.file _) => .error (.noDirectory path none)
  | .error cause => .error (.noDirectory path (some cause))

/-- A path seen from a directory. -/
def joined (directory path : Bytes) : Bytes :=
  if Path.isAbsolute path then Path.clean path else Path.clean (Path.join [directory, path])

/-- The file that a name in a directory means. -/
def resolve (r : Resolver) (tree : FileTree) (directory name : Bytes) (lang : LanguageContext) :
    Except Refusal Bytes :=
  let name := Text.trim name
  if name.isEmpty then .error (.emptyInDirectory directory)
  else
    let plain := joined directory name
    if !Path.contains r.root plain then .error (.escapesProject name r.root)
    else
      match lang.localize? plain with
      | some localized =>
        if !Path.contains r.root localized then .error (.escapesProject localized r.root)
        else if tree.isFile localized then .ok localized
        else if tree.isFile plain then .ok plain
        else .error (.noVariant plain localized)
      | none => if tree.isFile plain then .ok plain else .error (.noFile plain)

/-- The file that a name means inside a root, without regard to languages. -/
def resolveInside (tree : FileTree) (root name : Bytes) : Except Refusal Bytes :=
  let name := Text.trim name
  if name.isEmpty then .error (.emptyInRoot root)
  else
    let path := joined root name
    if !Path.contains root path then .error (.escapesRepository name root)
    else if tree.isFile path then .ok path
    else .error (.noFile path)

/-- A path relative to the root. -/
def relative (r : Resolver) (path : Bytes) : Except Refusal Bytes :=
  match Path.relative? r.root path with
  | some rel => if Path.contains r.root path then .ok rel else .error (.outside path)
  | none => .error (.outside path)

end Resolver

end Bindery
