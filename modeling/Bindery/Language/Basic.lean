import Bindery.Language.Locale
import Bindery.Path

/-!
# Languages of a book

A book can be built once per declared language. A pass for one of several languages prefers files
whose name carries the identifier of the language before the suffix.
-/

namespace Bindery

open Text (bytes)

/-- A declared language. -/
structure Descriptor where
  id : Bytes := []
  name : Bytes := []
  locale : Bytes := []
  deriving DecidableEq, Repr

namespace Descriptor

/-- The descriptor of an identifier. A blank name is replaced by the native one. -/
def ofId (id name : Bytes) : Descriptor :=
  let id := Text.trim id
  let name := Text.trim name
  { id, name := if name.isEmpty then Language.nativeName id else name, locale := Language.localeOf id }

end Descriptor

/-- The language of a pass, and how many languages the book has. -/
structure LanguageContext where
  active : Descriptor := {}
  configured : Int := 0
  deriving DecidableEq, Repr

namespace LanguageContext

/-- The identifier of the active language, empty for a pass without one. -/
def id (c : LanguageContext) : Bytes := c.active.id

/-- Whether files of the active language are looked for. -/
def isMultilingual (c : LanguageContext) : Bool := !c.id.isEmpty && c.configured > 1

end LanguageContext

/-- A path with an identifier put before the suffix of its file name: `dir/name.ext` becomes
`dir/name_id.ext`. A name that is all suffix has none. -/
def insertSuffix (path id : Bytes) : Bytes :=
  let (dir, file) := Path.split path
  let ext := Path.ext file
  let ext := if ext == file then [] else ext
  dir ++ Text.withoutEnd ext file ++ "_" ++ id ++ ext

/-- The path of the file of the active language, if such files are looked for. -/
def LanguageContext.localize? (c : LanguageContext) (path : Bytes) : Option Bytes :=
  if c.isMultilingual then some (insertSuffix path c.id) else none

end Bindery
