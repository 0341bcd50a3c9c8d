import Bindery.Path

/-!
# Watching a book

While a book is watched, a change below its root leads to another build, once there was quiet for a
while. Files that editors leave behind and excluded directories do not count.
-/

namespace Bindery

open Text (bytes)

/-- What is watched. -/
structure Watch where
  root : Bytes
  /-- Directories that are not watched. -/
  exclude : List Bytes := []
  /-- How long it must be quiet before a build, in nanoseconds. -/
  debounce : Int := 300000000
  deriving DecidableEq, Repr

namespace Watch

/-- Watches a root; relative paths start from a directory. -/
def ofRoot (cwd root : Bytes) (exclude : List Bytes) : Watch :=
  { root := Path.absolute cwd root
    exclude := (exclude.filter (!·.isEmpty)).map (Path.absolute cwd) }

/-- Sets the time of quiet, if it is a time at all. -/
def withDebounce (w : Watch) (d : Int) : Watch := if d > 0 then { w with debounce := d } else w

def isExcluded (w : Watch) (path : Bytes) : Bool := w.exclude.any fun e => Path.contains e path

/-- Whether a file is hidden, or one that editors and file managers leave behind. -/
def isIgnored (path : Bytes) : Bool :=
  let name := Path.base path
  Text.startsWith "." name || Text.endsWith "~" name || Text.endsWith ".swp" name
    || Text.endsWith ".swx" name || (Text.startsWith "#" name && Text.endsWith "#" name)
    || name == bytes "Thumbs.db"

end Watch

end Bindery
