import Bindery.Text.Utf8

/-!
# Paths

Slash-separated paths as texts. Cleaning is lexical: it drops empty and `.` components and resolves
`..` against the component before it.
-/

namespace Bindery.Path

open Text

/-- Whether a path starts at the root of the file system. -/
def isAbsolute (p : Bytes) : Bool := p.head? == some '/'

/-- Adds a component to a cleaned path, kept backwards. Above the start of a relative path `..` is
kept; above the root it is dropped. -/
def pushComponent (rooted : Bool) (done : List Bytes) (component : Bytes) : List Bytes :=
  if component.isEmpty || component == bytes "." then done
  else if component == bytes ".." then
    match done with
    | [] => if rooted then [] else [component]
    | last :: before => if last == bytes ".." then component :: done else before
  else component :: done

def cleanComponents (p : Bytes) : List Bytes :=
  ((splitOn 47 p).foldl (pushComponent (isAbsolute p)) []).reverse

/-- The shortest path that means the same lexically; the empty path is `.`. -/
def clean (p : Bytes) : Bytes :=
  let body := joinWith [47] (cleanComponents p)
  if isAbsolute p then 47 :: body
  else if body.isEmpty then [46]
  else body

/-- Joins paths with slashes, skipping empty ones, and cleans the result. -/
def join (parts : List Bytes) : Bytes :=
  let parts := parts.filter (!·.isEmpty)
  if parts.isEmpty then [] else clean (joinWith [47] parts)

/-- The text up to and including the last slash, and the text after it. -/
def split (p : Bytes) : Bytes × Bytes :=
  let file := (p.reverse.takeWhile (· != 47)).reverse
  (p.take (p.length - file.length), file)

def dir (p : Bytes) : Bytes := clean (split p).1

/-- The last component of a path. -/
def base (p : Bytes) : Bytes :=
  if p.isEmpty then [46]
  else
    let p := trimEnd (· == 47) p
    let file := (split p).2
    if file.isEmpty then [47] else file

/-- The suffix of the last component from its last dot on, empty without a dot. -/
def ext (p : Bytes) : Bytes :=
  let tail := (p.reverse.takeWhile fun c => c != 46 && c != 47).reverse
  match p.reverse.drop tail.length with
  | 46 :: _ => 46 :: tail
  | _ => []

/-- The last component without its suffix. -/
def stem (p : Bytes) : Bytes :=
  let name := base p
  withoutEnd (ext name) name

def absolute (directory p : Bytes) : Bytes :=
  if isAbsolute p then clean p else join [directory, p]

/-- The common components of two lists dropped: what is left of each. -/
def dropShared : List Bytes → List Bytes → List Bytes × List Bytes
  | a :: as, b :: bs => if a == b then dropShared as bs else (a :: as, b :: bs)
  | as, bs => (as, bs)

/-- The path from `start` to `target`. It does not exist when one is absolute and the other is not,
or when it would have to leave an unknown directory. -/
def relative? (start target : Bytes) : Option Bytes :=
  let start := clean start
  let target := clean target
  if start == target then some [46]
  else
    let start := if start == [46] then [] else start
    if isAbsolute start != isAbsolute target then none
    else
      let parts (p : Bytes) : List Bytes := (splitOn 47 p).filter (!·.isEmpty)
      let (up, down) := dropShared (parts start) (parts target)
      -- The directory that `..` leads out of has no known name, so that nothing leads back into it.
      if up.head? == some (bytes "..") && !down.isEmpty then none
      else
        let path := List.replicate up.length (bytes "..") ++ down
        some (joinWith [47] path)

/-- Whether a path lies in a directory or is that directory. -/
def contains (directory p : Bytes) : Bool :=
  match relative? directory p with
  | none => false
  | some rel => rel != bytes ".." && !startsWith (bytes "../") rel

end Bindery.Path
