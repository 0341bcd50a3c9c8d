import Bindery.Moment
import Bindery.Path
import Bindery.Repository.Address

/-!
# Snapshots

A snapshot is a repository checked out at a commit.
-/

namespace Bindery

/-- A repository checked out at a commit. -/
structure Snapshot where
  root : Bytes := []
  url : Bytes := []
  commit : Bytes := []
  date : Moment := .zero
  deriving DecidableEq, Repr

namespace Snapshot

/-- The first eight bytes of the commit. -/
def shortCommit (s : Snapshot) : Bytes := s.commit.take 8

def webPage (s : Snapshot) : Bytes := Repository.webPage s.url

/-- Owner and name. -/
def name (s : Snapshot) : Bytes := Repository.shortName s.url

/-- The link to a file, given by an absolute path or by one relative to the root. There is none for a
file outside, or when address or commit are not known. -/
def fileLink? (s : Snapshot) (path : Bytes) : Option Bytes :=
  if s.url.isEmpty || s.commit.isEmpty then none
  else if Path.isAbsolute path then
    if Path.contains s.root path then
      (Path.relative? s.root path).map (Repository.fileLink s.url s.commit)
    else none
  else some (Repository.fileLink s.url s.commit path)

end Snapshot

end Bindery
