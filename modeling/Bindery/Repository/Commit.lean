import Bindery.Digest.Sha1
import Bindery.Moment
import Bindery.Text.Decimal

/-!
# Commits

A commit is recorded as a text, and its identifier is the digest of that text.
-/

namespace Bindery.Repository

open Text (bytes)

/-- The identifier of a tree without files. -/
def emptyTree : Bytes := "4b825dc642cb6eb9a060e54bf8d69288fbee4904"

/-- A commit without predecessors. -/
structure Commit where
  /-- The identifier of the tree of files. -/
  tree : Bytes := emptyTree
  author : Bytes
  date : Moment
  message : Bytes

namespace Commit

/-- The author with the date in seconds and the offset of the clock. -/
def signature (c : Commit) : Bytes :=
  c.author ++ " " ++ Text.ofInt c.date.seconds ++ " " ++ Moment.offsetText [] c.date.offset

def text (c : Commit) : Bytes :=
  bytes "tree " ++ c.tree ++ "\nauthor " ++ c.signature ++ "\ncommitter " ++ c.signature ++ "\n\n"
    ++ c.message

/-- The identifier of an object of some kind with a text. -/
def objectId (kind text : Bytes) : Bytes :=
  Sha1.hex (kind ++ bytes " " ++ Text.ofNat text.length ++ [0] ++ text)

def id (c : Commit) : Bytes := objectId "commit" c.text

/-- The date that the text of a commit gives, on the universal clock. -/
def dateOf? (text : Bytes) : Option Moment := do
  let header := (Text.lines text).takeWhile (!·.isEmpty)
  let line ← header.find? (Text.startsWith "committer ")
  let (_, stamp) ← Text.cutLastByte? 62 line
  let seconds ← ((Text.splitOn 32 stamp).filter (!·.isEmpty)).head?
  guard (seconds.all Text.isDigit)
  some { seconds := Double.digitsValue seconds, zoned := false }

end Commit

end Bindery.Repository
