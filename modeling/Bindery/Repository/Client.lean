import Bindery.Digest.Sha256
import Bindery.Repository.Attempt
import Bindery.Repository.Cache
import Bindery.Repository.Credentials

/-!
# Cloning repositories

A client clones repositories into directories of a workspace, one for each mnemonic and address. What
fails for reasons that may pass is tried again.
-/

namespace Bindery.Repository

open Text (bytes)

/-- What is asked of the version control program. -/
structure CloneOrder where
  url : Bytes
  /-- The directory to clone into. -/
  path : Bytes
  /-- How many commits of the history are wanted, none for all of them. -/
  depth : Option Nat
  login : Option Login

/-- Clones a repository. -/
abbrev Cloner := CloneOrder → Except Fault Snapshot

/-- A version control program: it clones, and then tells the commit that a clone stands at. -/
structure Program where
  clone : CloneOrder → Except Fault Unit
  head : CloneOrder → Except Fault Snapshot

/-- The cloner that runs a version control program. What cloning fails with is sorted by the words it
uses; a clone whose commit cannot be read is a fault of its own. -/
def Cloner.ofProgram (program : Program) : Cloner := fun order => do
  (program.clone order).mapError (cloneFault order.url)
  (program.head order).mapError fun f => classify f "head" order.url

/-- How repositories are cloned. -/
structure Client where
  /-- The directory that clones are put in. -/
  workspace : Bytes
  depth : Int := 0
  credentials : Option Credentials := none
  policy : Backoff
  clone : Cloner

/-- A byte that may stand in the name of a directory. -/
def isSafe (c : UInt8) : Bool := Text.isWord c || c == '.' || c == '-'

/-- A text with every run of other bytes replaced by one underscore. `gap` tells whether the byte
before was such a byte. -/
def safeName (gap : Bool) : Bytes → Bytes
  | [] => []
  | c :: rest =>
    if isSafe c then c :: safeName false rest
    else if gap then safeName true rest
    else 95 :: safeName true rest

namespace Client

def destination (c : Client) (mnemonic url : Bytes) : Bytes :=
  Path.join [c.workspace, safeName false mnemonic ++ "-" ++ (Sha256.hex url).take 8]

/-- How much history is wanted: one commit when nothing is said. -/
def wantedDepth (depth : Int) : Option Nat :=
  if depth == 0 then some 1 else if depth > 0 then some depth.toNat else none

/-- Clones once. -/
def cloneOnce (c : Client) (tree : FileTree) (path url : Bytes) : Except Fault Snapshot := do
  let _ ← (tree.removeAll path).mapError fun cause =>
    Fault.raiseFrom cause .fileSystem "failed to remove existing directory" [("path", .str path)]
  let login ← Credentials.login tree c.credentials
  (c.clone { url, path, depth := wantedDepth c.depth, login }).mapError fun f =>
    classify f "clone" url

/-- Fetches a repository, and tries again as the policy says. -/
def fetch (c : Client) (tree : FileTree) (cancelled : Bool) : Fetcher := fun mnemonic url =>
  let path := c.destination mnemonic url
  (withRetries c.policy "clone" url (fun _ => c.cloneOnce tree path url) fun _ => cancelled).result

end Client

end Bindery.Repository
