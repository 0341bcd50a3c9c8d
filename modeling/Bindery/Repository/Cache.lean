import Bindery.Fault.Basic
import Bindery.Metric
import Bindery.Repository.Snapshot

/-!
# The repository cache

Each declared repository is fetched at most once per address in a build. A request first finds or makes
the entry of its mnemonic and address; whoever comes first fetches, and all share the outcome, a
failure too.
-/

namespace Bindery.Repository

open Text (bytes)

/-- A declared repository. Overrides replace the address for some languages. -/
structure Reference where
  mnemonic : Bytes
  url : Bytes
  overrides : List (Bytes × Bytes) := []
  deriving DecidableEq, Repr

/-- The address of a repository for a language. -/
def Reference.urlFor (r : Reference) (lang : Bytes) : Bytes :=
  match r.overrides.lookup lang with
  | some (c :: url) => c :: url
  | _ => r.url

/-- Gets a snapshot of the repository with a mnemonic from an address. -/
abbrev Fetcher := Bytes → Bytes → Except Fault Snapshot

/-- The place of one repository and address in the cache, with the outcome once it is known. -/
structure Slot where
  mnemonic : Bytes
  url : Bytes
  outcome : Option (Except Fault Snapshot) := none

def slotKey (mnemonic url : Bytes) : Bytes := mnemonic ++ [0] ++ url

/-- The cache of a build. -/
structure Cache where
  refs : List Reference := []
  slots : List (Bytes × Slot) := []
  /-- Every fetch, in order. -/
  fetches : List (Bytes × Bytes) := []
  metrics : List Metric := []

namespace Cache

/-- The declaration of a mnemonic; a later one counts. -/
def reference? (c : Cache) (mnemonic : Bytes) : Option Reference :=
  c.refs.reverse.find? (·.mnemonic == mnemonic)

/-- Finds or makes the slot of a request, and returns its key. -/
def enter (c : Cache) (mnemonic lang : Bytes) : Except Fault Bytes × Cache :=
  match c.reference? mnemonic with
  | none => (.error (.raise .repository "undeclared repository" [("repository", .str mnemonic)]), c)
  | some ref =>
    let url := ref.urlFor lang
    let key := slotKey mnemonic url
    match c.slots.lookup key with
    | some _ => (.ok key, c)
    | none => (.ok key, { c with slots := c.slots ++ [(key, { mnemonic, url })] })

/-- The fault of a failed fetch. -/
def fetchFault (mnemonic url : Bytes) (cause : Fault) : Fault :=
  .classified
    { category := .repository, severity := .fatal, retry := .never
      message := "cannot fetch repository"
      context := [("repository", .str mnemonic), ("url", .str url)] } (some cause)

/-- Counts a request that finds a snapshot. -/
def share (c : Cache) (mnemonic : Bytes) : Except Fault Snapshot → Cache
  | .ok _ => { c with metrics := c.metrics ++ [.cacheHit mnemonic] }
  | .error _ => c

/-- Keeps what fetching a repository for a slot has given. -/
def record (c : Cache) (key mnemonic url : Bytes) (fetched : Except Fault Snapshot) :
    Except Fault Snapshot × Cache :=
  let outcome := fetched.mapError (fetchFault mnemonic url)
  let slots := c.slots.map fun (k, s) =>
    if k == key then (k, { s with outcome := some outcome }) else (k, s)
  (outcome,
    { c with
      slots
      fetches := c.fetches ++ [(mnemonic, url)]
      metrics := c.metrics ++ [.fetch mnemonic fetched.toBool] })

/-- The outcome of a slot: what is known already, or what fetching gives now. -/
def settle (c : Cache) (fetch : Fetcher) (key : Bytes) : Except Fault Snapshot × Cache :=
  match c.slots.lookup key with
  | none => (.error .other, c)
  | some slot =>
    match slot.outcome with
    | some outcome => (outcome, c.share slot.mnemonic outcome)
    | none => c.record key slot.mnemonic slot.url (fetch slot.mnemonic slot.url)

/-- The snapshot of a repository for a language. -/
def get (c : Cache) (fetch : Fetcher) (mnemonic lang : Bytes) : Except Fault Snapshot × Cache :=
  match c.enter mnemonic lang with
  | (.error fault, c) => (.error fault, c)
  | (.ok key, c) => c.settle fetch key

/-- The repositories that were fetched, ordered by mnemonic and address. -/
def snapshots (c : Cache) : List (Bytes × Snapshot) :=
  let found := c.slots.filterMap fun (_, slot) =>
    match slot.outcome with
    | some (.ok s) =>
      if s.commit.isEmpty then none
      else some (slot.mnemonic, if s.url.isEmpty then { s with url := slot.url } else s)
    | _ => none
  found.mergeSort fun a b => if a.1 == b.1 then Text.le a.2.url b.2.url else Text.le a.1 b.1

end Cache

end Bindery.Repository
