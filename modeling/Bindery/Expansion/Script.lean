import Bindery.Directive.Basic
import Bindery.Log
import Bindery.Metadata.Store
import Bindery.Repository.Cache

/-!
# What a pass asks of shared services

The passes of a build share the metadata store, the repository cache, the metrics and the log. A pass
is written as a script: it asks one request after the other and goes on with the answer. Run alone, it
is answered at once; in a concurrent build, requests of several passes are answered in any order.

A pass also notes what it does. Notes are for those who follow a pass; no service heeds them.
-/

namespace Bindery.Expansion

open Metadata (Store)
open Repository (Cache Fetcher)

/-- What a pass notes of its work. A chain lists the documents that are being expanded, the root
first. -/
inductive Event where
  /-- The last document of a chain includes the document at a path. -/
  | included (chain : List Bytes) (path : Bytes)
  /-- A document that a chain leads to was read, and its expansion begins. -/
  | opened (chain : List Bytes) (path text : Bytes)
  /-- The expansion of a document is complete. -/
  | closed (path : Bytes)
  /-- The source of a listing was read. -/
  | sourced (path text : Bytes)
  /-- A directive on a line of a document was reached, its arguments being expanded. -/
  | reached (path : Bytes) (line : Nat) (directive : Directive) (args : List Bytes)
  /-- A directive on a line of a document was done. -/
  | performed (path : Bytes) (line : Nat) (directive : Directive) (args : List Bytes)
      (output : Bytes)
  deriving DecidableEq, Repr

/-- A request of a pass. -/
inductive Request where
  /-- Adds a metadata block to the layer of the language of the pass. -/
  | merge (block : Layer)
  /-- The text of a metadata key. -/
  | text (key : Bytes)
  /-- The title of a type of definitions. -/
  | definitionTitle (type : Bytes)
  /-- The snapshot of a declared repository. -/
  | snapshot (mnemonic : Bytes)
  /-- Counts an event. -/
  | count (event : Metric)
  /-- Writes a log record. -/
  | log (record : LogRecord)
  /-- Notes what was done. -/
  | note (event : Event)

/-- The type of the answer to a request. -/
def Request.Answer : Request → Type
  | .merge _ => Unit
  | .text _ => Except Fault Bytes
  | .definitionTitle _ => Bytes
  | .snapshot _ => Except Fault Snapshot
  | .count _ => Unit
  | .log _ => Unit
  | .note _ => Unit

/-- A computation that asks requests on its way to a result. -/
inductive Script (α : Type) where
  | done (a : α)
  | ask (request : Request) (next : request.Answer → Script α)

namespace Script

def bind {α β : Type} : Script α → (α → Script β) → Script β
  | .done a, f => f a
  | .ask request next, f => .ask request fun answer => (next answer).bind f

instance : Monad Script where
  pure := .done
  bind := bind

end Script

/-- The services that the passes of a build share. -/
structure Services where
  store : Store := {}
  cache : Cache := {}
  metrics : List Metric := []
  log : List LogRecord := []

namespace Services

/-- Answers a request of the pass for a language. -/
def answer (fetch : Fetcher) (lang : Bytes) (s : Services) :
    (request : Request) → request.Answer × Services
  | .merge block => ((), { s with store := s.store.merge lang block })
  | .text key => (s.store.string lang key, s)
  | .definitionTitle type => (s.store.definitionTitle lang type, s)
  | .snapshot mnemonic =>
    let (result, cache) := s.cache.get fetch mnemonic lang
    (result, { s with cache })
  | .count event => ((), { s with metrics := s.metrics ++ [event] })
  | .log record => ((), { s with log := s.log ++ [record] })
  | .note _ => ((), s)

end Services

/-- Runs the script of a pass alone. -/
def Script.run {α : Type} (fetch : Fetcher) (lang : Bytes) : Script α → Services → α × Services
  | .done a, s => (a, s)
  | .ask request next, s =>
    let (answer, s) := s.answer fetch lang request
    (next answer).run fetch lang s

end Bindery.Expansion
