import Bindery.Expansion.Script
import Bindery.Expansion.Tree
import Bindery.Label
import Bindery.Resolver

/-!
# Passes

A pass expands a book for one language. What it is given does not change while it runs; what it
gathers are labels, resources, references still to be resolved, and the documents it includes.
-/

namespace Bindery.Expansion

open Text (bytes)

/-- What is known of the checkout that holds the book. -/
inductive Checkout where
  | absent
  | found (snapshot : Snapshot)
  /-- There is a checkout, but its state cannot be read. -/
  | unreadable

/-- What looking for a checkout found. -/
def Checkout.ofSearch : Except Fault (Option Snapshot) → Checkout
  | .ok none => .absent
  | .ok (some snapshot) => .found snapshot
  | .error _ => .unreadable

/-- What a pass is given. -/
structure Setting where
  tree : FileTree
  resolver : Resolver
  lang : LanguageContext := {}
  now : Moment := .zero
  checkout : Checkout := .absent
  /-- Whether repositories can be asked for. -/
  repositories : Bool := true
  cancelled : Bool := false

/-- A file that goes next to the document. -/
structure Resource where
  source : Bytes
  target : Bytes
  decompress : Bool
  deriving DecidableEq, Repr

/-- A reference to a definition that may not be known yet. -/
structure Pending where
  label : Bytes
  file : Bytes
  line : Nat
  deriving DecidableEq, Repr

/-- What a pass has gathered. -/
structure Draft where
  registry : Label.Registry := {}
  resources : List Resource := []
  pending : List Pending := []
  /-- The inclusions of the document that is being expanded. -/
  children : List Node := []
  /-- Whether the checkout was looked at. -/
  inspected : Bool := false

/-- A step of a pass. -/
abbrev Pass := StateT Draft (ExceptT Fault Script)

namespace Pass

def ask (r : Request) : Pass r.Answer := fun draft =>
  ExceptT.mk (.ask r fun answer => .done (.ok (answer, draft)))

def note (event : Event) : Pass Unit := ask (.note event)

/-- Changes the fault that a step fails with. -/
def mapFault {α : Type} (f : Fault → Fault) (step : Pass α) : Pass α := fun draft =>
  ExceptT.mk ((step draft).run.bind fun result => .done (result.mapError f))

/-- Goes on with a result, or fails. -/
def require {α : Type} (result : Except Fault α) : Pass α :=
  match result with
  | .ok a => pure a
  | .error fault => throw fault

end Pass

namespace Setting

/-- A path as it is shown: relative to the root of the book if it lies inside. -/
def display (s : Setting) (path : Bytes) : Bytes := (s.resolver.relative path).toOption.getD path

/-- The checkout that holds the book, if it can be read. The first look at one that cannot is
logged. -/
def projectCheckout (s : Setting) : Pass (Option Snapshot) := do
  match s.checkout with
  | .absent => pure none
  | .found snapshot => pure (some snapshot)
  | .unreadable =>
    if !(← get).inspected then
      modify fun d => { d with inspected := true }
      Pass.ask (.log
        { level := .warn, message := "Cannot inspect project checkout"
          attrs := [("path", .str s.resolver.root)] })
    pure none

/-- Notes on a fault where it arose, unless a place closer to it is known. -/
def annotate (s : Setting) (fault : Fault) (file name : Bytes) (line : Nat) : Fault :=
  let fault := fault.classifiedPart?.getD (.passOn fault .internal "directive failed")
  ((fault.withDefault "file" (.str (s.display file))).withDefault "line" (.int line)).withDefault
    "directive" (.str name)

end Setting

end Bindery.Expansion
