import Bindery.Fault.Basic
import Bindery.Text.Title

/-!
# Labels

Figures, listings, sections, equations, tables and definitions are numbered in the order in which
they are defined, separately for each kind. The registry of a pass keeps the entries in this order, a
counter for each kind, and indexes in which references are looked up.
-/

namespace Bindery

open Text (bytes)

namespace Label

/-- The titles of the kinds that are no definition types. -/
def builtinTitles : List (Bytes × Bytes) :=
  [("fig", "Figure"), ("lst", "Listing"), ("sec", "Section"), ("eq", "Equation"), ("tbl", "Table")]

/-- Whether a kind is no definition type. -/
def isBuiltin (kind : Bytes) : Bool := (builtinTitles.lookup kind).isSome

/-- Whether a byte may stand in a key or a kind. -/
def isKeyByte (c : UInt8) : Bool := Text.isWord c || c == '.' || c == ':' || c == '-'

def isKey (s : Bytes) : Bool := !s.isEmpty && s.all isKeyByte

/-- A numbered label. -/
structure Entry where
  kind : Bytes
  key : Bytes
  number : Nat
  lang : Bytes
  deriving DecidableEq, Repr

/-- The name under which a label can be linked to. All definition types share one name space. -/
def Entry.anchor (e : Entry) : Bytes :=
  (if isBuiltin e.kind then e.kind else bytes "def") ++ ":" ++ e.key

/-- A reference to a label: the entry and the title of its kind. -/
structure Reference where
  entry : Entry
  title : Bytes
  deriving DecidableEq, Repr

def Reference.link (r : Reference) : Bytes :=
  bytes "[" ++ r.title ++ " " ++ Text.ofNat r.entry.number ++ "](#" ++ r.entry.anchor ++ ")"

/-- Why a label cannot be defined or found. -/
inductive Refusal where
  | badKind (kind key : Bytes)
  | badKey (kind key : Bytes)
  | repeated (kind key : Bytes)
  | repeatedDefinition (kind key definedAs : Bytes)
  | undefinedLabel (kind key : Bytes)
  | undefinedDefinition (key : Bytes)
  deriving DecidableEq, Repr

/-- The fault of a refusal. -/
def Refusal.toFault : Refusal → Fault
  | .badKind kind key => .raise .label "invalid label kind" [("kind", .str kind), ("key", .str key)]
  | .badKey kind key => .raise .label "invalid label key" [("kind", .str kind), ("key", .str key)]
  | .repeated kind key => .raise .label "duplicate label" [("kind", .str kind), ("key", .str key)]
  | .repeatedDefinition kind key definedAs =>
    .raise .label "duplicate definition label"
      [("kind", .str kind), ("key", .str key), ("defined_as", .str definedAs)]
  | .undefinedLabel kind key =>
    .raise .label "undefined label" [("kind", .str kind), ("key", .str key)]
  | .undefinedDefinition key => .raise .label "undefined definition" [("key", .str key)]

theorem forall_lt_nil : ∀ row ∈ ([] : List (Bytes × Nat)), row.2 < ([] : List Entry).length :=
  fun _ hrow => absurd hrow List.not_mem_nil

/-- The labels of one language pass. A counter, an index and the titles are tables of which the first row
with a key counts. The indexes tell the place of an entry: one by kind and key, the other by the key of a
definition. -/
structure Registry where
  lang : Bytes := []
  counters : List (Bytes × Nat) := []
  entries : List Entry := []
  index : List (Bytes × Nat) := []
  definitionIndex : List (Bytes × Nat) := []
  titles : List (Bytes × Bytes) := []
  index_lt : ∀ row ∈ index, row.2 < entries.length := by exact Bindery.Label.forall_lt_nil
  definitionIndex_lt : ∀ row ∈ definitionIndex, row.2 < entries.length := by
    exact Bindery.Label.forall_lt_nil
  deriving Repr

/-- A kind and a key in one, for the index. -/
def indexKey (kind key : Bytes) : Bytes := kind ++ 0 :: key

namespace Registry

/-- Overrides the title of a kind; an empty title changes nothing. -/
def setTitle (r : Registry) (kind title : Bytes) : Registry :=
  if title.isEmpty then r else { r with titles := (kind, title) :: r.titles }

/-- The title of a kind: the one that was set, the built-in one, or the kind in title case. -/
def title (r : Registry) (kind : Bytes) : Bytes :=
  match r.titles.lookup kind with
  | some t => t
  | none => (builtinTitles.lookup kind).getD (Text.title kind)

def find? (r : Registry) (kind key : Bytes) : Option Entry :=
  (r.index.lookup (indexKey kind key)).bind fun place => r.entries[place]?

/-- The definition with a key, of whichever type. -/
def definition? (r : Registry) (key : Bytes) : Option Entry :=
  (r.definitionIndex.lookup key).bind fun place => r.entries[place]?

def count (r : Registry) (kind : Bytes) : Nat := (r.counters.lookup kind).getD 0

theorem forall_lt_cons {index : List (Bytes × Nat)} {n : Nat} (h : ∀ row ∈ index, row.2 < n)
    (k : Bytes) : ∀ row ∈ (k, n) :: index, row.2 < n + 1 := by
  intro row hrow
  rcases List.mem_cons.1 hrow with rfl | hrow
  · exact Nat.lt_succ_self n
  · exact Nat.lt_succ_of_lt (h row hrow)

/-- Adds a label as the last entry. -/
def add (r : Registry) (kind key : Bytes) : Registry :=
  let number := r.count kind + 1
  { r with
    counters := (kind, number) :: r.counters
    entries := r.entries ++ [{ kind, key, number, lang := r.lang }]
    index := (indexKey kind key, r.entries.length) :: r.index
    definitionIndex :=
      if isBuiltin kind then r.definitionIndex else (key, r.entries.length) :: r.definitionIndex
    index_lt := by
      rw [List.length_append, List.length_singleton]
      exact forall_lt_cons r.index_lt _
    definitionIndex_lt := by
      rw [List.length_append, List.length_singleton]
      split
      · exact fun row hrow => Nat.lt_succ_of_lt (r.definitionIndex_lt row hrow)
      · exact forall_lt_cons r.definitionIndex_lt key }

/-- Defines a key under a kind and numbers it. -/
def define (r : Registry) (kind key : Bytes) : Except Refusal (Nat × Registry) :=
  if !isKey kind then .error (.badKind kind key)
  else if !isKey key then .error (.badKey kind key)
  else if (r.find? kind key).isSome then .error (.repeated kind key)
  else
    match if isBuiltin kind then none else r.definition? key with
    | some e => .error (.repeatedDefinition kind key e.kind)
    | none => .ok (r.count kind + 1, r.add kind key)

/-- Finds a label by kind and key. -/
def reference (r : Registry) (kind key : Bytes) : Except Refusal Reference :=
  match r.find? kind key with
  | none => .error (.undefinedLabel kind key)
  | some entry => .ok { entry, title := r.title entry.kind }

/-- Finds a definition by its key. -/
def lookup (r : Registry) (key : Bytes) : Except Refusal Reference :=
  match r.definition? key with
  | none => .error (.undefinedDefinition key)
  | some entry => .ok { entry, title := r.title entry.kind }

/-- The labels of each kind with their numbers, in the order of their first definition. -/
def table (r : Registry) : List (Bytes × List (Bytes × Nat)) :=
  (r.entries.map (·.kind)).eraseDups.map fun kind =>
    (kind, (r.entries.filter (·.kind == kind)).map fun e => (e.key, e.number))

end Registry

/-! ## Attributes in the text -/

/-- The kinds whose attributes are read from the text. -/
def nativeKinds : List Bytes := ["sec", "eq", "tbl"]

/-- Reads `#kind:key … }` after an opening brace: the kind, the key, and how many bytes it takes. -/
def attribute? (s : Bytes) : Option (Bytes × Bytes × Nat) := do
  let rest ← Text.afterStart? "#" s
  let (kind, rest) ← nativeKinds.findSome? fun kind =>
    (Text.afterStart? (kind ++ ":") rest).map fun rest => (kind, rest)
  let key := rest.takeWhile isKeyByte
  guard (!key.isEmpty)
  let (_, after) ← Text.cutByte? '}' (rest.drop key.length)
  some (kind, key, s.length - after.length)

/-- The section, equation and table attributes of a text, in order. -/
def attributes : Bytes → List (Bytes × Bytes)
  | [] => []
  | c :: rest =>
    if c = '{' then
      match attribute? rest with
      | some (kind, key, n) => (kind, key) :: attributes (rest.drop n)
      | none => attributes rest
    else attributes rest
termination_by s => s.length
decreasing_by all_goals simp only [List.length_drop, List.length_cons]; omega

namespace Registry

/-- Defines labels one after the other, up to the first that is refused. The registry is returned in
either case. -/
def defineAll (r : Registry) : List (Bytes × Bytes) → Option Refusal × Registry
  | [] => (none, r)
  | (kind, key) :: rest =>
    match r.define kind key with
    | .error refusal => (some refusal, r)
    | .ok (_, r) => defineAll r rest

/-- Defines the section, equation and table attributes of a text. -/
def scanNative (r : Registry) (text : Bytes) : Option Refusal × Registry :=
  r.defineAll (attributes text)

end Registry

end Label

end Bindery
