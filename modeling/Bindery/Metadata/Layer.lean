import Bindery.Value

/-!
# Layers of metadata

A layer is what one metadata block declares, or what several declare together. Blocks are merged so
that the first value written for a key wins; nested maps are merged entry by entry.
-/

namespace Bindery

/-- The entries of a metadata layer. -/
abbrev Layer := List (Bytes × Value)

namespace Value

/-- What a path of keys leads to, descending through nested maps. -/
def at? : Value → List Bytes → Option Value
  | v, [] => some v
  | .map entries, key :: path =>
    match entries.lookup key with
    | some v => at? v path
    | none => none
  | _, _ :: _ => none
termination_by _ path => path.length

mutual

/-- The value of a key that two blocks give, the first one first: two maps are joined, and of
anything else the first is kept. -/
def merge : Value → Value → Value
  | .map own, .map other => .map (mergeEntries own other ++ other.filter fun e => !own.any (·.1 == e.1))
  | own, _ => own
termination_by structural v => v

/-- The entries of the first map, joined with those of the second under the same keys. -/
def mergeEntries : List (Bytes × Value) → List (Bytes × Value) → List (Bytes × Value)
  | [], _ => []
  | (key, own) :: rest, other =>
    (key, match other.lookup key with
      | some v => merge own v
      | none => own) :: mergeEntries rest other
termination_by structural es => es

end

end Value

namespace Layer

/-- Adds the entries of another layer that are not set yet. -/
def merge (own other : Layer) : Layer :=
  Value.mergeEntries own other ++ other.filter fun e => !own.any (·.1 == e.1)

/-- What a key names: the entry with that very key, or else what the parts between its dots lead
to. -/
def get? (layer : Layer) (key : Bytes) : Option Value :=
  match layer.lookup key with
  | some v => some v
  | none => (Value.map layer).at? (Text.splitOn 46 key)

end Layer

end Bindery
