import Bindery.Moment

/-!
# Metadata values

Metadata blocks hold scalars, lists and maps. Maps are lists of entries; a map whose keys are all
strings is kept apart from one with other keys, because only the former can be descended into and
merged.
-/

namespace Bindery

open Text (bytes)

/-- A value of a metadata block. -/
inductive Value where
  | null
  | bool (b : Bool)
  | int (n : Int)
  | float (x : Double)
  | str (s : Bytes)
  | time (t : Moment)
  | list (items : List Value)
  | map (entries : List (Bytes × Value))
  | table (entries : List (Value × Value))
  deriving BEq, Repr

instance : Inhabited Value := ⟨.null⟩

instance : Coe Bytes Value := ⟨.str⟩

instance : Coe Nat Value := ⟨fun n => .int n⟩

namespace Value

/-! ## Plain text

The text that messages show for a value: lists in brackets, maps as sorted `key:value` pairs. -/

/-- A map inside a message, its entries ordered by the text of the key. -/
def plainMap (entries : List (Bytes × Bytes)) : Bytes :=
  let sorted := entries.mergeSort fun a b => Text.le a.1 b.1
  bytes "map[" ++ Text.joinWith " " (sorted.map fun (k, v) => k ++ ":" ++ v) ++ "]"

mutual

/-- The text of a value inside a message. -/
def plain : Value → Bytes
  | .null => "<nil>"
  | .bool b => if b then "true" else "false"
  | .int n => Text.ofInt n
  | .float x => x.render
  | .str s => s
  | .time t => t.plainText
  | .list items => bytes "[" ++ Text.joinWith " " (plainItems items) ++ "]"
  | .map entries => plainMap (plainEntries entries)
  | .table entries => plainMap (plainPairs entries)
termination_by structural v => v

/-- The texts of the items of a list. -/
def plainItems : List Value → List Bytes
  | [] => []
  | v :: vs => plain v :: plainItems vs
termination_by structural vs => vs

/-- The key and value texts of the entries of a map with string keys. -/
def plainEntries : List (Bytes × Value) → List (Bytes × Bytes)
  | [] => []
  | (k, v) :: rest => (k, plain v) :: plainEntries rest
termination_by structural vs => vs

/-- The key and value texts of the entries of a map with other keys. -/
def plainPairs : List (Value × Value) → List (Bytes × Bytes)
  | [] => []
  | (k, v) :: rest => (plain k, plain v) :: plainPairs rest
termination_by structural vs => vs

end

/-! ## Document text -/

mutual

/-- The text that a document shows for a value: scalars, and lists of such with commas between. A
map has no such text. -/
def format? : Value → Option Bytes
  | .null => some []
  | .str s => some s
  | .time t => some t.dateText
  | .bool b => some (if b then "true" else "false")
  | .int n => some (Text.ofInt n)
  | .float x => some x.render
  | .list items => (formatItems? items).map (Text.joinWith ", ")
  | .map _ => none
  | .table _ => none
termination_by structural v => v

/-- The document texts of all items, if each has one. -/
def formatItems? : List Value → Option (List Bytes)
  | [] => some []
  | v :: vs =>
    match format? v, formatItems? vs with
    | some t, some ts => some (t :: ts)
    | _, _ => none
termination_by structural vs => vs

end

def entries? : Value → Option (List (Bytes × Value))
  | .map entries => some entries
  | _ => none

def string? : Value → Option Bytes
  | .str s => some s
  | _ => none

end Value

end Bindery
