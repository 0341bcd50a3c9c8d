import Bindery.Yaml.Node

/-!
# Values of YAML nodes

A node is read as a metadata value, or as a record of named fields. In both readings no key may occur
twice in a mapping, and the key `<<` adds the entries of other mappings that are not given yet.
-/

namespace Bindery.Yaml.Node

open Text (bytes)

def scalarOf? (tag text : Bytes) : Option Value := scalarValue? tag text

/-- Whether no two scalar keys have the same text, and no two other keys the same kind. -/
def distinctKeys : List (Node × Node) → Bool
  | [] => true
  | (k, _) :: rest =>
    let same (other : Node) : Bool :=
      match k, other with
      | .scalar _ _ a, .scalar _ _ b => a == b
      | .sequence _, .sequence _ => true
      | .mapping _, .mapping _ => true
      | _, _ => false
    !rest.any (fun e => same e.1) && distinctKeys rest

/-- Whether all keys of a mapping are strings. -/
def hasStringKeys (entries : List (Node × Node)) : Bool :=
  entries.all fun (k, _) => k.tag == strTag || k.tag == mergeTag

/-- Keeps the first of several entries with one key. -/
def firstOfEach {κ α : Type} [BEq κ] : List (κ × α) → List (κ × α) :=
  fun entries => (entries.foldl (fun done e => if done.any (·.1 == e.1) then done else e :: done) []).reverse

/-- The entries of a mapping as string-keyed ones. A missing key is skipped. -/
def stringEntries? (entries : List (Node × Value)) : Option (List (Bytes × Value)) := do
  let keyed ← entries.filterMapM fun (k, v) =>
    match k with
    | .scalar tag _ text => some (if tag == nullTag then none else some (text, v))
    | _ => none
  some (firstOfEach keyed)

/-- The entries of a mapping with keys of any scalar type. -/
def tableEntries? (entries : List (Node × Value)) : Option (List (Value × Value)) := do
  let keyed ← entries.mapM fun (k, v) =>
    match k with
    | .scalar tag _ text => (scalarOf? tag text).map (·, v)
    | _ => none
  some (firstOfEach keyed)

/-! ## Values -/

mutual

/-- The value of a node. -/
def value? : Node → Option Value
  | .scalar tag _ text => scalarOf? tag text
  | .sequence items => (values? items).map .list
  | .mapping entries => do
    guard (distinctKeys entries)
    let found := (← ownEntries? entries) ++ (← mergedEntries? entries)
    if hasStringKeys entries then (stringEntries? found).map .map
    else (tableEntries? found).map .table
termination_by structural n => n

/-- The values of several nodes. -/
def values? : List Node → Option (List Value)
  | [] => some []
  | n :: ns => do
    let v ← value? n
    let vs ← values? ns
    some (v :: vs)
termination_by structural ns => ns

/-- The entries that are written in a mapping itself. -/
def ownEntries? : List (Node × Node) → Option (List (Node × Value))
  | [] => some []
  | (k, v) :: rest => do
    let more ← ownEntries? rest
    if k.isMerge then some more
    else
      let v ← value? v
      some ((k, v) :: more)
termination_by structural es => es

/-- The entries that a mapping merges from others. -/
def mergedEntries? : List (Node × Node) → Option (List (Node × Value))
  | [] => some []
  | (k, v) :: rest => do
    let more ← mergedEntries? rest
    if k.isMerge then
      let found ← sourceEntries? v
      some (found ++ more)
    else some more
termination_by structural es => es

/-- The entries of a mapping, or of several in a list, that are merged into another. -/
def sourceEntries? : Node → Option (List (Node × Value))
  | .scalar _ _ _ => none
  | .mapping entries => do
    guard (distinctKeys entries)
    some ((← ownEntries? entries) ++ (← mergedEntries? entries))
  | .sequence items => sourcesEntries? items
termination_by structural n => n

/-- The entries of several mappings that are merged into another. -/
def sourcesEntries? : List Node → Option (List (Node × Value))
  | [] => some []
  | .scalar _ _ _ :: _ => none
  | .sequence _ :: _ => none
  | .mapping entries :: rest => do
    guard (distinctKeys entries)
    let own ← ownEntries? entries
    let merged ← mergedEntries? entries
    let more ← sourcesEntries? rest
    some (own ++ merged ++ more)
termination_by structural ns => ns

end

/-- The entries of a root node whose keys are read as texts. A missing root has none. -/
def layer? (root : Option Node) : Option (List (Bytes × Value)) :=
  match root with
  | none => some []
  | some n =>
    if n.isNull then some []
    else
      match n with
      | .mapping entries => do
        guard (distinctKeys entries)
        stringEntries? ((← ownEntries? entries) ++ (← mergedEntries? entries))
      | _ => none

/-! ## Records -/

mutual

/-- The fields of a mapping that is read as a record: own entries, then merged ones. -/
def fieldNodes? : List (Node × Node) → Option (List (Bytes × Node))
  | [] => some []
  | (k, v) :: rest => do
    let more ← fieldNodes? rest
    if k.isMerge then
      let found ← sourceFields? v
      some (more ++ found)
    else
      match k with
      | .scalar tag _ text => some (if tag == nullTag then more else (text, v) :: more)
      | _ => none
termination_by structural es => es

/-- The fields that are merged into a record. -/
def sourceFields? : Node → Option (List (Bytes × Node))
  | .scalar _ _ _ => none
  | .mapping entries => if distinctKeys entries then fieldNodes? entries else none
  | .sequence items => sourcesFields? items
termination_by structural n => n

/-- The fields of several mappings that are merged into a record. -/
def sourcesFields? : List Node → Option (List (Bytes × Node))
  | [] => some []
  | .scalar _ _ _ :: _ => none
  | .sequence _ :: _ => none
  | .mapping entries :: rest => do
    let found ← if distinctKeys entries then fieldNodes? entries else none
    let more ← sourcesFields? rest
    some (found ++ more)
termination_by structural ns => ns

end

/-- The fields of a node that is read as a record. -/
def fields? : Node → Option (List (Bytes × Node))
  | .mapping entries => if distinctKeys entries then (fieldNodes? entries).map firstOfEach else none
  | _ => none

/-- The text of a scalar of any type, without regard to what it means. -/
def text? : Node → Option Bytes
  | .scalar tag _ text =>
    if tag == strTag then some text
    else (scalarOf? tag text).map fun _ => text
  | _ => none

/-- A truth value; the older words for it are accepted too. -/
def bool? : Node → Option Bool
  | .scalar tag _ text =>
    match scalarOf? tag text with
    | some (.bool b) => some b
    | some (.str s) =>
      if [bytes "y", bytes "Y", bytes "yes", bytes "on"].contains s then some true
      else if [bytes "n", bytes "N", bytes "no", bytes "off"].contains s then some false
      else none
    | _ => none
  | _ => none

/-- A whole number of 64 bits; the fraction of a number is cut off. -/
def int? : Node → Option Int
  | .scalar tag _ text =>
    match scalarOf? tag text with
    | some (.int n) => if n < Nat.pow 2 63 then some n else none
    | some (.float (.finite negative mantissa exponent)) =>
      let size :=
        if exponent ≥ 0 then mantissa * Nat.pow 2 exponent.toNat
        else mantissa / Nat.pow 2 (-exponent).toNat
      if size < Nat.pow 2 63 then some (if negative then -(size : Int) else size)
      else if negative then some (-(Nat.pow 2 63 : Nat))
      else none
    | _ => none
  | _ => none

end Bindery.Yaml.Node
