import Bindery.Yaml.Scalar
import Bindery.Yaml.Token

/-!
# YAML nodes

The tree that a sequence of tokens describes. An alias stands for the node it names, which must be
complete, so no node contains itself.
-/

namespace Bindery.Yaml

open Text (bytes)

/-- A node of a document. Scalars have a tag, given or implied by their text. -/
inductive Node where
  | scalar (tag : Bytes) (style : Style) (text : Bytes)
  | sequence (items : List Node)
  | mapping (entries : List (Node × Node))
  deriving Repr

namespace Node

/-- The node that stands where nothing was written. -/
def empty : Node := .scalar nullTag .plain []

/-- The short tag of a node. -/
def tag : Node → Bytes
  | .scalar tag _ _ => tag
  | .sequence _ => "!!seq"
  | .mapping _ => "!!map"

def isNull (n : Node) : Bool := n.tag == nullTag

/-- Whether a key merges another mapping into the present one. -/
def isMerge : Node → Bool
  | .scalar tag _ text => tag == mergeTag && text == bytes "<<"
  | _ => false

/-- A scalar node. Quoted and block scalars are strings unless tagged otherwise. -/
def ofScalar (tag : Bytes) (style : Style) (text : Bytes) : Node :=
  let implied :=
    if style != .plain then strTag
    else if text == bytes "<<" then mergeTag
    else impliedTag text
  .scalar (if tag.isEmpty then implied else tag) style text

end Node

/-! ## From tokens to nodes -/

/-- The tokens not yet read, the meanings of handles of tags, and the named nodes. A name without a node
is that of a node not yet complete. -/
structure Unread where
  tokens : List Token
  handles : List (Bytes × Bytes) := []
  anchors : List (Bytes × Option Node) := []

/-- A step of reading nodes; it fails where the tokens form no document. -/
abbrev Reading := StateT Unread Option

namespace Reading

/-- The next token; the end repeats for ever. -/
def peek : Reading Token := do return (← get).tokens.head?.getD .streamEnd

def skip : Reading Unit := modify fun s => { s with tokens := s.tokens.drop 1 }

/-- Passes the next token if it is the expected one. -/
def skipIf (t : Token) : Reading Bool := do
  if (← peek) == t then
    skip
    return true
  else return false

/-- Remembers a named node. -/
def name (anchor : Option Bytes) (node : Option Node) : Reading Unit :=
  match anchor with
  | none => pure ()
  | some a => modify fun s => { s with anchors := (a, node) :: s.anchors }

/-- What the tags of the language itself begin with. -/
def standardStart : Bytes := "tag:yaml.org,2002:"

/-- The handles of tags that have a meaning unless they are given another. -/
def standardHandles : List (Bytes × Bytes) := [(bytes "!", bytes "!"), (bytes "!!", standardStart)]

/-- The short form of a tag; the non-specific tag is none. -/
def shortTag (handle suffix : Bytes) : Reading Bytes := do
  let short (long : Bytes) : Bytes :=
    match Text.afterStart? standardStart long with
    | some name => bytes "!!" ++ name
    | none => long
  if handle.isEmpty then return short suffix
  else if handle == bytes "!" && suffix.isEmpty then return []
  else
    match ((← get).handles ++ standardHandles).lookup handle with
    | some meaning => return short (meaning ++ suffix)
    | none => failure

/-- Reads the anchor and the tag in front of a node. -/
def properties : Reading (Option Bytes × Option Bytes) := do
  match ← peek with
  | .anchor a =>
    skip
    match ← peek with
    | .tag h s => skip; return (some a, some (← shortTag h s))
    | _ => return (some a, none)
  | .tag h s =>
    skip
    let t ← shortTag h s
    match ← peek with
    | .anchor a => skip; return (some a, some t)
    | _ => return (none, some t)
  | _ => return (none, none)

mutual

/-- Reads a node. Block collections are allowed in block context only, and a sequence without
indentation of its own only as the value of a key. -/
def node (block indentless : Bool) : Nat → Reading Node
  | 0 => failure
  | n + 1 => do
    if let .alias a ← peek then
      skip
      match (← get).anchors.lookup a with
      | some (some target) => return target
      | _ => failure
    let (anchor, tag) ← properties
    name anchor none
    let result ← match ← peek with
      | .blockEntry =>
        if indentless then pure (.sequence (← indentlessItems n))
        else if anchor.isSome || tag.isSome then pure (Node.ofScalar (tag.getD []) .plain [])
        else failure
      | .scalar style text => do
        skip
        pure (Node.ofScalar (tag.getD []) style text)
      | .flowSequenceStart => do
        skip
        pure (.sequence (← flowItems true n))
      | .flowMappingStart => do
        skip
        pure (.mapping (← flowEntries true n))
      | .blockSequenceStart =>
        if block then do
          skip
          pure (.sequence (← blockItems n))
        else failure
      | .blockMappingStart =>
        if block then do
          skip
          pure (.mapping (← blockEntries n))
        else failure
      | _ =>
        if anchor.isSome || tag.isSome then pure (Node.ofScalar (tag.getD []) .plain [])
        else failure
    name anchor (some result)
    return result

/-- Reads the items of a block sequence, with its end. -/
def blockItems : Nat → Reading (List Node)
  | 0 => failure
  | n + 1 => do
    match ← peek with
    | .blockEntry =>
      skip
      let next ← peek
      let item ←
        if next == .blockEntry || next == .blockEnd then pure Node.empty else node true false n
      return item :: (← blockItems n)
    | .blockEnd => skip; return []
    | _ => failure

/-- Reads the items of a sequence without indentation of its own. -/
def indentlessItems : Nat → Reading (List Node)
  | 0 => failure
  | n + 1 => do
    match ← peek with
    | .blockEntry =>
      skip
      let next ← peek
      let item ←
        if next == .blockEntry || next == .blockEnd || next == .key || next == .value then
          pure Node.empty
        else node true false n
      return item :: (← indentlessItems n)
    | _ => return []

/-- Reads the entries of a block mapping, with its end. -/
def blockEntries : Nat → Reading (List (Node × Node))
  | 0 => failure
  | n + 1 => do
    match ← peek with
    | .key =>
      skip
      let next ← peek
      let key ←
        if next == .key || next == .value || next == .blockEnd then pure Node.empty
        else node true true n
      let value ←
        if ← skipIf .value then do
          let next ← peek
          if next == .key || next == .value || next == .blockEnd then pure Node.empty
          else node true true n
        else pure Node.empty
      return (key, value) :: (← blockEntries n)
    | .blockEnd => skip; return []
    | _ => failure

/-- Reads the items of a flow sequence, with its end. An item may be a single pair. -/
def flowItems (first : Bool) : Nat → Reading (List Node)
  | 0 => failure
  | n + 1 => do
    if ← skipIf .flowSequenceEnd then return []
    if !first then
      if !(← skipIf .flowEntry) then failure
    if ← skipIf .flowSequenceEnd then return []
    let item ←
      if ← skipIf .key then do
        let next ← peek
        let key ←
          if next == .value || next == .flowEntry || next == .flowSequenceEnd then do
            skip
            pure Node.empty
          else node false false n
        let value ←
          if ← skipIf .value then do
            let next ← peek
            if next == .flowEntry || next == .flowSequenceEnd then pure Node.empty
            else node false false n
          else pure Node.empty
        pure (Node.mapping [(key, value)])
      else node false false n
    return item :: (← flowItems false n)

/-- Reads the entries of a flow mapping, with its end. -/
def flowEntries (first : Bool) : Nat → Reading (List (Node × Node))
  | 0 => failure
  | n + 1 => do
    if ← skipIf .flowMappingEnd then return []
    if !first then
      if !(← skipIf .flowEntry) then failure
    if ← skipIf .flowMappingEnd then return []
    let entry ←
      if ← skipIf .key then do
        let next ← peek
        let key ←
          if next == .value || next == .flowEntry || next == .flowMappingEnd then pure Node.empty
          else node false false n
        let value ←
          if ← skipIf .value then do
            let next ← peek
            if next == .flowEntry || next == .flowMappingEnd then pure Node.empty
            else node false false n
          else pure Node.empty
        pure (key, value)
      else do
        let key ← node false false n
        pure (key, Node.empty)
    return entry :: (← flowEntries false n)

end

/-- Reads directives; whether there were any. Only one version can be asked for, and only once, and a
handle can be given a meaning only once. -/
def directives (versioned : Bool) : Nat → Reading Bool
  | 0 => failure
  | n + 1 => do
    match ← peek with
    | .version major minor =>
      if versioned || major != 1 || minor != 1 then failure
      skip
      let _ ← directives true n
      return true
    | .tagHandle handle meaning =>
      if ((← get).handles.lookup handle).isSome then failure
      modify fun s => { s with handles := (handle, meaning) :: s.handles }
      skip
      let _ ← directives versioned n
      return true
    | _ => return false

/-- Whether the content of a document ends before it begins. -/
def endsDocument : Token → Bool
  | .version _ _ | .tagHandle _ _ | .documentStart | .documentEnd | .streamEnd => true
  | _ => false

/-- Reads the first document; an empty text holds none. -/
def document (bound : Nat) : Reading (Option Node) := do
  if (← peek) == .streamEnd then return none
  let directed ← directives false bound
  let started ← skipIf .documentStart
  -- Directives are for a document with a mark at its start.
  if directed && !started then failure
  if started && endsDocument (← peek) then return some Node.empty
  let root ← node true false bound
  if (← peek) == .malformed then failure
  return some root

end Reading

/-- A way to read the root node of the first document of a text: `none` for a malformed one, `some none`
for a text without any document. -/
abbrev Parser := Bytes → Option (Option Node)

def parse? : Parser := fun text =>
  let ts := tokens text
  ((Reading.document (4 * ts.length + 8)).run { tokens := ts }).map (·.1)

end Bindery.Yaml
