import Bindery.Fault.Basic
import Bindery.Metadata.Layer
import Bindery.Yaml.Decode

/-!
# Metadata blocks

A block stands between a line `---` and a line `...` or a second `---`. Lines that ask for other
metadata are left out before the block is decoded, because their values are not known yet.
-/

namespace Bindery.Metadata

open Text (bytes)

/-- The lines of a text with their line feeds; there is no empty last line. -/
def fullLines (text : Bytes) : List Bytes :=
  let rec complete : List Bytes → List Bytes
    | [] => []
    | [last] => if last.isEmpty then [] else [last]
    | line :: rest => (line ++ [10]) :: complete rest
  complete (Text.lines text)

/-- The line that opens a block. -/
def opener : Bytes := "---"

/-- The lines after the opening line of a block, if the text starts with one. Blank lines may stand
before it, and it must end in a line feed. -/
def afterOpener? : List Bytes → Option (List Bytes)
  | [] => none
  | line :: rest =>
    if Text.isWhite line then afterOpener? rest
    else if Text.trim line == opener && line.getLast? == some 10 then some rest
    else none

/-- The lines up to a closing line, if there is one. -/
def beforeCloser? (closer : Bytes) : List Bytes → Option (List Bytes)
  | [] => none
  | line :: rest =>
    if Text.trim line == closer then some [] else (beforeCloser? closer rest).map (line :: ·)

/-- The inside of the block at the start of a text. A line `...` anywhere closes it; only without one
does a second `---`. -/
def blockLines? (text : Bytes) : Option (List Bytes) := do
  let inside ← afterOpener? (fullLines text)
  beforeCloser? "..." inside <|> beforeCloser? opener inside

def asksMetadata (line : Bytes) : Bool := Text.contains "\\meta" line

/-- The layer that a YAML text declares. -/
def decodeLayer? (text : Bytes) : Option Layer := (Yaml.parse? text).bind Yaml.Node.layer?

/-- Decodes the metadata block at the start of a text, if there is one. -/
def parseBlock (text : Bytes) : Except Fault (Option Layer) :=
  match blockLines? text with
  | none => .ok none
  | some inside =>
    let kept := (Text.lines inside.flatten).filter (!asksMetadata ·)
    match decodeLayer? (Text.unlines kept) with
    | some layer => .ok (some layer)
    | none => .error (.raiseFrom .yaml .metadata "invalid metadata block")

/-- Decodes the first metadata block of a text, wherever it stands. -/
def findBlock (text : Bytes) : Except Fault (Option Layer) :=
  parseBlock ((fullLines text).dropWhile fun line => Text.trim line != opener).flatten

end Bindery.Metadata
