import Bindery.Text.Punctuation
import Bindery.Text.Title

/-!
# Link targets

Labels, destinations and titles as they are written in links and in link definitions.
-/

namespace Bindery.Markdown

open Text (bytes)

/-- White space inside a document. -/
def isSpace (c : UInt8) : Bool := c == ' ' || (9 ≤ c && c ≤ 13)

def isBlankLine (s : Bytes) : Bool := s.all isSpace

/-- The text up to a closing byte, and what follows. A byte after a backslash does not close; an
opening byte before the closing one is refused. -/
def closure? (opening closing : UInt8) : Bytes → Option (Bytes × Bytes)
  | [] => none
  | 92 :: d :: rest =>
    if Text.isPunct d then (closure? opening closing rest).map fun (t, after) => (92 :: d :: t, after)
    else if d = closing then some ([92], rest)
    else if d = opening then none
    else (closure? opening closing rest).map fun (t, after) => (92 :: d :: t, after)
  | c :: rest =>
    if c = closing then some ([], rest)
    else if c = opening then none
    else (closure? opening closing rest).map fun (t, after) => (c :: t, after)

/-- The text of a destination in angle brackets, on one line, and what follows. -/
def angled? : Bytes → Option (Bytes × Bytes)
  | [] => none
  | 92 :: d :: rest =>
    if Text.isPunct d then (angled? rest).map fun (t, after) => (92 :: d :: t, after)
    else if d = 10 then none
    else (angled? rest).map fun (t, after) => (92 :: d :: t, after)
  | c :: rest =>
    if c = 62 then some ([], rest)
    else if c = 10 then none
    else (angled? rest).map fun (t, after) => (c :: t, after)

/-- The text of a destination without brackets: up to white space, with balanced parentheses. -/
def bare (depth : Nat) : Bytes → Bytes × Bytes
  | [] => ([], [])
  | 92 :: d :: rest =>
    if Text.isPunct d then
      let (t, after) := bare depth rest
      (92 :: d :: t, after)
    else if isSpace d then ([92], d :: rest)
    else
      let (t, after) := bare depth rest
      (92 :: d :: t, after)
  | c :: rest =>
    if isSpace c then ([], c :: rest)
    else if c = 41 ∧ depth = 0 then ([], c :: rest)
    else
      let depth := if c = 40 then depth + 1 else if c = 41 then depth - 1 else depth
      let (t, after) := bare depth rest
      (c :: t, after)

/-- Reads a destination. -/
def destination? (s : Bytes) : Option (Bytes × Bytes) :=
  match s with
  | 60 :: rest => angled? rest
  | s =>
    match bare 0 s with
    | ([], _) => none
    | found => some found

/-- Reads a title in quotes or parentheses. -/
def title? (s : Bytes) : Option (Bytes × Bytes) :=
  match s with
  | c :: rest =>
    if c = 34 ∨ c = 39 then closure? c c rest
    else if c = 40 then closure? 40 41 rest
    else none
  | [] => none

/-- The form in which labels are compared: lower case, with single blanks inside. -/
def labelKey (label : Bytes) : Bytes :=
  let words := (label.splitBy fun a b => isSpace a == isSpace b).filter fun w => !isBlankLine w
  let folded := Text.lower (Text.joinWith " " words)
  Text.replaceAll "ß" "ss" folded

/-- The definition of a link target. -/
structure Definition where
  label : Bytes
  destination : Bytes
  title : Bytes := []
  deriving DecidableEq, Repr

/-- The definition with a label; the first one counts. -/
def define? (definitions : List Definition) (label : Bytes) : Option Definition :=
  definitions.find? fun d => labelKey d.label == labelKey label

/-- Drops the rest of a line that is blank: what follows its line feed. -/
def endOfLine? (s : Bytes) : Option Bytes :=
  let line := s.takeWhile (· != 10)
  if isBlankLine line then some (s.drop (line.length + 1)) else none

/-- Reads a definition at the start of a paragraph, and what follows it. -/
def definition? (s : Bytes) : Option (Definition × Bytes) := do
  let (label, rest) ← match s.dropWhile isSpace with
    | 91 :: rest => closure? 91 93 rest
    | _ => none
  guard (!isBlankLine label)
  let rest ← match rest with
    | 58 :: rest => some rest
    | _ => none
  let (destination, rest) ← destination? (rest.dropWhile isSpace)
  let ended := endOfLine? rest
  let untitled : Option (Definition × Bytes) := ended.map fun after => ({ label, destination }, after)
  let tail := rest.dropWhile isSpace
  match tail with
  | c :: _ =>
    if c = 34 ∨ c = 39 ∨ c = 40 then
      -- White space has to part a title from the destination.
      guard (tail.length < rest.length)
      match title? tail with
      | none => untitled
      | some (title, after) =>
        match endOfLine? after with
        | some after => some ({ label, destination, title }, after)
        | none => untitled
    else untitled
  | [] => untitled

/-- Reads the definitions at the start of a paragraph, one after the other, and what is left of it.
Each takes a byte at least, so the length of the text suffices as a bound. -/
def leadingDefinitions : Nat → Bytes → List Definition × Bytes
  | 0, s => ([], s)
  | bound + 1, s =>
    match definition? s with
    | none => ([], s)
    | some (d, rest) =>
      let (more, rest) := leadingDefinitions bound rest
      (d :: more, rest)

end Bindery.Markdown
