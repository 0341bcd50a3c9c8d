import Bindery.Config.Environment

/-!
# Files of environment variables

A file of `NAME=value` lines, with comments, an optional `export` in front and quoted values. Values
may refer to variables that stand further up in the same file. A file with any malformed line sets
nothing.
-/

namespace Bindery.EnvFile

open Text (bytes)

/-- White space that does not end a line. -/
def isSpace (r : Nat) : Bool := [9, 11, 12, 13, 32, 0x85, 0xA0].contains r

/-- Whether a byte may stand in a name: one of the letters, digits and marks, read one byte at a
time. -/
def isNameByte (c : UInt8) : Bool :=
  Text.isWord c || c == '.' || [(0xAA : UInt8), 0xB5, 0xBA, 0xB2, 0xB3, 0xB9, 0xBC, 0xBD, 0xBE].contains c
    || (c ≥ 0xC0 && c != 0xD7 && c != 0xF7)

def dropRunes (p : Nat → Bool) (s : Bytes) : Bytes :=
  ((Text.runes s).dropWhile fun (r, _) => p r).flatMap (·.2)

def dropLastRunes (p : Nat → Bool) (s : Bytes) : Bytes :=
  ((Text.runes s).reverse.dropWhile fun (r, _) => p r).reverse.flatMap (·.2)

/-- The start of the next statement, behind blank lines and comments. -/
def statement? : Nat → Bytes → Option Bytes
  | 0, _ => none
  | bound + 1, s =>
    match Text.trimStart s with
    | [] => none
    | c :: rest =>
      if c = 35 then
        match Text.cutByte? 10 rest with
        | some (_, after) => statement? bound after
        | none => none
      else some (c :: rest)

/-- The text without `export` and the white space after it. -/
def dropExport (s : Bytes) : Bytes :=
  match Text.afterStart? "export" s with
  | some rest =>
    let trimmed := dropRunes isSpace rest
    if trimmed.length < rest.length then trimmed else s
  | none => s

/-- The name at the start of a statement and what stands after its equals sign or colon. At the end
of a text without either, the whole text is the value of no name. -/
def name? (s : Bytes) : Option (Bytes × Bytes) :=
  let s := dropExport (dropRunes isSpace s)
  let isInner (c : UInt8) : Bool := isSpace c.toNat || isNameByte c
  let name := s.takeWhile isInner
  match s.dropWhile isInner with
  | [] => some ([], dropRunes isSpace s)
  | c :: rest =>
    if c = 61 ∨ c = 58 then
      some (dropLastRunes Text.isSpaceRune name, dropRunes isSpace rest)
    else none

/-- Replaces `$NAME`, `${NAME}` and `$(NAME` by earlier values. A backslash in front is dropped and
keeps the dollar sign as it is. `skip` counts the bytes of what was just replaced. -/
def expandAfter (vars : Environment) : Nat → Bytes → Bytes
  | _, [] => []
  | skip + 1, _ :: rest => expandAfter vars skip rest
  | 0, c :: rest =>
    let isCapital (c : UInt8) : Bool := ('A' ≤ c && c ≤ 'Z') || Text.isDigit c || c == '_'
    -- The name that stands after a dollar sign, with the bytes it takes.
    let reference (s : Bytes) : Bytes × Nat :=
      let open1 := if s.head? == some 40 then 1 else 0
      let open2 := if (s.drop open1).head? == some 123 then 1 else 0
      let name := (s.drop (open1 + open2)).takeWhile isCapital
      let width := open1 + open2 + name.length
      (name, if (s.drop width).head? == some 125 then width + 1 else width)
    if c = 92 ∧ rest.head? = some 36 then
      let (_, width) := reference (rest.drop 1)
      rest.take (width + 1) ++ expandAfter vars (width + 1) rest
    else if c = 36 then
      let (name, width) := reference rest
      (if name.isEmpty then 36 :: rest.take width else vars.get name) ++ expandAfter vars width rest
    else c :: expandAfter vars 0 rest

/-- Replaces references to earlier variables. -/
def expand (vars : Environment) (s : Bytes) : Bytes := expandAfter vars 0 s

/-- Replaces the escapes for line ends. -/
def unescapeLines : Bytes → Bytes
  | 92 :: c :: rest =>
    if c = 'n' then 10 :: unescapeLines rest
    else if c = 'r' then 13 :: unescapeLines rest
    else if c = 10 then 92 :: 10 :: unescapeLines rest
    else 92 :: c :: unescapeLines rest
  | c :: rest => c :: unescapeLines rest
  | [] => []

/-- Drops every backslash before anything but a dollar sign. -/
def unescape : Bytes → Bytes
  | 92 :: c :: rest => if c = 36 then 92 :: unescape (c :: rest) else c :: unescape rest
  | c :: rest => c :: unescape rest
  | [] => []

/-- The text up to a closing quote that has no backslash before it, and what follows. -/
def closing? (quote : UInt8) : UInt8 → Bytes → Option (Bytes × Bytes)
  | _, [] => none
  | last, c :: rest =>
    if c = quote ∧ last ≠ 92 then some ([], rest)
    else (closing? quote c rest).map fun (inside, after) => (c :: inside, after)

/-- The part of an unquoted line before a comment, which starts with a number sign after white space.
The last such sign counts. -/
def beforeComment (line : List (Nat × Bytes)) : List (Nat × Bytes) :=
  let at? (i : Nat) : Option Nat := (line.drop i).head?.map (·.1)
  let marks := (List.range line.length).filter fun i =>
    0 < i && at? i == some 35 && (at? (i - 1)).any isSpace
  match marks.getLast? with
  | some i => line.take i
  | none => line

/-- The value at the start of a text, and what follows it. -/
def value? (vars : Environment) (s : Bytes) : Option (Bytes × Bytes) :=
  match s with
  | [] => some ([], [])
  | q :: rest =>
    if q = 34 ∨ q = 39 then
      (closing? q q rest).map fun (inside, after) =>
        let inside := Text.trimBoth (· == q) inside
        (if q = 34 then expand vars (unescape (unescapeLines inside)) else inside, after)
    else
      let isEnd (c : UInt8) : Bool := c == 10 || c == 13
      -- An unquoted value ends at a comment, and undecodable bytes in it are replaced.
      let line := (beforeComment (Text.runes (s.takeWhile fun c => !isEnd c))).map fun (r, _) => r
      let line := (line.dropWhile isSpace).reverse.dropWhile isSpace |>.reverse
      some (expand vars (line.flatMap Text.encodeRune), s.dropWhile fun c => !isEnd c)

/-- Reads statements one after the other; later values of a name replace earlier ones. -/
def readFrom? : Nat → Environment → Bytes → Option Environment
  | 0, vars, _ => some vars
  | bound + 1, vars, s =>
    match statement? (s.length + 1) s with
    | none => some vars
    | some s => do
      let (name, rest) ← name? s
      let (value, rest) ← value? vars rest
      readFrom? bound ((name, value) :: vars.filter (·.1 != name)) rest

/-- The variables of a file; none for a malformed one. -/
def parse? (text : Bytes) : Option Environment :=
  let text := Text.replaceAll "\r\n" "\n" text
  readFrom? (text.length + 1) [] text

end Bindery.EnvFile
