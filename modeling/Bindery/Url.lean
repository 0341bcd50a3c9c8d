import Bindery.Text.Utf8

/-!
# Addresses

The parts of a URL that the library looks at: its scheme, its host and its path. Reading refuses what
no URL can hold, such as control characters, broken percent escapes and malformed ports.
-/

namespace Bindery

open Text (bytes)

/-- The parts of a URL. -/
structure Url where
  scheme : Bytes := []
  host : Bytes := []
  path : Bytes := []
  deriving DecidableEq, Repr

namespace Url

/-- Replaces percent escapes by the bytes they stand for. -/
def unescape? : Bytes → Option Bytes
  | [] => some []
  | 37 :: a :: b :: rest =>
    if Text.isHexDigit a && Text.isHexDigit b then
      (unescape? rest).map ((Text.hexValue a * 16 + Text.hexValue b).toUInt8 :: ·)
    else none
  | c :: rest => if c = '%' then none else (unescape? rest).map (c :: ·)

def isControl (c : UInt8) : Bool := c < 0x20 || c == 0x7F

/-- Whether a byte may stand in a scheme after its first letter. -/
def isSchemeByte (c : UInt8) : Bool :=
  Text.isLetter c || Text.isDigit c || c == '+' || c == '-' || c == '.'

/-- Splits the scheme off. A text without one is all rest; a colon in front is refused. -/
def splitScheme? (s : Bytes) : Option (Bytes × Bytes) :=
  let word := s.takeWhile isSchemeByte
  match s.drop word.length with
  | c :: rest =>
    if c ≠ ':' then some ([], s)
    else
      match word with
      | [] => none
      | first :: _ => if Text.isLetter first then some (word.map Text.lowerByte, rest) else some ([], s)
  | [] => some ([], s)

/-- Whether a text is empty or a colon with digits. -/
def isPort (s : Bytes) : Bool :=
  match s with
  | [] => true
  | c :: digits => c == ':' && digits.all Text.isDigit

/-- Whether an ASCII byte may stand in a host as it is. -/
def isHostByte (c : UInt8) : Bool :=
  Text.isWord c || c ≥ 0x80 || (bytes "-.~!$&'()*+,;=:[]<>\"").contains c

/-- Replaces percent escapes in a host, where only bytes beyond ASCII and the percent sign itself may
be escaped. -/
def unescapeHost? : Bytes → Option Bytes
  | [] => some []
  | 37 :: a :: b :: rest =>
    if Text.isHexDigit a && Text.isHexDigit b && (Text.hexValue a ≥ 8 || (a == '2' && b == '5')) then
      (unescapeHost? rest).map ((Text.hexValue a * 16 + Text.hexValue b).toUInt8 :: ·)
    else none
  | c :: rest => if isHostByte c then (unescapeHost? rest).map (c :: ·) else none

/-- Reads a host with an optional port. -/
def host? (s : Bytes) : Option Bytes :=
  match s with
  | [] => some []
  | c :: _ =>
    if c = '[' then do
      let (_, port) ← Text.cutLastByte? ']' s
      guard (isPort port)
      unescapeHost? s
    else do
      match Text.cutLastByte? ':' s with
      | some (_, port) => guard (isPort (58 :: port))
      | none => pure ()
      unescapeHost? s

/-- Whether a byte may stand in the name and password before a host. -/
def isUserByte (c : UInt8) : Bool := Text.isWord c || (bytes "-.:~!$&'()*+,;=%@").contains c

/-- Reads what stands between the slashes: a host, with a name and password before it. -/
def authority? (s : Bytes) : Option Bytes :=
  match Text.cutLastByte? '@' s with
  | none => host? s
  | some (user, host) => do
    let host ← host? host
    guard (user.all isUserByte)
    let _ ← unescape? user
    some host

/-- Reads a URL, or a reference without scheme and host. -/
def parse? (s : Bytes) : Option Url := do
  let (s, fragment) := (Text.cutByte? '#' s).getD (s, [])
  guard (!s.any isControl)
  let _ ← unescape? fragment
  let (scheme, rest) ← splitScheme? s
  let rest := ((Text.cutByte? '?' rest).map (·.1)).getD rest
  if !Text.startsWith "/" rest then
    if !scheme.isEmpty then some { scheme }
    else
      -- A colon in the first component would end a scheme.
      guard !((rest.takeWhile (· != 47)).contains 58)
      let path ← unescape? rest
      some { path }
  else if Text.startsWith "//" rest && (!scheme.isEmpty || !Text.startsWith "///" rest) then
    let after := rest.drop 2
    let authority := after.takeWhile (· != 47)
    let host ← authority? authority
    let path ← unescape? (after.drop authority.length)
    some { scheme, host, path }
  else
    let path ← unescape? rest
    some { scheme, path }

end Url

end Bindery
