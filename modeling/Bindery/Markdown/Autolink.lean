import Bindery.Markdown.Target

/-!
# Addresses in the text

Web addresses and mail addresses that are links by themselves: in angle brackets, or bare where a
document allows it.
-/

namespace Bindery.Markdown

open Text (bytes)

/-- An address found at the start of a text. -/
structure Autolink where
  /-- How many bytes the address takes. -/
  length : Nat
  /-- What is put in front to make a full address. -/
  scheme : Bytes := []
  isMail : Bool := false

/-! ## Mail addresses -/

/-- Whether a byte may stand before the at sign. -/
def isMailByte (c : UInt8) : Bool :=
  Text.isLetter c || Text.isDigit c || (bytes ".!#$%&'*+/=?^_`\x7b|\x7d~-").contains c

/-- The length of one part of a domain: letters, digits and inner hyphens. -/
def domainPart (s : Bytes) : Nat :=
  let isAlnum (c : UInt8) : Bool := Text.isLetter c || Text.isDigit c
  let run := (s.takeWhile fun c => isAlnum c || c == '-').take 63
  if run.head?.any isAlnum then (Text.trimEnd (· == 45) run).length else 0

/-- The length of a domain: parts with dots between. -/
def domain : Nat → Bytes → Nat
  | 0, _ => 0
  | bound + 1, s =>
    match domainPart s with
    | 0 => 0
    | n =>
      match s.drop n with
      | 46 :: rest =>
        match domain bound rest with
        | 0 => n
        | m => n + 1 + m
      | _ => n

/-- The length of a mail address. -/
def mail? (s : Bytes) : Option Nat :=
  let name := (s.takeWhile isMailByte).length
  match name, s.drop name with
  | 0, _ => none
  | name, 64 :: rest =>
    match domain rest.length rest with
    | 0 => none
    | n => some (name + 1 + n)
  | _, _ => none

/-! ## In angle brackets -/

/-- The length of a full address: a scheme, a colon, and anything but blanks and angle brackets. -/
def fullAddress? (s : Bytes) : Option Nat :=
  let isSchemeByte (c : UInt8) : Bool :=
    Text.isLetter c || Text.isDigit c || c == '+' || c == '.' || c == '-'
  let scheme := s.takeWhile isSchemeByte
  if !s.head?.any Text.isLetter || scheme.length < 2 || scheme.length > 32 then none
  else
    match s.drop scheme.length with
    | 58 :: rest =>
      some (scheme.length + 1 + (rest.takeWhile fun c => c > 32 && c != 60 && c != 62 && c != 127).length)
    | _ => none

/-- The address between angle brackets. -/
def bracketed? (s : Bytes) : Option Autolink :=
  match s with
  | 60 :: rest =>
    let closed (isMail : Bool) (n : Nat) : Option Autolink :=
      if (rest.drop n).head? == some 62 then some { length := n, isMail } else none
    match mail? rest with
    | some n => closed true n
    | none => (fullAddress? rest).bind (closed false)
  | _ => none

/-! ## Bare -/

/-- Whether a byte may stand in the host of a bare address. -/
def isHostByte (c : UInt8) : Bool := Text.isWord c || (bytes "-@:%.+~#=").contains c

/-- Whether a byte may stand in the path of a bare address. -/
def isPathByte (c : UInt8) : Bool := Text.isWord c || (bytes "-@:%+.~#$!?&/=();,'\">^\x7b\x7d[]`").contains c

def isSmall (c : UInt8) : Bool := 'a' ≤ c && c ≤ 'z'

/-- The length of a host whose last part is small letters behind a dot. -/
def host? (s : Bytes) : Option Nat :=
  let run := (s.takeWhile isHostByte).length
  let isCut (k : Nat) : Bool := s[k]? == some 46 && s[k + 1]?.any isSmall
  let cuts := (List.range (min run 256 + 1)).filter fun k => 1 ≤ k && isCut k
  cuts.getLast?.map fun k => k + 1 + ((s.drop (k + 1)).takeWhile isSmall).length

/-- The length of a path, if one follows. -/
def path (s : Bytes) : Nat :=
  match s with
  | c :: rest => if c = 47 ∨ c = 35 ∨ c = 63 then 1 + (rest.takeWhile isPathByte).length else 0
  | [] => 0

/-- The length of a port number, if one follows. -/
def portLength (s : Bytes) : Nat :=
  match s with
  | 58 :: rest =>
    match (rest.takeWhile Text.isDigit).length with
    | 0 => 0
    | n => n + 1
  | _ => 0

/-- The length of a bare web address before what belongs to the sentence is cut off. -/
def bareAddress? (s : Bytes) : Option (Nat × Bytes) :=
  let schemes : List Bytes := ["http://", "https://", "ftp://"]
  match schemes.findSome? fun p => (Text.afterStart? p s).map fun rest => (p.length, rest) with
  | some (lead, rest) =>
    (host? rest).map fun n =>
      let n := n + portLength (rest.drop n)
      (lead + n + path (rest.drop n), [])
  | none =>
    (Text.afterStart? "www." s).bind fun rest =>
      (host? rest).map fun n => (4 + n + path (rest.drop n), bytes "http")

/-- Cuts off what belongs to the sentence: a full stop, closing parentheses without opening ones, or
a character reference. -/
def trimAddress (s : Bytes) (n : Nat) : Nat :=
  let found := s.take n
  match found.getLast? with
  | some 46 => n - 1
  | some 41 => n - (found.count 41 - found.count 40)
  | some 59 =>
    let name := (found.dropLast.reverse.takeWhile fun c => Text.isLetter c || Text.isDigit c).length
    let start := n - 1 - name
    if name > 0 && 0 < start && s[start - 1]? == some 38 then start - 1 else n
  | _ => n

/-- Cuts off punctuation at the end, but not the first byte. -/
def trimPunctuation (s : Bytes) (n : Nat) : Nat :=
  let isMark (c : UInt8) : Bool := (bytes "?!.,:*_~").contains c
  max 1 (Text.trimEnd isMark (s.take n)).length

/-- A bare address at the start of a line. -/
def bareLink? (line : Bytes) : Option Autolink :=
  match bareAddress? line with
  | some (n, scheme) => some { length := trimPunctuation line (trimAddress line n), scheme }
  | none =>
    if line.head?.any Text.isPunct then none
    else do
      let stop ← mail? line
      let (before, _) ← Text.cutByte? 64 line
      guard (((line.take (stop - 1)).drop before.length).contains 46)
      let n := if (line.drop (stop - 1)).head? == some 46 then stop - 1 else stop
      guard (!(line.drop n).head?.any fun c => c == 45 || c == 95)
      some { length := trimPunctuation line n, isMail := true }

end Bindery.Markdown
