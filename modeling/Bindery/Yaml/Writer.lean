import Bindery.Yaml.Scalar
import Bindery.Text.Quoted

/-!
# Writing YAML

Records are written in block style: four columns for each level of mappings, lists indented below
their key, empty collections in brackets. A text is written plainly where it reads back as the same
text, and otherwise in the least quotation that does.
-/

namespace Bindery.Yaml

open Text (bytes)

/-- What is written: texts, scalars in their final form, lists and mappings. -/
inductive Tree where
  | text (s : Bytes)
  | literal (s : Bytes)
  | list (items : List Tree)
  | map (entries : List (Bytes × Tree))
  deriving Repr

namespace Tree

def int (n : Int) : Tree := .literal (Text.ofInt n)

def bool (b : Bool) : Tree := .literal (if b then "true" else "false")

def null : Tree := .literal "null"

def time (t : Moment) : Tree := .literal t.rfc3339Nano

def field (name : Bytes) (value : Tree) : List (Bytes × Tree) := [(name, value)]

/-- A text field that is left out when it is empty. -/
def textField? (name s : Bytes) : List (Bytes × Tree) := if s.isEmpty then [] else [(name, .text s)]

/-- A field that is left out when there is no value. -/
def fieldOf? (name : Bytes) (value : Option Tree) : List (Bytes × Tree) :=
  (value.map fun v => [(name, v)]).getD []

def record (fields : List (List (Bytes × Tree))) : Tree := .map fields.flatten

end Tree

/-! ## Scalars -/

/-- Words that older documents use for truth values. -/
def olderBooleans : List Bytes :=
  ["y", "Y", "yes", "Yes", "YES", "on", "On", "ON", "n", "N", "no", "No", "NO", "off", "Off", "OFF"]

/-- Whether a text ends as a number in base sixty does: groups of up to two digits below sixty, each
after a colon, and an optional fraction. -/
def endsSexagesimal : Nat → Bytes → Bool
  | 0, _ => false
  | bound + 1, s =>
    match s with
    | 58 :: rest =>
      let digits := rest.takeWhile Text.isDigit
      let after := rest.dropWhile Text.isDigit
      let small :=
        match digits with
        | [_] => true
        | [a, _] => a ≤ 53
        | _ => false
      small &&
        match after with
        | [] => true
        | 46 :: tail => tail.all fun c => Text.isDigit c || c == '_'
        | _ => endsSexagesimal bound after
    | _ => false

/-- Whether a text is a number in base sixty. -/
def isSexagesimal (s : Bytes) : Bool :=
  let (_, s) := Double.takeSign s
  match s with
  | c :: rest =>
    Text.isDigit c && endsSexagesimal (s.length + 1) (rest.dropWhile fun c => Text.isDigit c || c == '_')
  | [] => false

/-- Whether the plain form of a text would be read as that text. -/
def readsAsText (s : Bytes) : Bool :=
  impliedTag s == strTag && !isSexagesimal s && !olderBooleans.contains s

/-- Whether a code point can stand in a document as it is. -/
def isShown (r : Nat) : Bool :=
  r == 10 || (32 ≤ r && r ≤ 126) || (0xA0 ≤ r && r < 0xD800)
    || (0xE000 ≤ r && r < 0xFFFE && r != 0xFEFF)

/-- Whether a code point ends a line. -/
def isLineEnd (r : Nat) : Bool := [10, 13, 0x85, 0x2028, 0x2029].contains r

def isBlankRune (r : Nat) : Bool := r == 32 || r == 9

/-- Which ways of writing a text keep it as it is. -/
structure Shapes where
  multiline : Bool := false
  plain : Bool := true
  quoted : Bool := true
  block : Bool := true

/-- Whether a code point has a meaning of its own in a plain scalar. -/
def isIndicator (first afterGap beforeGap : Bool) (r : Nat) : Bool :=
  if first then
    (bytes "#,[]\x7b\x7d&*!|>'\"%@").any (·.toNat == r) || r == 96
      || ((r == 63 || r == 58 || r == 45) && beforeGap)
  else (r == 58 && beforeGap) || (r == 35 && afterGap)

/-- Whether two neighbours are of two classes, in this order. -/
def hasNeighbours (p q : Nat → Bool) (rs : List Nat) : Bool :=
  (rs.zip (rs.drop 1)).any fun (a, b) => p a && q b

/-- Whether any code point has a meaning of its own where it stands. -/
def hasIndicator (rs : List Nat) : Bool :=
  let isGap (r : Option Nat) : Bool := r.all fun r => isBlankRune r || isLineEnd r || r == 0
  let isBlankEnd (r : Option Nat) : Bool := r.all isBlankRune
  (List.range rs.length).any fun i =>
    isIndicator (i == 0) (i == 0 || isGap rs[i - 1]?) (isBlankEnd rs[i + 1]?) (rs[i]?.getD 0)

/-- The shapes that keep a text. -/
def shapes (s : Bytes) : Shapes :=
  if s.isEmpty then { block := false }
  else
    let rs := (Text.runes s).map (·.1)
    let isSpace (r : Nat) : Bool := r == 32
    let special := rs.any fun r => r != 9 && !isShown r
    let spaceBreak := hasNeighbours isSpace isLineEnd rs
    let breakSpace := hasNeighbours isLineEnd isSpace rs
    let multiline := rs.any isLineEnd
    let edge (r : Option Nat) : Bool := r.any fun r => isSpace r || isLineEnd r
    let marked := Text.startsWith "---" s || Text.startsWith "..." s || hasIndicator rs
    let tidy := !(breakSpace || spaceBreak || rs.contains 9 || special)
    { multiline
      plain := tidy && !(edge rs.head? || edge rs.getLast?) && !multiline && !marked
      quoted := tidy
      block := !(rs.getLast?.any isSpace || spaceBreak || special) }

/-- A code point between double quotes. -/
def escapeRune (r : Nat) : Bytes :=
  match r with
  | 0 => "\\0"
  | 7 => "\\a"
  | 8 => "\\b"
  | 9 => "\\t"
  | 10 => "\\n"
  | 11 => "\\v"
  | 12 => "\\f"
  | 13 => "\\r"
  | 27 => "\\e"
  | 34 => "\\\""
  | 92 => "\\\\"
  | 0x85 => "\\N"
  | 0xA0 => "\\_"
  | 0x2028 => "\\L"
  | 0x2029 => "\\P"
  | r =>
    let hex (width : Nat) : Bytes := (Text.padZeros width (Text.ofNatHex r)).map Text.upperByte
    if r ≤ 0xFF then bytes "\\x" ++ hex 2
    else if r ≤ 0xFFFF then bytes "\\u" ++ hex 4
    else bytes "\\U" ++ hex 8

/-- A text between double quotes. A text that starts with a byte order mark is escaped throughout. -/
def doubleQuoted (s : Bytes) : Bytes :=
  let marked := Text.startsWith [0xEF, 0xBB, 0xBF] s
  let body := (Text.runes s).flatMap fun (r, source) =>
    if marked || !isShown r || isLineEnd r || r == 34 || r == 92 then escapeRune r else source
  34 :: body ++ [34]

/-- A line end and blanks up to a column. -/
def newLine (indent : Nat) : Bytes := 10 :: List.replicate indent 32

/-- A text between single quotes. After a line separator the text goes on in a new line. -/
def singleQuoted (indent : Nat) (s : Bytes) : Bytes :=
  let step (state : Bytes × Bool) (e : Nat × Bytes) : Bytes × Bool :=
    let (done, broken) := state
    let (r, source) := e
    if isLineEnd r then (done ++ source, true)
    else if r == 32 then (done ++ source, broken)
    else
      (done ++ (if broken then newLine indent else []) ++ (if r == 39 then [39] else []) ++ source,
        false)
  39 :: ((Text.runes s).foldl step ([], false)).1 ++ [39]

/-- A text of several lines in a block: a bar, hints on the indentation and on the end, and the
lines. -/
def blockText (indent : Nat) (s : Bytes) : Bytes :=
  let lead : Bytes :=
    match s.head? with
    | some c => if c == ' ' || c == 10 then "4" else []
    | none => []
  let ending : Bytes :=
    match s.reverse with
    | 10 :: 10 :: _ => "+"
    | [10] => "+"
    | 10 :: _ => []
    | _ => "-"
  let body := Text.withoutStart [10] s
  let lines := (Text.lines (Text.withoutEnd [10] body)).flatMap fun line =>
    if line.isEmpty then [10] else newLine indent ++ line
  bytes "|" ++ lead ++ ending ++ lines

/-- The digits of base sixty-four. -/
def base64Digits : Bytes := "ABCDEFGHIJKLMNOPQRSTUVWXYZabcdefghijklmnopqrstuvwxyz0123456789+/"

/-- Bytes in base sixty-four. -/
def base64 : Bytes → Bytes
  | a :: b :: c :: rest =>
    let n := a.toNat * 65536 + b.toNat * 256 + c.toNat
    digit (n / 262144) :: digit (n / 4096) :: digit (n / 64) :: digit n :: base64 rest
  | [a, b] =>
    let n := a.toNat * 1024 + b.toNat * 4
    [digit (n / 4096), digit (n / 64), digit n, 61]
  | [a] => [digit (a.toNat / 4), digit (a.toNat * 16), 61, 61]
  | [] => []
where
  digit (n : Nat) : UInt8 := base64Digits[n % 64]?.getD 65

/-- Cuts a text into lines of a width. -/
def linesOf (width : Nat) : Nat → Bytes → List Bytes
  | 0, _ => []
  | bound + 1, s => if s.isEmpty then [] else s.take width :: linesOf width bound (s.drop width)

/-- A text as a scalar at an indentation. Keys stay on one line. -/
def scalar (key : Bool) (indent : Nat) (s : Bytes) : Bytes :=
  if !Text.isUtf8 s then
    let code := base64 s
    if code.length < 70 then bytes "!!binary " ++ code
    else
      let code := (linesOf 70 code.length code).flatMap (· ++ [10])
      bytes "!!binary " ++ if key then doubleQuoted code else blockText indent code
  else
    let shape := shapes s
    if s.contains 10 then if key || !shape.block then doubleQuoted s else blockText indent s
    else if !readsAsText s || (key && shape.multiline) then doubleQuoted s
    else if shape.plain then s
    else if shape.quoted then singleQuoted indent s
    else doubleQuoted s

/-! ## Collections -/

/-- The column of what stands inside a mapping: the next multiple of four. -/
def inner (indent : Nat) : Nat := 4 * ((indent + 4) / 4)

/-- Whether a key can stand before its colon on one line. -/
def isShortKey (s : Bytes) : Bool := s.length ≤ 128 && !(shapes s).multiline

mutual

/-- A tree after a key and its colon, for a mapping at an indentation. -/
def afterKey (indent : Nat) : Tree → Bytes
  | .text s => 32 :: scalar false (inner indent) s
  | .literal s => 32 :: s
  | .list [] => " []"
  | .map [] => " \x7b\x7d"
  | .list items => 10 :: List.replicate (inner indent) 32 ++ listBody (inner indent) items
  | .map entries => 10 :: List.replicate (inner indent) 32 ++ mapBody (inner indent) entries
termination_by structural t => t

/-- A tree after the dash of a list item, for a list at an indentation. -/
def afterDash (indent : Nat) : Tree → Bytes
  | .text s => scalar false (indent + 2) s
  | .literal s => s
  | .list [] => "[]"
  | .map [] => "\x7b\x7d"
  | .list items => listBody (indent + 2) items
  | .map entries => mapBody (indent + 2) entries
termination_by structural t => t

/-- The items of a list, the first without its indentation. -/
def listBody (indent : Nat) : List Tree → Bytes
  | [] => []
  | t :: ts =>
    bytes "- " ++ afterDash indent t
      ++ match ts with
        | [] => []
        | _ :: _ => newLine indent ++ listBody indent ts
termination_by structural ts => ts

/-- The entries of a mapping, the first without its indentation. A long key stands after a question
mark on a line of its own. -/
def mapBody (indent : Nat) : List (Bytes × Tree) → Bytes
  | [] => []
  | (k, t) :: es =>
    (if isShortKey k then scalar true indent k ++ ":"
      else bytes "? " ++ scalar false (inner indent) k ++ newLine indent ++ ":")
      ++ afterKey indent t
      ++ match es with
        | [] => []
        | _ :: _ => newLine indent ++ mapBody indent es
termination_by structural es => es

end

/-- A tree as a document. -/
def Tree.render : Tree → Bytes
  | .text s => scalar false 0 s ++ [10]
  | .literal s => s ++ [10]
  | .list [] => bytes "[]\n"
  | .map [] => bytes "\x7b\x7d\n"
  | .list items => listBody 0 items ++ [10]
  | .map entries => mapBody 0 entries ++ [10]

/-! ## Order of keys -/

/-- The number that a run of digits adds to, as a signed word. -/
def natural (start : Nat) (digits : List Nat) : Nat :=
  digits.foldl (fun n r => n * 10 + (r - 48)) start

/-- Whether one key comes before another: letters by their order, numbers by their size. `before`
holds the equal code points in front, the last one first. -/
def naturalLess (before : List Nat) : List Nat → List Nat → Bool
  | a :: as, b :: bs =>
    if a = b then naturalLess (a :: before) as bs
    else
      let isDigit (r : Nat) : Bool := 48 ≤ r && r ≤ 57
      let isLetter (r : Nat) : Bool :=
        (65 ≤ r && r ≤ 90) || (97 ≤ r && r ≤ 122) || (r ≥ 0xC0 && r != 0xD7 && r != 0xF7)
      match isLetter a, isLetter b with
      | true, true => a < b
      | true, false => before.head?.any isDigit
      | false, true => !before.head?.any isDigit
      | false, false =>
        let lead := (a == 48 || b == 48) && (before.takeWhile isDigit).any (· != 48)
        let start := if lead then 1 else 0
        let da := (a :: as).takeWhile isDigit
        let db := (b :: bs).takeWhile isDigit
        let na := natural start da
        let nb := natural start db
        if na ≠ nb then na < nb
        else if da.length ≠ db.length then da.length < db.length
        else a < b
  | as, bs => as.length < bs.length

/-- Entries in the natural order of their keys. -/
def sortEntries {α : Type} (entries : List (Bytes × α)) : List (Bytes × α) :=
  let points (s : Bytes) : List Nat := (Text.runes s).map (·.1)
  entries.mergeSort fun a b => !naturalLess [] (points b.1) (points a.1)

end Bindery.Yaml
