import Bindery.Value

/-!
# YAML scalars

The type of a plain scalar follows from its text: the words for null and the truth values, numbers in
several bases, decimal fractions and dates. Everything else is a string.
-/

namespace Bindery.Yaml

open Text (bytes)

def strTag : Bytes := "!!str"

def nullTag : Bytes := "!!null"

/-- The tag of the key that merges another mapping. -/
def mergeTag : Bytes := "!!merge"

def binaryTag : Bytes := "!!binary"

def floatTag : Bytes := "!!float"

def timestampTag : Bytes := "!!timestamp"

/-- The tag of the type of a value. -/
def tagOf : Value → Bytes
  | .null => nullTag
  | .bool _ => "!!bool"
  | .int _ => "!!int"
  | .float _ => floatTag
  | .str _ => strTag
  | .time _ => timestampTag
  | .list _ => "!!seq"
  | .map _ => "!!map"
  | .table _ => "!!map"

private def words (value : Value) (names : List String) : List (Bytes × Value) :=
  names.map fun name => (bytes name, value)

/-- The words with a meaning of their own. -/
def keywords : List (Bytes × Value) :=
  words (.bool true) ["true", "True", "TRUE"]
    ++ words (.bool false) ["false", "False", "FALSE"]
    ++ words .null ["", "~", "null", "Null", "NULL"]
    ++ words (.float .nan) [".nan", ".NaN", ".NAN"]
    ++ words (.float (.infinite false)) [".inf", ".Inf", ".INF", "+.inf", "+.Inf", "+.INF"]
    ++ words (.float (.infinite true)) ["-.inf", "-.Inf", "-.INF"]

/-- The value of digits in a base, if all are digits of that base. -/
def digitsIn? (base : Nat) (s : Bytes) : Option Nat :=
  if s.isEmpty then none
  else s.foldl (fun n c => do
    let n ← n
    guard (Text.isHexDigit c && Text.hexValue c < base)
    some (n * base + Text.hexValue c)) (some 0)

/-- The value of digits after an optional base mark: `0x`, `0b`, `0o`, or a leading zero for base
eight. -/
def based? (s : Bytes) : Option Nat :=
  match s with
  | 48 :: c :: rest =>
    let c := Text.lowerByte c
    if c = 'x' then digitsIn? 16 rest
    else if c = 'b' then digitsIn? 2 rest
    else if c = 'o' then digitsIn? 8 rest
    else digitsIn? 8 (s.drop 1)
  | _ => digitsIn? 10 s

/-- A whole number that fits in 64 bits, signed or not. -/
def whole? (s : Bytes) : Option Int := do
  let (negative, digits) := Double.takeSign s
  let n ← based? digits
  if negative then
    guard (n ≤ Nat.pow 2 63)
    some (-(n : Int))
  else
    -- Only without a sign may a number take all 64 bits.
    guard (n < if digits.length = s.length then Nat.pow 2 64 else Nat.pow 2 63)
    some n

/-- A date or a time that starts with a year of four digits. -/
def date? (s : Bytes) : Option Moment := do
  guard (s.length ≥ 5 && (s.take 4).all Text.isDigit && s[4]? == some (45 : UInt8))
  Moment.parseLoose? s

/-- The value of a plain scalar with an optional tag of its own, which must agree with its type. -/
def scalarValue? (tag text : Bytes) : Option Value :=
  if tag == strTag || tag == binaryTag || tag == mergeTag then some (.str text)
  else
    let found : Value :=
      match keywords.lookup text with
      | some v => v
      | none =>
        match text with
        | [] => .null
        | c :: _ =>
          let digits := text.filter (· != 95)
          if c = '.' then ((Double.parse? text).map Value.float).getD (.str text)
          else if c = '+' ∨ c = '-' ∨ Text.isDigit c then
            let date := if tag.isEmpty || tag == timestampTag then (date? text).map Value.time else none
            (date <|> (whole? digits).map Value.int <|> (Double.parse? digits).map Value.float).getD
              (.str text)
          else .str text
    if tag.isEmpty || tag == tagOf found then some found
    else
      match found with
      | .int n =>
        if tag == floatTag then (Double.parse? (Text.ofInt n)).map Value.float else none
      | _ => none

/-- The tag that the text of a plain scalar implies. -/
def impliedTag (text : Bytes) : Bytes := ((scalarValue? [] text).map tagOf).getD strTag

end Bindery.Yaml
