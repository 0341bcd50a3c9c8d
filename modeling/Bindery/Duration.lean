import Bindery.Text.Decimal

/-!
# Durations

A duration is written as numbers with units, such as `1h2m` or `1.5s`, and counts nanoseconds in a
signed 64-bit word. A fraction of a unit is computed in binary floating point, as is fit for a clock,
and cut off below a nanosecond.
-/

namespace Bindery.Duration

open Text (bytes)

/-- The units and their nanoseconds. Both ways to write the micro sign are known. -/
def units : List (Bytes × Nat) :=
  [("ns", 1), ("us", 1000), ("µs", 1000), ("μs", 1000), ("ms", 1000000), ("s", 1000000000),
    ("m", 60000000000), ("h", 3600000000000)]

/-- The first number that does not fit a signed word. -/
def limit : Nat := Nat.pow 2 63

/-- The floating number nearest to a fraction, as a fraction. -/
def nearest (num den : Nat) : Nat × Nat :=
  match Double.ofRatio? false num den with
  | some (.finite _ m e) => if e ≥ 0 then (m * Nat.pow 2 e.toNat, 1) else (m, Nat.pow 2 (-e).toNat)
  | _ => (0, 1)

/-- The digits after a point as `value / scale`. Digits beyond the size of a word are ignored. -/
def fraction (digits : Bytes) : Nat × Nat :=
  let step (state : Nat × Nat × Bool) (c : UInt8) : Nat × Nat × Bool :=
    let (x, scale, full) := state
    let y := x * 10 + (c.toNat - 48)
    if full || x > (limit - 1) / 10 || y > limit then (x, scale, true) else (y, scale * 10, false)
  let (x, scale, _) := digits.foldl step (0, 1, false)
  (x, scale)

/-- The nanoseconds of a fraction of a unit. -/
def fractionNanos (unit : Nat) (digits : Bytes) : Nat :=
  let (x, scale) := fraction digits
  let (un, ud) := nearest unit scale
  let (xn, xd) := nearest x 1
  let (n, d) := nearest (xn * un) (xd * ud)
  n / d

/-- A number and its unit at the start of a text: the nanoseconds, and the rest of the text. -/
def part? (s : Bytes) : Option (Nat × Bytes) := do
  let whole := s.takeWhile Text.isDigit
  let rest := s.dropWhile Text.isDigit
  let (tail, rest) :=
    match rest with
    | 46 :: rest => (rest.takeWhile Text.isDigit, rest.dropWhile Text.isDigit)
    | _ => ([], rest)
  guard (!(whole.isEmpty && tail.isEmpty))
  let value := Double.digitsValue whole
  guard (value ≤ limit)
  let isUnit (c : UInt8) : Bool := c != '.' && !Text.isDigit c
  let unit ← units.lookup (rest.takeWhile isUnit)
  guard (value ≤ limit / unit)
  let nanos := value * unit + fractionNanos unit tail
  -- The limit itself is allowed, since its negation fits a word.
  guard (nanos ≤ limit)
  some (nanos, rest.dropWhile isUnit)

/-- The sum of the parts of a text. Each part takes a byte at least, so the length of the text
suffices as a bound. -/
def sum? : Nat → Bytes → Nat → Option Nat
  | _, [], total => some total
  | 0, _ :: _, _ => none
  | bound + 1, c :: rest, total => do
    let (nanos, rest) ← part? (c :: rest)
    let total := (total + nanos) % Nat.pow 2 64
    guard (total ≤ limit)
    sum? bound rest total

/-- Reads a duration: an optional sign and then either a single zero or one part after the other. -/
def parse? (s : Bytes) : Option Int64 := do
  let (negative, s) := Double.takeSign s
  if s == bytes "0" then some 0
  else
    guard (!s.isEmpty)
    let total ← sum? s.length s 0
    if negative then some (Int64.ofInt (-(total : Int)))
    else
      guard (total < limit)
      some (Int64.ofNat total)

/-! ## Text -/

/-- A time in milliseconds as text: whole milliseconds below a second, and above it seconds with a
fraction after the hours and minutes that there are. -/
def millisText (ms : Nat) : Bytes :=
  if ms == 0 then "0s"
  else if ms < 1000 then Text.ofNat ms ++ bytes "ms"
  else
    let digits := Text.trimEnd (· == 48) (Text.padZeros 3 (Text.ofNat (ms % 1000)))
    let fraction := if digits.isEmpty then [] else 46 :: digits
    let seconds := ms / 1000
    let minutes := seconds / 60
    let hours := minutes / 60
    (if hours == 0 then [] else Text.ofNat hours ++ bytes "h")
      ++ (if minutes == 0 then [] else Text.ofNat (minutes % 60) ++ bytes "m")
      ++ Text.ofNat (seconds % 60) ++ fraction ++ "s"

end Bindery.Duration
