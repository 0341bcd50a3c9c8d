import Bindery.Text.Decimal

/-!
# Points in time

A `Moment` is a number of seconds since the start of 1970 in universal time, together with the offset
of the clock it is shown on. Dates are those of the proleptic Gregorian calendar.
-/

namespace Bindery

open Text (bytes)

/-- A point in time and the offset, in seconds east of universal time, at which it is shown. `zoned`
tells a clock with a stated offset from the universal clock. -/
structure Moment where
  seconds : Int
  nanos : Nat := 0
  offset : Int := 0
  zoned : Bool := false
  deriving DecidableEq, Repr

namespace Moment

/-- A calendar day. -/
structure Day where
  year : Int
  month : Nat
  day : Nat
  deriving DecidableEq, Repr

/-- Days from the start of 1970 to a calendar day. Years are counted from March, so that the leap
day is the last of its year. -/
def Day.number (d : Day) : Int :=
  let y := if d.month ≤ 2 then d.year - 1 else d.year
  let era := y.fdiv 400
  let yearOfEra := y - era * 400
  let monthFromMarch : Int := (d.month + 9) % 12
  let dayOfYear := (153 * monthFromMarch + 2).fdiv 5 + d.day - 1
  let dayOfEra := yearOfEra * 365 + yearOfEra.fdiv 4 - yearOfEra.fdiv 100 + dayOfYear
  era * 146097 + dayOfEra - 719468

/-- The calendar day that lies a number of days after the start of 1970. -/
def Day.ofNumber (n : Int) : Day :=
  -- Years begin in March here, so that a leap day is the last of its year. An era has 400 years.
  let z := n + 719468
  let era := z.fdiv 146097
  let dayOfEra := z - era * 146097
  let yearOfEra :=
    (dayOfEra - dayOfEra.fdiv 1460 + dayOfEra.fdiv 36524 - dayOfEra.fdiv 146096).fdiv 365
  let dayOfYear := dayOfEra - (365 * yearOfEra + yearOfEra.fdiv 4 - yearOfEra.fdiv 100)
  let monthFromMarch := (5 * dayOfYear + 2).fdiv 153
  let day := dayOfYear - (153 * monthFromMarch + 2).fdiv 5 + 1
  let month := if monthFromMarch < 10 then monthFromMarch + 3 else monthFromMarch - 9
  let year := yearOfEra + era * 400
  { year := if month ≤ 2 then year + 1 else year, month := month.toNat, day := day.toNat }

def isLeap (year : Int) : Bool := year % 4 == 0 && (year % 100 != 0 || year % 400 == 0)

/-- The number of days of a month. -/
def daysIn (year : Int) (month : Nat) : Nat :=
  if month = 2 then (if isLeap year then 29 else 28)
  else if month = 4 ∨ month = 6 ∨ month = 9 ∨ month = 11 then 30
  else 31

/-- The seconds shown by the clock of a moment, counted from the start of 1970 on that clock. -/
def clock (t : Moment) : Int := t.seconds + t.offset

def date (t : Moment) : Day := Day.ofNumber (t.clock.fdiv 86400)

def secondOfDay (t : Moment) : Nat := (t.clock - t.clock.fdiv 86400 * 86400).toNat

def toUniversal (t : Moment) : Moment := { t with offset := 0, zoned := false }

/-- The first moment of year 1, which stands for "no date". -/
def zero : Moment := { seconds := -62135596800 }

def isZero (t : Moment) : Bool := t.seconds == zero.seconds && t.nanos == 0

/-- The moment of a day and a second of the day on a clock with an offset. -/
def ofParts (d : Day) (second nanos : Nat) (offset : Int) (zoned : Bool) : Moment :=
  { seconds := d.number * 86400 + second - offset, nanos, offset, zoned }

/-! ## Text -/

private def two (n : Nat) : Bytes := Text.padZeros 2 (Text.ofNat n)

/-- A year with four digits at least. -/
def yearText (y : Int) : Bytes :=
  (if y < 0 then bytes "-" else []) ++ Text.padZeros 4 (Text.ofNat y.natAbs)

/-- A date as year, month and day, joined with hyphens. -/
def dateText (t : Moment) : Bytes :=
  let d := t.date
  yearText d.year ++ "-" ++ two d.month ++ "-" ++ two d.day

def hourMinuteText (t : Moment) : Bytes :=
  let s := t.secondOfDay
  two (s / 3600) ++ ":" ++ two (s / 60 % 60)

/-- An offset as a sign, hours and minutes with a separator between them. -/
def offsetText (separator : Bytes) (offset : Int) : Bytes :=
  let minutes := offset.natAbs / 60
  (if offset < 0 then bytes "-" else bytes "+") ++ two (minutes / 60) ++ separator
    ++ two (minutes % 60)

/-- Date and clock with the offset at the end, `Z` for the universal clock. -/
def rfc3339 (t : Moment) : Bytes :=
  t.dateText ++ "T" ++ t.hourMinuteText ++ ":" ++ two (t.secondOfDay % 60)
    ++ if t.offset = 0 then bytes "Z" else offsetText ":" t.offset

/-- A fraction of a second with a leading point and without trailing zeros; empty for a whole
second. -/
def fractionText (nanos : Nat) : Bytes :=
  if nanos = 0 then []
  else 46 :: Text.trimEnd (· == '0') (Text.padZeros 9 (Text.ofNat nanos))

/-- Like `rfc3339`, with the fraction of the second. -/
def rfc3339Nano (t : Moment) : Bytes :=
  t.dateText ++ "T" ++ t.hourMinuteText ++ ":" ++ two (t.secondOfDay % 60) ++ fractionText t.nanos
    ++ if t.offset = 0 then bytes "Z" else offsetText ":" t.offset

/-- Date, clock and offset separated by blanks, with the name of the clock at the end. -/
def plainText (t : Moment) : Bytes :=
  let zone := if t.zoned then offsetText [] t.offset else bytes "UTC"
  t.dateText ++ " " ++ t.hourMinuteText ++ ":" ++ two (t.secondOfDay % 60) ++ fractionText t.nanos
    ++ " " ++ offsetText [] t.offset ++ " " ++ zone

/-- Date and clock as digits only, for names of files. -/
def stampText (t : Moment) : Bytes :=
  let d := t.date
  let s := t.secondOfDay
  yearText d.year ++ two d.month ++ two d.day ++ "-" ++ two (s / 3600) ++ two (s / 60 % 60)
    ++ two (s % 60)

/-- The form used in documents: minutes precision, and the offset after `UTC`. -/
def documentText (t : Moment) : Bytes :=
  t.dateText ++ " " ++ t.hourMinuteText ++ " UTC" ++ offsetText [] t.offset

/-! ## Reading -/

/-- Reads one or two digits. -/
def readShort? : Bytes → Option (Nat × Bytes)
  | a :: b :: rest =>
    if Text.isDigit a then
      if Text.isDigit b then some (Text.hexValue a * 10 + Text.hexValue b, rest)
      else some (Text.hexValue a, b :: rest)
    else none
  | [a] => if Text.isDigit a then some (Text.hexValue a, []) else none
  | [] => none

/-- Reads exactly two digits. -/
def readTwo? : Bytes → Option (Nat × Bytes)
  | a :: b :: rest =>
    if Text.isDigit a && Text.isDigit b then some (Text.hexValue a * 10 + Text.hexValue b, rest)
    else none
  | _ => none

/-- Reads an expected byte. -/
def expect? (c : UInt8) : Bytes → Option Bytes
  | d :: rest => if d = c then some rest else none
  | [] => none

/-- Reads year, month and day. -/
def readDay? (number? : Bytes → Option (Nat × Bytes)) (s : Bytes) : Option (Day × Bytes) := do
  let year := s.take 4
  guard (year.length = 4 && year.all Text.isDigit)
  let s ← expect? '-' (s.drop 4)
  let (month, s) ← number? s
  guard (1 ≤ month && month ≤ 12)
  let s ← expect? '-' s
  let (day, s) ← number? s
  let year : Int := Double.digitsValue year
  guard (1 ≤ day && day ≤ daysIn year month)
  some ({ year, month, day }, s)

/-- Reads hours, minutes and seconds with an optional fraction: the second of the day and the
nanoseconds. -/
def readClock? (number? : Bytes → Option (Nat × Bytes)) (s : Bytes) : Option (Nat × Nat × Bytes) := do
  let (hour, s) ← number? s
  let s ← expect? ':' s
  let (minute, s) ← number? s
  let s ← expect? ':' s
  let (second, s) ← number? s
  guard (hour < 24 && minute < 60 && second < 60)
  let total := hour * 3600 + minute * 60 + second
  match s with
  | 46 :: c :: rest =>
    if Text.isDigit c then
      let digits := (c :: rest).takeWhile Text.isDigit
      let nanos := Double.digitsValue (digits ++ List.replicate 9 48 |>.take 9)
      some (total, nanos, (c :: rest).dropWhile Text.isDigit)
    else some (total, 0, s)
  | _ => some (total, 0, s)

/-- Reads `Z` or a signed offset up to the end: the seconds, and whether an offset was stated. -/
def readOffset? (s : Bytes) : Option (Int × Bool) :=
  match s with
  | [90] => some (0, false)
  | sign :: rest => do
    guard (sign == '+' || sign == '-')
    let (hours, rest) ← readTwo? rest
    let rest ← expect? ':' rest
    let (minutes, rest) ← readTwo? rest
    guard (rest.isEmpty && hours ≤ 24 && minutes < 60)
    let size : Int := hours * 3600 + minutes * 60
    some (if sign == '-' then -size else size, size != 0)
  | [] => none

/-- Reads the form that `rfc3339` and `rfc3339Nano` write. -/
def parseRfc3339? (s : Bytes) : Option Moment := do
  let (day, s) ← readDay? readTwo? s
  let s ← expect? 'T' s
  let (second, nanos, s) ← readClock? readTwo? s
  let (offset, zoned) ← readOffset? s
  some (ofParts day second nanos offset zoned)

/-- Reads a date, alone or with a clock: after `T` or `t` an offset must follow, after a blank none
may. Months, days, hours, minutes and seconds may have one digit. -/
def parseLoose? (s : Bytes) : Option Moment := do
  let (day, rest) ← readDay? readShort? s
  match rest with
  | [] => some (ofParts day 0 0 0 false)
  | c :: rest =>
    if c = 'T' ∨ c = 't' then do
      let (second, nanos, rest) ← readClock? readShort? rest
      let (offset, zoned) ← readOffset? rest
      some (ofParts day second nanos offset zoned)
    else if c = ' ' then do
      let (second, nanos, rest) ← readClock? readShort? rest
      guard rest.isEmpty
      some (ofParts day second nanos 0 false)
    else none

end Moment

end Bindery
