import Bindery.Text.Decimal

/-!
# File sizes

Sizes for readers: a number with at most one decimal place, and a unit that is a power of 1024 bytes.
-/

namespace Bindery.Website.FileSize

open Text (bytes)

/-- The names of the powers of 1024 bytes. -/
def units : List Bytes := ["B", "KiB", "MiB", "GiB", "TiB", "PiB", "EiB"]

/-- The largest power of 1024 that is not above a size. A size that falls short of a power by less
than one part in 2^48 counts as that power. -/
def power (size : Nat) : Nat :=
  ((List.range units.length).reverse.find? fun e => Nat.pow 1024 e ≤ size + size / Nat.pow 2 48).getD 0

/-- A size in tenths of a unit, rounded to the nearest. -/
def tenths (size power : Nat) : Nat := (20 * size + Nat.pow 1024 power) / (2 * Nat.pow 1024 power)

/-- The number and the unit of a size. Below ten units there is one decimal place, and none for single
bytes. -/
def parts (size : Nat) : Bytes × Bytes :=
  if size < 10 then (Text.ofNat size, "B")
  else
    let e := power size
    let v := tenths size e
    let number :=
      if v < 100 then Text.ofNat (v / 10) ++ bytes "." ++ Text.ofNat (v % 10)
      else Text.ofNat (Double.roundDiv v 10)
    (number, units[e]?.getD [])

def text (size : Nat) : Bytes := (parts size).1 ++ " " ++ (parts size).2

end Bindery.Website.FileSize
