import Bindery.Text.Decimal
import Bindery.Text.Quoted

/-!
# Reading whole numbers

Decimal numbers with an optional sign that fit in 64 bits. A text that is none says why.
-/

namespace Bindery.Text

/-- The largest number of a signed 64-bit word. -/
def maxInt : Nat := Nat.pow 2 63 - 1

/-- Why a text is no number. -/
inductive NumberProblem where
  | malformed
  | outOfRange
  deriving DecidableEq, Repr

/-- Reads an optional sign and decimal digits. -/
def readInt (s : Bytes) : Except NumberProblem Int :=
  let (negative, digits) := Double.takeSign s
  if digits.isEmpty || !digits.all isDigit then .error .malformed
  else
    let n := Double.digitsValue digits
    if negative then
      if n ≤ maxInt + 1 then .ok (-(n : Int)) else .error .outOfRange
    else if n ≤ maxInt then .ok n
    else .error .outOfRange

/-- What is said of a text that is no number. -/
def NumberProblem.message (p : NumberProblem) (s : Bytes) : Bytes :=
  bytes "strconv.Atoi: parsing " ++ quote s ++
    match p with
    | .malformed => bytes ": invalid syntax"
    | .outOfRange => bytes ": value out of range"

end Bindery.Text
