import Bindery.Text.Basic

/-!
# Binary fractions and their decimal text

A `Double` is a number of the 64-bit binary format, kept as an integer mantissa and a power of two.
Reading a decimal rounds to the nearest such number, ties to the even mantissa. Writing takes the
fewest digits that read back to the same number and, of those, the nearest to it.
-/

namespace Bindery

/-- A number of the 64-bit binary floating format. A finite one is `mantissa * 2 ^ exponent`, where
the mantissa is below `2 ^ 53` and the exponent lies between -1074 and 971. -/
inductive Double where
  | nan
  | infinite (negative : Bool)
  | finite (negative : Bool) (mantissa : Nat) (exponent : Int)
  deriving DecidableEq, Repr

namespace Double

/-- The quotient `num / den`, rounded to the nearest integer, ties to even. -/
def roundDiv (num den : Nat) : Nat :=
  let q := num / den
  let r := num % den
  if 2 * r < den then q else if 2 * r > den then q + 1 else if q % 2 = 0 then q else q + 1

/-- A natural number as the format holds it: rounded to 53 significant bits. -/
def roundNat (n : Nat) : Nat :=
  let unit := Nat.pow 2 (Nat.log2 n - 52)
  roundDiv n unit * unit

/-- The number `num * 2 ^ -e / den` as a fraction of naturals. -/
def scaled (num den : Nat) (e : Int) : Nat × Nat :=
  if e ≥ 0 then (num, den * Nat.pow 2 e.toNat) else (num * Nat.pow 2 (-e).toNat, den)

/-- The finite number nearest to `num / den`, or `none` when that is beyond the largest one. -/
def ofRatio? (negative : Bool) (num den : Nat) : Option Double :=
  if num = 0 then some (.finite negative 0 (-1074))
  else
    -- The guess is the exponent of a mantissa with 53 bits, or one more.
    let guess : Int := (Nat.log2 num : Int) - (Nat.log2 den : Int) - 52
    let (n, d) := scaled num den guess
    let exponent : Int := max (if n < d * Nat.pow 2 52 then guess - 1 else guess) (-1074)
    let (n, d) := scaled num den exponent
    let m := roundDiv n d
    -- Rounding may carry into a further bit.
    let (m, exponent) := if m = Nat.pow 2 53 then (Nat.pow 2 52, exponent + 1) else (m, exponent)
    if exponent > 971 then none else some (.finite negative m exponent)

/-- The number nearest to `mantissa * 10 ^ exponent`. Exponents far outside the range of the format
are cut off first, which changes neither underflow nor overflow. -/
def ofDecimal? (negative : Bool) (mantissa : Nat) (exponent : Int) : Option Double :=
  let digits : Int := (Nat.toDigits 10 mantissa).length
  if mantissa = 0 || digits + exponent < -400 then some (.finite negative 0 (-1074))
  else if digits + exponent > 400 then none
  else if exponent ≥ 0 then ofRatio? negative (mantissa * Nat.pow 10 exponent.toNat) 1
  else ofRatio? negative mantissa (Nat.pow 10 (-exponent).toNat)

def digitsValue (s : Bytes) : Nat := s.foldl (fun n c => n * 10 + (c.toNat - 48)) 0

/-- Splits a leading sign off a text: whether it was a minus, and the rest. -/
def takeSign : Bytes → Bool × Bytes
  | 43 :: rest => (false, rest)
  | 45 :: rest => (true, rest)
  | s => (false, s)

/-- Reads `digits [. digits] [e [sign] digits]` with an optional sign, where at least one digit
stands before the exponent. Numbers beyond the format's range are refused. -/
def parse? (s : Bytes) : Option Double :=
  let (negative, s) := takeSign s
  let whole := s.takeWhile Text.isDigit
  let rest := s.dropWhile Text.isDigit
  let (fraction, rest) :=
    match rest with
    | 46 :: rest => (rest.takeWhile Text.isDigit, rest.dropWhile Text.isDigit)
    | _ => ([], rest)
  if whole.isEmpty && fraction.isEmpty then none
  else
    let mantissa := digitsValue (whole ++ fraction)
    let shift : Int := -(fraction.length : Int)
    match rest with
    | [] => ofDecimal? negative mantissa shift
    | c :: rest =>
      if c ≠ 'e' ∧ c ≠ 'E' then none
      else
        let (down, digits) := takeSign rest
        if digits.isEmpty || !digits.all Text.isDigit then none
        else
          let size := min (digitsValue digits) 100000
          ofDecimal? negative mantissa (shift + if down then -(size : Int) else size)

/-! ## Shortest text -/

/-- The position of the decimal point of `num / den`: the least `k` from `k` upwards with
`num / den < 10 ^ k`, looking at most `bound` steps. -/
def pointFrom (num den : Nat) : Nat → Int → Int
  | 0, k => k
  | bound + 1, k =>
    let below := if k ≥ 0 then num < den * Nat.pow 10 k.toNat else num * Nat.pow 10 (-k).toNat < den
    if below then k else pointFrom num den bound (k + 1)

/-- The shortest decimal `digits * 10 ^ exponent` inside the interval of reals that round to the
number, trying more and more digits. -/
def shortestFrom (mantissa : Nat) (exponent : Int) (point : Int) : Nat → Nat → Nat × Int
  | 0, _ => (mantissa, exponent)
  | bound + 1, count =>
    let unit : Int := point - count
    -- All quantities below are multiples of `2 ^ (exponent - 2) / scale`.
    let pow2 := if exponent ≥ 2 then Nat.pow 2 (exponent - 2).toNat else 1
    let den2 := if exponent ≥ 2 then 1 else Nat.pow 2 (2 - exponent).toNat
    let pow10 := if unit ≥ 0 then Nat.pow 10 unit.toNat else 1
    let den10 := if unit ≥ 0 then 1 else Nat.pow 10 (-unit).toNat
    let value := 4 * mantissa * pow2 * den10
    let low := (4 * mantissa - if mantissa = Nat.pow 2 52 ∧ exponent > -1074 then 1 else 2) * pow2 * den10
    let high := (4 * mantissa + 2) * pow2 * den10
    let step := pow10 * den2
    let inside (d : Nat) : Bool :=
      if mantissa % 2 = 0 then low ≤ d * step && d * step ≤ high
      else low < d * step && d * step < high
    let d := value / step
    match inside d, inside (d + 1) with
    | true, true => (if 2 * (value - d * step) ≤ step then d else d + 1, unit)
    | true, false => (d, unit)
    | false, true => (d + 1, unit)
    | false, false => shortestFrom mantissa exponent point bound (count + 1)

/-- Drops trailing zeros of a decimal, at most `bound` of them. -/
def stripZeros : Nat → Nat → Int → Nat × Int
  | 0, d, e => (d, e)
  | bound + 1, d, e => if d ≠ 0 ∧ d % 10 = 0 then stripZeros bound (d / 10) (e + 1) else (d, e)

/-- The digits of a positive number and the position of its decimal point, counted from the first
digit. -/
def shortest (mantissa : Nat) (exponent : Int) : Bytes × Int :=
  let num := if exponent ≥ 0 then mantissa * Nat.pow 2 exponent.toNat else mantissa
  let den := if exponent ≥ 0 then 1 else Nat.pow 2 (-exponent).toNat
  let point := pointFrom num den 700 (-330)
  let (d, e) := shortestFrom mantissa exponent point 18 1
  let (d, e) := stripZeros 20 d e
  let digits := Text.ofNat d
  (digits, e + digits.length)

/-- The exponent in scientific text: a sign and at least two digits. -/
def exponentText (e : Int) : Bytes :=
  (if e < 0 then [45] else [43]) ++ Text.padZeros 2 (Text.ofNat e.natAbs)

/-- A number as text: the shortest digits, positional while the decimal exponent lies in -4 to 5 and
scientific otherwise. -/
def render : Double → Bytes
  | .nan => "NaN"
  | .infinite negative => if negative then "-Inf" else "+Inf"
  | .finite negative mantissa exponent =>
    let sign : Bytes := if negative then "-" else []
    if mantissa = 0 then sign ++ "0"
    else
      let (digits, point) := shortest mantissa exponent
      let e := point - 1
      sign ++
        if e < -4 ∨ e ≥ 6 then
          let tail := digits.drop 1
          digits.take 1 ++ (if tail.isEmpty then [] else 46 :: tail) ++ [101] ++ exponentText e
        else if point ≤ 0 then
          Text.bytes "0." ++ List.replicate (-point).toNat 48 ++ digits
        else
          let n := point.toNat
          let whole := digits.take n ++ List.replicate (n - digits.length) 48
          let tail := digits.drop n
          whole ++ if tail.isEmpty then [] else 46 :: tail

end Double

end Bindery
