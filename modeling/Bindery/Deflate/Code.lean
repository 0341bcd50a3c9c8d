import Bindery.Deflate.Bits

/-!
# Prefix codes

A prefix code is given by the lengths of the codes of its symbols. Codes of one length are consecutive
numbers in the order of the symbols, and longer codes follow shorter ones.
-/

namespace Bindery.Deflate

/-- A prefix code: the length of the code of each symbol, 0 for a symbol that does not occur. -/
structure Code where
  lengths : List Nat
  deriving DecidableEq, Repr

namespace Code

/-- No code is longer than this. -/
def maxLength : Nat := 15

def count (c : Code) (length : Nat) : Nat := c.lengths.count length

def used (c : Code) : List Nat := c.lengths.filter (· != 0)

/-- The shortest length that occurs, 0 when none does. -/
def shortest (c : Code) : Nat := c.used.min?.getD 0

/-- Whether every sequence of bits starts with exactly one code. Besides, a code may be empty, or have
a single code of one bit. -/
def isComplete (c : Code) : Bool :=
  let used := c.used
  used.isEmpty || used == [1]
    || used.foldl (fun total n => total + Nat.pow 2 (maxLength - n)) 0 == Nat.pow 2 maxLength

/-- The symbols in the order of their codes. -/
def symbols (c : Code) : List Nat :=
  (List.range maxLength).flatMap fun n =>
    (c.lengths.zipIdx.filter fun s => s.1 == n + 1).map (·.2)

/-- Reads one symbol. `code` is the number read so far, `first` the first code of the next length and
`index` its place in the order of the codes. -/
def walk (c : Code) (symbols : List Nat) : List Nat → Nat → Nat → Nat → Step Nat
  | [], _, _, _ => failure
  | length :: longer, code, first, index => do
    let code := code + (← Step.bit)
    let count := c.count length
    if code < first + count then
      match symbols[index + (code - first)]? with
      | some s => pure s
      | none => failure
    else c.walk symbols longer (2 * code) (2 * (first + count)) (index + count)

/-- Reads one symbol, given that at least `ahead` bits must follow in intact data. -/
def read (c : Code) (ahead : Nat) : Step Nat := do
  Step.need ahead
  c.walk c.symbols ((List.range maxLength).map (· + 1)) 0 0 0

end Code

end Bindery.Deflate
