import Bindery.Text.Basic

/-!
# Reading bits

Compressed data is read bit by bit, the lowest bit of a byte first. What was unpacked before the data
turned out to be broken is kept, so a step that fails still has the state it left behind.
-/

namespace Bindery.Deflate

/-- Data that is read bit by bit. -/
structure Bits where
  /-- The bits that are left of the byte that was begun. -/
  begun : List Bool := []
  rest : Bytes
  deriving DecidableEq, Repr

namespace Bits

/-- The bits of a byte, the lowest first. -/
def ofByte (c : UInt8) : List Bool := (List.range 8).map c.toNat.testBit

def count (b : Bits) : Nat := b.begun.length + 8 * b.rest.length

/-- Takes one bit. -/
def next? (b : Bits) : Option (Bool × Bits) :=
  match b.begun, b.rest with
  | bit :: begun, _ => some (bit, { b with begun })
  | [], c :: rest =>
    match ofByte c with
    | bit :: begun => some (bit, { begun, rest })
    | [] => none
  | [], [] => none

/-- Drops what is left of the byte that was begun. -/
def align (b : Bits) : Bits := { rest := b.rest }

end Bits

/-- What is still packed, and what is unpacked, the last byte first. -/
structure Progress where
  input : Bits
  output : List UInt8 := []

/-- A step of unpacking. -/
abbrev Step := OptionT (StateM Progress)

namespace Step

/-- Takes one bit, as 0 or 1. -/
def bit : Step Nat := do
  match (← get).input.next? with
  | none => failure
  | some (b, input) =>
    modify fun p => { p with input }
    pure b.toNat

/-- Takes a number of so many bits, the lowest first. -/
def number : Nat → Step Nat
  | 0 => pure 0
  | n + 1 => do
    let low ← bit
    let high ← number n
    pure (low + 2 * high)

/-- Goes on only if there are at least so many bits. -/
def need (n : Nat) : Step Unit := do
  if (← get).input.count < n then failure

def emit (c : UInt8) : Step Unit := modify fun p => { p with output := c :: p.output }

/-- Writes again what was written some bytes before, byte by byte. -/
def copy (distance : Nat) : Nat → Step Unit
  | 0 => pure ()
  | n + 1 => do
    match (← get).output[distance - 1]? with
    | none => failure
    | some c =>
      emit c
      copy distance n

def require (b : Bool) : Step Unit := if b then pure () else failure

end Step

end Bindery.Deflate
