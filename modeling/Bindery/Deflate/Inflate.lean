import Bindery.Deflate.Code

/-!
# Unpacking deflated data

Deflated data is a sequence of blocks. A block is stored as it is, or made of literal bytes and
repetitions of earlier output, written in prefix codes that are fixed or that the block itself
brings along.
-/

namespace Bindery.Deflate

/-! ## Blocks that are stored -/

/-- Takes so many bytes and writes them. -/
def storeBytes : Nat → Step Unit
  | 0 => pure ()
  | n + 1 => do
    match (← get).input.rest with
    | [] => failure
    | c :: rest =>
      modify fun p => { p with input := { rest } }
      Step.emit c
      storeBytes n

/-- Unpacks a stored block. Its length is written twice, the second time inverted. -/
def storedBlock : Step Unit := do
  modify fun p => { p with input := p.input.align }
  let length ← Step.number 16
  let inverse ← Step.number 16
  Step.require (length + inverse == 65535)
  storeBytes length

/-! ## Blocks in prefix codes -/

def endOfBlock : Nat := 256

/-- The extra bits of each length symbol, and the shortest length it stands for. -/
def lengthSymbols : List (Nat × Nat) :=
  [(0, 3), (0, 4), (0, 5), (0, 6), (0, 7), (0, 8), (0, 9), (0, 10), (1, 11), (1, 13), (1, 15),
    (1, 17), (2, 19), (2, 23), (2, 27), (2, 31), (3, 35), (3, 43), (3, 51), (3, 59), (4, 67), (4, 83),
    (4, 99), (4, 115), (5, 131), (5, 163), (5, 195), (5, 227), (0, 258)]

/-- The extra bits of each distance symbol, and the shortest distance it stands for. -/
def distanceSymbols : List (Nat × Nat) :=
  [(0, 1), (0, 2), (0, 3), (0, 4), (1, 5), (1, 7), (2, 9), (2, 13), (3, 17), (3, 25), (4, 33), (4, 49),
    (5, 65), (5, 97), (6, 129), (6, 193), (7, 257), (7, 385), (8, 513), (8, 769), (9, 1025), (9, 1537),
    (10, 2049), (10, 3073), (11, 4097), (11, 6145), (12, 8193), (12, 12289), (13, 16385),
    (13, 24577)]

/-- Reads the value that a symbol stands for, with its extra bits. -/
def extended (table : List (Nat × Nat)) (symbol : Nat) : Step Nat :=
  match table[symbol]? with
  | none => failure
  | some (extra, least) => do
    let more ← Step.number extra
    pure (least + more)

/-- The codes of a block: one for literals, lengths and the end, and one for distances. `ahead` is how
many bits at least follow any symbol of the first. -/
structure Codes where
  literals : Code
  distances : Code
  ahead : Nat

/-- Unpacks symbols up to the end of the block. Every symbol takes a bit, so the number of bits bounds
the number of symbols. -/
def symbolsWithin (codes : Codes) : Nat → Step Unit
  | 0 => failure
  | bound + 1 => do
    let symbol ← codes.literals.read codes.ahead
    if symbol < endOfBlock then
      Step.emit symbol.toUInt8
      symbolsWithin codes bound
    else if symbol == endOfBlock then pure ()
    else do
      let length ← extended lengthSymbols (symbol - endOfBlock - 1)
      let distance ← extended distanceSymbols (← codes.distances.read codes.distances.shortest)
      Step.require (distance ≤ (← get).output.length)
      Step.copy distance length
      symbolsWithin codes bound

def codedBlock (codes : Codes) : Step Unit := do symbolsWithin codes ((← get).input.count + 1)

/-- The codes of blocks that bring none. -/
def fixedCodes : Codes where
  literals :=
    ⟨List.replicate 144 8 ++ List.replicate 112 9 ++ List.replicate 24 7 ++ List.replicate 8 8⟩
  distances := ⟨List.replicate 32 5⟩
  ahead := 7

/-- The order in which the lengths of the codes for lengths are written. -/
def lengthOrder : List Nat := [16, 17, 18, 0, 8, 7, 9, 6, 10, 5, 11, 4, 12, 3, 13, 2, 14, 1, 15]

/-- Reads so many code lengths. Repetitions are written in symbols of their own and must not go beyond
the end. `done` holds the lengths read so far, the last one first. -/
def lengthsWithin (code : Code) (total : Nat) : Nat → List Nat → Step (List Nat)
  | 0, _ => failure
  | bound + 1, done => do
    if done.length == total then pure done.reverse
    else
      let symbol ← code.read code.shortest
      if symbol < 16 then lengthsWithin code total bound (symbol :: done)
      else
        let (length, least, extra) ←
          match symbol, done with
          | 16, [] => failure
          | 16, last :: _ => pure (last, 3, 2)
          | 17, _ => pure (0, 3, 3)
          | _, _ => pure (0, 11, 7)
        let times := least + (← Step.number extra)
        Step.require (done.length + times ≤ total)
        lengthsWithin code total bound (List.replicate times length ++ done)

/-- Reads the three-bit lengths of the codes for lengths. -/
def shortLengths : Nat → Step (List Nat)
  | 0 => pure []
  | n + 1 => do
    let first ← Step.number 3
    let others ← shortLengths n
    pure (first :: others)

/-- Reads the codes that a block brings along. After a block that is not the last, at least ten bits
of another follow. -/
def blockCodes (final : Bool) : Step Codes := do
  Step.need 14
  let literals := (← Step.number 5) + 257
  Step.require (literals ≤ 286)
  let distances := (← Step.number 5) + 1
  Step.require (distances ≤ 30)
  let lengths ← shortLengths ((← Step.number 4) + 4)
  let lengthCode : Code := ⟨(List.range 19).map fun s => lengths[lengthOrder.idxOf s]?.getD 0⟩
  Step.require lengthCode.isComplete
  let total := literals + distances
  -- Repetitions may run on from the lengths of one code to those of the other.
  let all ← lengthsWithin lengthCode total (total + 1) []
  let codes : Codes := { literals := ⟨all.take literals⟩, distances := ⟨all.drop literals⟩, ahead := 0 }
  Step.require (codes.literals.isComplete && codes.distances.isComplete)
  let least := max codes.literals.shortest (codes.literals.lengths[endOfBlock]?.getD 0)
  pure { codes with ahead := least + if final then 0 else 10 }

/-! ## Data -/

/-- Unpacks blocks up to the last one. Every block takes a bit. -/
def blocksWithin : Nat → Step Unit
  | 0 => failure
  | bound + 1 => do
    Step.need 3
    let final := (← Step.bit) == 1
    match ← Step.number 2 with
    | 0 => storedBlock
    | 1 => codedBlock fixedCodes
    | 2 => codedBlock (← blockCodes final)
    | _ => failure
    if final then pure () else blocksWithin bound

/-- What came of unpacking. -/
structure Inflated where
  output : Bytes
  /-- What follows the data, if the data is intact. -/
  rest : Option Bytes

/-- Unpacks deflated data. -/
def inflate (data : Bytes) : Inflated :=
  let start : Progress := { input := { rest := data } }
  let (result, progress) := (blocksWithin (start.input.count + 1)).run.run start
  { output := progress.output.reverse, rest := result.map fun _ => progress.input.align.rest }

end Bindery.Deflate
