import Bindery.Text.Basic

/-!
# Blocks of a message

What digests share: a message is padded to blocks of sixteen words, and a digest is shown in
hexadecimal.
-/

namespace Bindery.Digest

/-- A number in a count of bytes, the highest first. -/
def bigEndian : Nat → Nat → Bytes
  | 0, _ => []
  | count + 1, n => (n / Nat.pow 256 count).toUInt8 :: bigEndian count n

/-- The words of a text whose length is a multiple of four. -/
def wordsOf : Bytes → List UInt32
  | a :: b :: c :: d :: rest =>
    ((a.toUInt32 <<< 24) ||| (b.toUInt32 <<< 16) ||| (c.toUInt32 <<< 8) ||| d.toUInt32) :: wordsOf rest
  | _ => []

/-- A message with a set bit, zeros up to eight bytes before the end of a block, and its length in
bits. -/
def pad (message : Bytes) : Bytes :=
  let zeros := (119 - message.length % 64) % 64
  message ++ 128 :: List.replicate zeros 0 ++ bigEndian 8 (message.length * 8)

/-- Cuts words into blocks of sixteen. -/
def blocks : Nat → List UInt32 → List (List UInt32)
  | 0, _ => []
  | count + 1, words => words.take 16 :: blocks count (words.drop 16)

def hexText (s : Bytes) : Bytes := s.flatMap fun c => Text.padZeros 2 (Text.ofNatHex c.toNat)

end Bindery.Digest
