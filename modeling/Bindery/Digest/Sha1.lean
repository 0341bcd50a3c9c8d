import Bindery.Digest.Block

/-!
# SHA-1

The digest by which version control names commits. Each block is expanded to a schedule of eighty
words, which are mixed one by one into a state of five.
-/

namespace Bindery.Sha1

open Digest

/-- The five words that are mixed. -/
structure State where
  a : UInt32
  b : UInt32
  c : UInt32
  d : UInt32
  e : UInt32
  deriving DecidableEq, Repr

def State.start : State :=
  { a := 0x67452301, b := 0xefcdab89, c := 0x98badcfe, d := 0x10325476, e := 0xc3d2e1f0 }

def rotate (x n : UInt32) : UInt32 := (x <<< n) ||| (x >>> (32 - n))

/-- What the number of a round makes of the middle words, and the constant of the round. -/
def mix (round : Nat) (b c d : UInt32) : UInt32 × UInt32 :=
  if round < 20 then ((b &&& c) ||| ((~~~b) &&& d), 0x5a827999)
  else if round < 40 then (b ^^^ c ^^^ d, 0x6ed9eba1)
  else if round < 60 then ((b &&& c) ||| (b &&& d) ||| (c &&& d), 0x8f1bbcdc)
  else (b ^^^ c ^^^ d, 0xca62c1d6)

/-- One round: mixes a word of the schedule into the state. -/
def State.round (s : State) (word : UInt32) (number : Nat) : State :=
  let (f, k) := mix number s.b s.c s.d
  { a := rotate s.a 5 + f + s.e + k + word, b := s.a, c := rotate s.b 30, d := s.c, e := s.d }

def State.add (s t : State) : State :=
  { a := s.a + t.a, b := s.b + t.b, c := s.c + t.c, d := s.d + t.d, e := s.e + t.e }

/-- The next word of a schedule, given the last sixteen, the latest first. -/
def nextWord (latest : List UInt32) : UInt32 :=
  let w (i : Nat) : UInt32 := latest[i - 1]?.getD 0
  rotate (w 3 ^^^ w 8 ^^^ w 14 ^^^ w 16) 1

/-- Adds words to a schedule that is kept backwards. -/
def extend : Nat → List UInt32 → List UInt32
  | 0, backwards => backwards
  | n + 1, backwards => extend n (nextWord backwards :: backwards)

def schedule (block : List UInt32) : List UInt32 := (extend 64 block.reverse).reverse

def State.absorb (s : State) (block : List UInt32) : State :=
  s.add ((schedule block).zipIdx.foldl (fun t (w, n) => t.round w n) s)

/-- The digest of a message: twenty bytes. -/
def digest (message : Bytes) : Bytes :=
  let words := wordsOf (pad message)
  let final := (blocks (words.length / 16) words).foldl State.absorb State.start
  [final.a, final.b, final.c, final.d, final.e].flatMap fun w => bigEndian 4 w.toNat

def hex (message : Bytes) : Bytes := hexText (digest message)

end Bindery.Sha1
