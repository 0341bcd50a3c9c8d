import Bindery.Deflate.Inflate

/-!
# Gzip files

A gzip file is a sequence of members, each with a header, deflated data, and the checksum and the
length of what the data unpacks to.
-/

namespace Bindery.Gzip

/-! ## Checksums -/

def checksumBit (crc : UInt32) : UInt32 :=
  if crc &&& 1 == 1 then (crc >>> 1) ^^^ 0xEDB88320 else crc >>> 1

def checksumByte (crc : UInt32) (c : UInt8) : UInt32 :=
  (List.range 8).foldl (fun crc _ => checksumBit crc) (crc ^^^ c.toUInt32)

/-- The cyclic redundancy check of 32 bits. -/
def checksum (s : Bytes) : UInt32 := s.foldl checksumByte 0xFFFFFFFF ^^^ 0xFFFFFFFF

/-- The number that bytes stand for, the lowest first. -/
def littleEndian (s : Bytes) : Nat := s.foldr (fun c n => c.toNat + 256 * n) 0

/-! ## Headers -/

/-- Drops so many bytes, if there are as many. -/
def dropFixed? (n : Nat) (s : Bytes) : Option Bytes := if s.length < n then none else some (s.drop n)

/-- Drops a text that a zero byte ends. It has at most 511 bytes. -/
def dropName? (s : Bytes) : Option Bytes :=
  match Text.cutByte? 0 s with
  | some (name, rest) => if name.length < 512 then some rest else none
  | none => none

/-- What follows the header of a member. Extra data, a name and a comment are skipped; a checksum of
the header is checked. -/
def afterHeader? (s : Bytes) : Option Bytes := do
  let rest ← dropFixed? 10 s
  guard (s.take 3 == [0x1F, 0x8B, 8])
  let flags := (s[3]?.getD 0).toNat
  guard (flags < 32)
  -- extra data
  let rest ← if flags.testBit 2 then do
      let data ← dropFixed? 2 rest
      dropFixed? (littleEndian (rest.take 2)) data
    else pure rest
  -- the name
  let rest ← if flags.testBit 3 then dropName? rest else pure rest
  -- the comment
  let rest ← if flags.testBit 4 then dropName? rest else pure rest
  -- the checksum of the header
  if flags.testBit 1 then do
    let data ← dropFixed? 2 rest
    let header := s.take (s.length - rest.length)
    guard (littleEndian (rest.take 2) == (checksum header).toNat % 65536)
    pure data
  else pure rest

/-! ## Files -/

/-- The content of a file that was unpacked, as far as it is intact. -/
structure Content where
  bytes : Bytes
  intact : Bool
  deriving DecidableEq, Repr

/-- Whether a member's checksum and length fit its content. -/
def fits (content trailer : Bytes) : Bool :=
  littleEndian (trailer.take 4) == (checksum content).toNat
    && littleEndian ((trailer.drop 4).take 4) == content.length % Nat.pow 2 32

/-- Unpacks the members from the data of one on. Each takes bytes, so the length of the file bounds
their number. -/
def membersWithin : Nat → Bytes → Content
  | 0, _ => { bytes := [], intact := false }
  | bound + 1, data =>
    let member := Deflate.inflate data
    match member.rest with
    | none => { bytes := member.output, intact := false }
    | some trailer =>
      match dropFixed? 8 trailer with
      | none => { bytes := member.output, intact := false }
      | some next =>
        if !fits member.output trailer then { bytes := member.output, intact := false }
        else if next.isEmpty then { bytes := member.output, intact := true }
        else
          match afterHeader? next with
          | none => { bytes := member.output, intact := false }
          | some data =>
            let others := membersWithin bound data
            { others with bytes := member.output ++ others.bytes }

/-- Unpacks a file. Nothing comes of a file that does not start with a header. -/
def unpack? (file : Bytes) : Option Content :=
  (afterHeader? file).map fun data => membersWithin file.length data

end Bindery.Gzip
