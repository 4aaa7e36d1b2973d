import YamlSieve.Gzip.Checksum
import YamlSieve.Gzip.Inflate

/-!
# Compressed members

A member is compressed data between a header, which tells how to read it, and a trailer, with which
the outcome has to agree. Only the first member of a byte string counts.
-/

namespace YamlSieve.Gzip

/-- Whether a byte string starts like compressed data. -/
def hasMagic (data : ByteArray) : Bool :=
  data[0]? = some 0x1f && data[1]? = some 0x8b

def maxHeaderText : Nat := 65535

namespace BitReader

def skipText : Nat → BitReader Unit
  | 0        => failure
  | fuel + 1 => do
    if (← bits 8) ≠ 0 then
      skipText fuel

def header : BitReader Unit := do
  guard ((← bits 8) = 0x1f)
  guard ((← bits 8) = 0x8b)
  guard ((← bits 8) = 8)
  let flags ← bits 8
  guard (flags < 32)
  skipBytes 6
  if flags.testBit 2 then
    skipBytes (← bits 16)
  if flags.testBit 3 then
    skipText (maxHeaderText + 1)
  if flags.testBit 4 then
    skipText (maxHeaderText + 1)
  if flags.testBit 1 then
    let sum := (checksum (← bytesBefore)).toNat
    guard ((← bits 16) = sum % Nat.pow 2 16)

/-- Reads a member. The trailer holds the checksum and the size of the outcome. -/
def member : BitReader ByteArray := do
  header
  let output ← inflate
  align
  guard ((← bits 32) = (checksum output).toNat)
  guard ((← bits 32) = output.size % Nat.pow 2 32)
  return output

end BitReader

/-- The data that a byte string holds in compressed form. -/
def decompress? (data : ByteArray) : Option ByteArray := BitReader.member.run? data

end YamlSieve.Gzip
