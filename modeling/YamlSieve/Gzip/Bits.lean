/-!
# Bits of a byte string

Compressed data is read bit by bit, from the low end of each byte to its high end.
-/

namespace YamlSieve.Gzip

/--
Reads from the bits of a byte string, from a position on, and tells where it stopped. It fails
where the bits run out or are not what they should be.
-/
abbrev BitReader := ReaderT ByteArray (StateT Nat Option)

namespace BitReader

def bit : BitReader Bool := fun data position =>
  match data[position / 8]? with
  | some byte => some (byte.toNat.testBit (position % 8), position + 1)
  | none      => none

/-- Reads a number of so many bits, the lowest one first. -/
def bits : Nat → BitReader Nat
  | 0     => return 0
  | n + 1 => do
    let low ← bit
    let high ← bits n
    return low.toNat + 2 * high

/-- Passes the bits up to the next byte. -/
def align : BitReader Unit := modify fun position => (position + 7) / 8 * 8

def skipBytes (n : Nat) : BitReader Unit := modify fun position => position + 8 * n

/-- The bytes in front of the position, which has to be at the start of a byte. -/
def bytesBefore : BitReader ByteArray := do
  let position ← get
  return (← read).extract 0 (position / 8)

def run? {α : Type} (reader : BitReader α) (data : ByteArray) : Option α :=
  (reader data 0).map Prod.fst

end BitReader
end YamlSieve.Gzip
