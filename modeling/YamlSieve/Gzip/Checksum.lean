/-!
# Checksums

The cyclic redundancy check of 32 bits that guards compressed data. It is the remainder of a
division of polynomials over two elements, written with the lowest power in the highest bit.
-/

namespace YamlSieve.Gzip

/-- The divisor without its leading power. -/
def divisor : UInt32 := 0xedb88320

/-- The remainder after one more bit. -/
def shiftRemainder (remainder : UInt32) : UInt32 :=
  if remainder &&& 1 = 0 then remainder >>> 1 else (remainder >>> 1) ^^^ divisor

def extendRemainder (remainder : UInt32) (byte : UInt8) : UInt32 :=
  Nat.repeat shiftRemainder 8 (remainder ^^^ byte.toUInt32)

/-- The checksum of a byte string. -/
def checksum (data : ByteArray) : UInt32 :=
  data.foldl extendRemainder 0xffffffff ^^^ 0xffffffff

end YamlSieve.Gzip
