import YamlSieve.Gzip.CanonicalCode

/-!
# Compressed blocks

Compressed data is a row of blocks. A block holds bytes as they are, or codewords for bytes and for
copies of what was produced before, with a fixed code or one that the block describes itself.
-/

namespace YamlSieve.Gzip

/-! ### Codes -/

/-- The codes of a block: one for bytes and lengths, one for distances. -/
structure BlockCodes where
  literals  : CanonicalCode
  distances : CanonicalCode

def fixedLiteralLengths : List Nat :=
  List.replicate 144 8 ++ List.replicate 112 9 ++ List.replicate 24 7 ++ List.replicate 8 8

def fixedDistanceLengths : List Nat := List.replicate 32 5

/-- The order in which the lengths of the codewords for lengths are written. -/
def lengthOrder : List Nat := [16, 17, 18, 0, 8, 7, 9, 6, 10, 5, 11, 4, 12, 3, 13, 2, 14, 1, 15]

/-- The least length of a copy for each symbol from 257 on, with the number of bits to add. -/
def copyLengths : Array (Nat × Nat) :=
  #[(3, 0), (4, 0), (5, 0), (6, 0), (7, 0), (8, 0), (9, 0), (10, 0), (11, 1), (13, 1), (15, 1),
    (17, 1), (19, 2), (23, 2), (27, 2), (31, 2), (35, 3), (43, 3), (51, 3), (59, 3), (67, 4),
    (83, 4), (99, 4), (115, 4), (131, 5), (163, 5), (195, 5), (227, 5), (258, 0)]

/-- The least distance of a copy for each symbol, with the number of bits to add. -/
def copyDistances : Array (Nat × Nat) :=
  #[(1, 0), (2, 0), (3, 0), (4, 0), (5, 1), (7, 1), (9, 2), (13, 2), (17, 3), (25, 3), (33, 4),
    (49, 4), (65, 5), (97, 5), (129, 6), (193, 6), (257, 7), (385, 7), (513, 8), (769, 8),
    (1025, 9), (1537, 9), (2049, 10), (3073, 10), (4097, 11), (6145, 11), (8193, 12), (12289, 12),
    (16385, 13), (24577, 13)]

namespace BitReader

/-- Reads the bits that a symbol of a table asks for, and adds them to its least value. -/
def tableValue (table : Array (Nat × Nat)) (symbol : Nat) : BitReader Nat :=
  match table[symbol]? with
  | some (least, extra) => return least + (← bits extra)
  | none                => failure

def code (lengths : List Nat) : BitReader CanonicalCode :=
  match CanonicalCode.ofLengths? lengths with
  | some code => return code
  | none      => failure

/-- Reads the lengths in front of a block, in the order in which they are written. -/
def orderedLengths : List Nat → BitReader (List (Nat × Nat))
  | []              => return []
  | symbol :: rest => do
    let length ← bits 3
    return (symbol, length) :: (← orderedLengths rest)

/-- Reads lengths of codewords up to the given number; `reversed` holds the ones before. -/
def codeLengths (lengthCode : CanonicalCode) (total : Nat) (reversed : List Nat) :
    Nat → BitReader (List Nat)
  | 0        => failure
  | fuel + 1 => do
    if reversed.length = total then
      return reversed.reverse
    if total < reversed.length then
      failure
    let symbol ← lengthCode.readSymbol
    if symbol < 16 then
      codeLengths lengthCode total (symbol :: reversed) fuel
    else if symbol = 16 then
      match reversed with
      | []          => failure
      | length :: _ => do
        let count := 3 + (← bits 2)
        codeLengths lengthCode total (List.replicate count length ++ reversed) fuel
    else if symbol = 17 then
      let count := 3 + (← bits 3)
      codeLengths lengthCode total (List.replicate count 0 ++ reversed) fuel
    else
      let count := 11 + (← bits 7)
      codeLengths lengthCode total (List.replicate count 0 ++ reversed) fuel

def dynamicCodes : BitReader BlockCodes := do
  let literalCount := 257 + (← bits 5)
  let distanceCount := 1 + (← bits 5)
  let lengthCount := 4 + (← bits 4)
  guard (literalCount ≤ 286 && distanceCount ≤ 30)
  let given ← orderedLengths (lengthOrder.take lengthCount)
  let lengthCode ← code ((List.range 19).map fun symbol => (given.lookup symbol).getD 0)
  let total := literalCount + distanceCount
  let lengths ← codeLengths lengthCode total [] (total + 1)
  return ⟨← code (lengths.take literalCount), ← code (lengths.drop literalCount)⟩

/-! ### Blocks -/

def storedBytes (output : ByteArray) : Nat → BitReader ByteArray
  | 0     => return output
  | n + 1 => do
    let byte ← bits 8
    storedBytes (output.push byte.toUInt8) n

def storedBlock (output : ByteArray) : BitReader ByteArray := do
  align
  let length ← bits 16
  let complement ← bits 16
  guard (length + complement = 0xffff)
  storedBytes output length

/-- Copies bytes from the given distance, which may be produced by the same copy. -/
def copy (distance : Nat) (output : ByteArray) : Nat → BitReader ByteArray
  | 0     => return output
  | n + 1 =>
    if distance ≤ output.size then
      match output[output.size - distance]? with
      | some byte => copy distance (output.push byte) n
      | none      => failure
    else
      failure

/-- Reads the codewords of a block up to its end. Each one takes a bit at least. -/
def codedBlock (codes : BlockCodes) (output : ByteArray) : Nat → BitReader ByteArray
  | 0        => failure
  | fuel + 1 => do
    let symbol ← codes.literals.readSymbol
    if symbol < 256 then
      codedBlock codes (output.push symbol.toUInt8) fuel
    else if symbol = 256 then
      return output
    else
      let length ← tableValue copyLengths (symbol - 257)
      let distance ← tableValue copyDistances (← codes.distances.readSymbol)
      codedBlock codes (← copy distance output length) fuel

/-- Reads blocks up to the last one. Each one takes three bits at least. -/
def blocks (bound : Nat) (output : ByteArray) : Nat → BitReader ByteArray
  | 0        => failure
  | fuel + 1 => do
    let last ← bit
    let output ←
      match ← bits 2 with
      | 0 => storedBlock output
      | 1 => do
        let codes := ⟨← code fixedLiteralLengths, ← code fixedDistanceLengths⟩
        codedBlock codes output bound
      | 2 => do codedBlock (← dynamicCodes) output bound
      | _ => failure
    if last then return output else blocks bound output fuel

/-- Reads compressed data. -/
def inflate : BitReader ByteArray := do
  let bound := 8 * (← read).size + 1
  blocks bound .empty bound

end BitReader
end YamlSieve.Gzip
