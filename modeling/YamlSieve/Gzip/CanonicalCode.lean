import YamlSieve.Gzip.Bits

/-!
# Canonical codes

A canonical code is given by the lengths of its codewords alone: codewords of one length are
consecutive numbers in the order of their symbols, and the first one of a length follows, with a
zero appended, the last one of the length before.
-/

namespace YamlSieve.Gzip

def maxCodeLength : Nat := 15

/-- A canonical code. -/
structure CanonicalCode where
  /-- How many codewords there are of length one, two and so on. -/
  counts  : List Nat
  /-- The symbols in the order of their codewords. -/
  symbols : Array Nat

namespace CanonicalCode

def symbolsOfLength (lengths : List Nat) (length : Nat) : List Nat :=
  (lengths.zipIdx.filter fun entry => entry.1 = length).map Prod.snd

/-- The share of all bit strings of the greatest length that start with a codeword. -/
def coverage (counts : List Nat) : Nat :=
  counts.zipIdx.foldl (fun covered (count, n) =>
    covered + count * Nat.pow 2 (maxCodeLength - (n + 1))) 0

/--
The code in which each symbol has a codeword of the given length, where zero stands for none.
Every bit string has to start with exactly one codeword, unless there is at most one codeword.
-/
def ofLengths? (lengths : List Nat) : Option CanonicalCode :=
  let groups := (List.range maxCodeLength).map fun n => symbolsOfLength lengths (n + 1)
  let counts := groups.map List.length
  let symbols := groups.flatten
  if coverage counts = Nat.pow 2 maxCodeLength || symbols.length ≤ 1 then
    some ⟨counts, symbols.toArray⟩
  else
    none

/--
Reads on in a codeword, where `offset` is the distance of the bits that were read from the first
codeword of the length, and `index` the number of shorter codewords.
-/
def readFrom (symbols : Array Nat) (offset index : Nat) : List Nat → BitReader Nat
  | []              => failure
  | count :: counts => do
    let low ← BitReader.bit
    let offset := 2 * offset + low.toNat
    if offset < count then
      match symbols[index + offset]? with
      | some symbol => return symbol
      | none        => failure
    else
      readFrom symbols (offset - count) (index + count) counts

/-- Reads a codeword, and gives its symbol. -/
def readSymbol (code : CanonicalCode) : BitReader Nat :=
  readFrom code.symbols 0 0 code.counts

end CanonicalCode
end YamlSieve.Gzip
