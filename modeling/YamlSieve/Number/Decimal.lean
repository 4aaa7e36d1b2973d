import YamlSieve.Number.Binary64

/-!
# Decimal numerals

A decimal is a whole number times a power of ten. This module reads decimals from text, gives the
binary64 value nearest to one, and finds the decimal with the fewest digits that reads back as a
given value.
-/

namespace YamlSieve

/-- The number `digits * 10 ^ exponent`. -/
structure Decimal where
  digits   : Nat
  exponent : Int
deriving DecidableEq, Repr

namespace Decimal

def digitValue (c : Char) : Nat := c.toNat - '0'.toNat

/-- The whole number that a row of decimal digits spells. -/
def ofDigits (cs : List Char) : Nat :=
  cs.foldl (fun n c => 10 * n + digitValue c) 0

def toDigits (n : Nat) : List Char := Nat.toDigits 10 n

/-- Exponents are read only up to this size: beyond it every value is zero or infinite. -/
def exponentBound : Nat := 655359

/-- Reads the exponent part of a numeral, which may be missing. -/
def readExponent? : List Char → Option Int
  | []      => some 0
  | c :: cs =>
    if c = 'e' || c = 'E' then
      let (negative, ds) : Bool × List Char :=
        match cs with
        | '-' :: ds => (true, ds)
        | '+' :: ds => (false, ds)
        | ds        => (false, ds)
      if ds.isEmpty || !ds.all Char.isDigit then
        none
      else
        let size : Int := min (ofDigits ds) exponentBound
        some (if negative then -size else size)
    else
      none

/--
Reads an unsigned numeral: digits with at most one point among or around them, and an optional
exponent.
-/
def read? (cs : List Char) : Option Decimal :=
  let whole := cs.takeWhile Char.isDigit
  let afterWhole := cs.dropWhile Char.isDigit
  let (fraction, rest) : List Char × List Char :=
    match afterWhole with
    | '.' :: ds => (ds.takeWhile Char.isDigit, ds.dropWhile Char.isDigit)
    | ds        => ([], ds)
  if whole.isEmpty && fraction.isEmpty then
    none
  else
    (readExponent? rest).map fun e => ⟨ofDigits (whole ++ fraction), e - fraction.length⟩

/--
The binary64 value nearest to a signed decimal.

A decimal of `n` digits lies between 10 ^ (n - 1 + exponent) and 10 ^ (n + exponent), so from
10 ^ 310 on it is infinite and below 10 ^ -330 it is zero, and no greater power is computed.
-/
def toBinary64 (negative : Bool) (d : Decimal) : Binary64 :=
  let size : Int := (toDigits d.digits).length + d.exponent
  if d.digits = 0 || size < -330 then
    .ofRank negative 0
  else if 311 < size then
    .infinity negative
  else if 0 ≤ d.exponent then
    .ofRatio negative (d.digits * Nat.pow 10 d.exponent.toNat) 1
  else
    .ofRatio negative d.digits (Nat.pow 10 (-d.exponent).toNat)

def infinityWords : List (List Char) :=
  [['i', 'n', 'f'], ['i', 'n', 'f', 'i', 'n', 'i', 't', 'y']]

/-- Reads the text after the sign of a floating point numeral. -/
def readUnsigned? (negative : Bool) (cs : List Char) : Option Binary64 :=
  let word := cs.map Char.toLower
  if word ∈ infinityWords then
    some (.infinity negative)
  else if word = ['n', 'a', 'n'] then
    some .nan
  else
    (read? cs).map (toBinary64 negative)

end Decimal

/--
Reads a floating point numeral: an optional sign, then a decimal, `inf`, `infinity` or `nan` in
any case.
-/
def Binary64.read? : List Char → Option Binary64
  | '-' :: cs => Decimal.readUnsigned? true cs
  | '+' :: cs => Decimal.readUnsigned? false cs
  | cs        => Decimal.readUnsigned? false cs

namespace Decimal

/-- Which neighbour a value halfway between two decimals goes to. -/
inductive Tie where
  | up
  | toEven
deriving DecidableEq, Repr

/-- Of the neighbours `d` and `d + 1` of `value` on a grid with the given step, the nearer one. -/
def nearer (tie : Tie) (value step d : Nat) : Nat :=
  match compareOfLessAndEq (2 * (value - d * step)) step, tie with
  | .lt, _       => d
  | .gt, _       => d + 1
  | .eq, .up     => d + 1
  | .eq, .toEven => d + d % 2

/--
The first grid of `n`, `n + 1`, ... digits that has a point in the interval of numbers which read
back as the value, and the nearer such point. All numbers are in units of 10 ^ -1075.
-/
def shortestFrom (tie : Tie) (value : Nat) (reads : Nat → Bool) (size n : Nat) : Nat → Decimal
  | 0        => ⟨value, -1075⟩
  | fuel + 1 =>
    let step := Nat.pow 10 (size - n)
    let d := value / step
    let exponent : Int := (size - n : Nat) - 1075
    match reads (d * step), reads ((d + 1) * step) with
    | true, true   => ⟨nearer tie value step d, exponent⟩
    | true, false  => ⟨d, exponent⟩
    | false, true  => ⟨d + 1, exponent⟩
    | false, false => shortestFrom tie value reads size (n + 1) fuel

/-- Moves the trailing zeros of the digits into the exponent. -/
def stripZeros (d : Decimal) : Nat → Decimal
  | 0        => d
  | fuel + 1 =>
    if d.digits ≠ 0 && d.digits % 10 = 0 then
      stripZeros ⟨d.digits / 10, d.exponent + 1⟩ fuel
    else
      d

/--
The decimal with the fewest digits that reads back as the magnitude with the given rank, and the
nearest to it of those.

A number reads back as the magnitude when it lies between the midpoints to the two neighbouring
magnitudes; the midpoints themselves do so when the rank is even. A midpoint is a whole number of
units of 2 ^ -1075, hence of 10 ^ -1075. Seventeen digits always suffice.
-/
def shortest (tie : Tie) (rank : Nat) : Decimal :=
  if rank = 0 then
    ⟨0, 0⟩
  else
    let five := Nat.pow 5 1075
    let value := 2 * Binary64.units rank * five
    let low := (Binary64.units (rank - 1) + Binary64.units rank) * five
    let high := (Binary64.units rank + Binary64.units (rank + 1)) * five
    let reads (x : Nat) : Bool :=
      (low < x && x < high) || (rank % 2 = 0 && (x = low || x = high))
    stripZeros (shortestFrom tie value reads (toDigits value).length 1 17) 20

end Decimal
end YamlSieve
