/-!
# Binary floating point

The values of the format binary64. A magnitude is given by its rank, the number of smaller
magnitudes: rank 0 is zero, the ranks below 2 ^ 52 are subnormal, and the last rank is infinity.
Ranks have the order of the magnitudes they stand for, so comparing values is comparing whole
numbers. Every magnitude is a whole number of units of 2 ^ -1074.
-/

namespace YamlSieve

def Binary64.infinityRank : Nat := 2047 * Nat.pow 2 52

/-- A binary64 value: no number at all, or a signed magnitude given by its rank. -/
inductive Binary64 where
  | nan
  | number (negative : Bool) (rank : Fin (Binary64.infinityRank + 1))
deriving DecidableEq, Repr

namespace Binary64

/-- The value with the given sign and rank; greater ranks than that of infinity are infinity. -/
def ofRank (negative : Bool) (rank : Nat) : Binary64 :=
  .number negative ⟨min rank infinityRank, Nat.lt_succ_of_le (Nat.min_le_right ..)⟩

def infinity (negative : Bool) : Binary64 := ofRank negative infinityRank

def isFinite : Binary64 → Bool
  | nan           => false
  | number _ rank => rank.val < infinityRank

/-- The place of a number in the order of all numbers; both zeros have the place 0. -/
def place : Binary64 → Option Int
  | nan               => none
  | number false rank => some rank.val
  | number true rank  => some (-rank.val)

/-- The order of two numbers; NaN has no place in it. -/
def order (x y : Binary64) : Option Ordering :=
  match x.place, y.place with
  | some i, some j => some (compareOfLessAndEq i j)
  | _, _           => none

/-- Equality of values: the two zeros are equal, and NaN is equal to nothing. -/
def same (x y : Binary64) : Bool :=
  x.order y == some .eq

/-- The number of binary places by which the significand of a rank is shifted. -/
def shift (rank : Nat) : Nat := rank / Nat.pow 2 52 - 1

/-- The magnitude of a rank, in units of 2 ^ -1074. -/
def units (rank : Nat) : Nat := (rank - shift rank * Nat.pow 2 52) * Nat.pow 2 (shift rank)

/-- The whole number nearest to a quotient; a tie goes to the even neighbour. -/
def divideToEven (num den : Nat) : Nat :=
  let down := num / den
  match compareOfLessAndEq (2 * (num % den)) den with
  | .lt => down
  | .gt => down + 1
  | .eq => down + down % 2

/--
The rank of the magnitude nearest to `num / den`; a tie goes to the even rank.

A shift by `k` leaves 53 binary places of the quotient above the units (or all of them, below
2 ^ -1022), and a significand that rounds up to 2 ^ 53 is the first of the next shift.
-/
def nearestRank (num den : Nat) : Nat :=
  let scaled := num * Nat.pow 2 1074
  let k := Nat.log2 (scaled / den) - 52
  k * Nat.pow 2 52 + divideToEven scaled (den * Nat.pow 2 k)

/-- The value nearest to a signed quotient. -/
def ofRatio (negative : Bool) (num den : Nat) : Binary64 :=
  ofRank negative (nearestRank num den)

end Binary64
end YamlSieve
