/-!
# Integer numerals

Reading whole numbers in a given base, and the 64-bit integers among them.
-/

namespace YamlSieve.Integer

/-- The value of a digit; letters of either case follow the decimal digits. -/
def digit? (base : Nat) (c : Char) : Option Nat :=
  let value : Option Nat :=
    if '0' ≤ c && c ≤ '9' then some (c.toNat - '0'.toNat)
    else if 'a' ≤ c && c ≤ 'z' then some (c.toNat - 'a'.toNat + 10)
    else if 'A' ≤ c && c ≤ 'Z' then some (c.toNat - 'A'.toNat + 10)
    else none
  value.filter (· < base)

/-- A hexadecimal digit; the letters go on from the digit of ten, in its case. -/
def hexDigit (ten : Char) (n : Nat) : Char :=
  if n < 10 then Char.ofNat ('0'.toNat + n) else Char.ofNat (ten.toNat + (n - 10))

theorem digit?_hexDigit {ten : Char} (hten : ten = 'a' ∨ ten = 'A') {n : Nat} (hn : n < 16) :
    digit? 16 (hexDigit ten n) = some n := by
  rcases hten with rfl | rfl
  · exact (by decide : ∀ n < 16, digit? 16 (hexDigit 'a' n) = some n) n hn
  · exact (by decide : ∀ n < 16, digit? 16 (hexDigit 'A' n) = some n) n hn

/-- Reads a row of digits, continuing the number read so far. -/
def readDigits? (base : Nat) : Nat → List Char → Option Nat
  | n, []      => some n
  | n, c :: cs =>
    match digit? base c with
    | some d => readDigits? base (base * n + d) cs
    | none   => none

def readNat? (base : Nat) : List Char → Option Nat
  | []      => none
  | c :: cs => readDigits? base 0 (c :: cs)

/-- Reads a number with an optional sign. -/
def read? (base : Nat) : List Char → Option Int
  | '-' :: cs => (readNat? base cs).map fun n => -(n : Int)
  | '+' :: cs => (readNat? base cs).map fun n => (n : Int)
  | cs        => (readNat? base cs).map fun n => (n : Int)

/-- The 64-bit integer with the given value, if there is one. -/
def toInt64? (i : Int) : Option Int64 :=
  if -0x8000000000000000 ≤ i ∧ i < 0x8000000000000000 then some (Int64.ofInt i) else none

def readInt64? (base : Nat) (cs : List Char) : Option Int64 :=
  (read? base cs).bind toInt64?

def text (i : Int64) : String := toString i.toInt

end YamlSieve.Integer
