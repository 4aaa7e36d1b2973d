import YamlSieve.Number.Decimal
import YamlSieve.Number.Integer
import YamlSieve.Toml.Reader

/-!
# Numbers

Digits can be grouped by underscores. A whole number has 64 bits, and a floating point number is
not too large.
-/

namespace YamlSieve.Toml.Reader

/-- Reads digits of a base; an underscore can stand between two of them. -/
def digits (base : Nat) : Reader (List Char) :=
  let digit := satisfying fun c => (Integer.digit? base c).isSome
  do return (← digit) :: (← many (digit <|> do character '_'; digit))

def sign : Reader Char := satisfying fun c => c = '+' || c = '-'

/-- Reads a decimal number with an optional sign, which has no leading zeros. -/
def decimalDigits : Reader (List Char) := do
  let signs := (← optional sign).toList
  if (← peek?) = '0' then do
    character '0'
    return signs ++ ['0']
  else
    return signs ++ (← digits 10)

/-- Reads a whole number that is written in a base after a letter. -/
def basedInteger (letter : Char) (base : Nat) : Reader Int64 := do
  word ['0', letter]
  match Integer.readInt64? base (← digits base) with
  | some value => return value
  | none       => failure

/-- Reads a whole number. -/
def integer : Reader Int64 :=
  basedInteger 'x' 16 <|> basedInteger 'o' 8 <|> basedInteger 'b' 2 <|> do
    match Integer.readInt64? 10 (← decimalDigits) with
    | some value => return value
    | none       => failure

def exponent : Reader (List Char) := do
  let mark ← satisfying fun c => c = 'e' || c = 'E'
  let signs := (← optional sign).toList
  return mark :: signs ++ (← digits 10)

def fraction : Reader (List Char) := do
  character '.'
  return '.' :: (← digits 10)

/-- Reads the parts of a number that make it a floating point number. -/
def fractionOrExponent : Reader (List Char) := do
  match ← optional fraction with
  | some cs => return cs ++ (← optional exponent).getD []
  | none    => exponent

def specialFloat : Reader Binary64 := do
  let negative := (← optional sign) == '-'
  (do word ['i', 'n', 'f']; return .infinity negative) <|> (do word ['n', 'a', 'n']; return .nan)

/-- Reads a floating point number. One that is too large is refused, unless it is negative. -/
def float : Reader Binary64 :=
  (do
    let whole ← decimalDigits
    match Binary64.read? (whole ++ (← fractionOrExponent)) with
    | some value => if value.same (.infinity false) then failure else return value
    | none       => failure)
    <|> specialFloat

end YamlSieve.Toml.Reader
