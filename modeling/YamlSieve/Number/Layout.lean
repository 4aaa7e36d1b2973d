import YamlSieve.Number.Decimal

/-!
# Number layouts

How a floating point value is written: positionally or with an exponent, and how the numbers that
are not finite are spelled.
-/

namespace YamlSieve

/-- The choices of a format that writes floating point values. -/
structure Layout where
  /-- Whether a number whose first digit stands for this power of ten is written positionally. -/
  positional     : Int → Bool
  /-- What follows the digits of a whole number written positionally. -/
  afterWhole     : String
  /-- What stands between the digits and a positive exponent. -/
  exponentMark   : String
  /-- Which way a value halfway between two candidates goes. -/
  tie            : Decimal.Tie
  /-- The spelling of infinity, negative or positive. -/
  infinity       : Bool → String
  /-- The spelling of NaN. -/
  nan            : String

namespace Layout

/-- Writes digits followed or preceded by as many zeros as the point requires. -/
def positionalText (l : Layout) (digits : List Char) (exponent : Int) : String :=
  if 0 ≤ exponent then
    String.ofList (digits ++ List.replicate exponent.toNat '0') ++ l.afterWhole
  else
    let places := (-exponent).toNat
    let padded := List.replicate (places + 1 - digits.length) '0' ++ digits
    let whole := padded.length - places
    String.ofList (padded.take whole) ++ "." ++ String.ofList (padded.drop whole)

/-- Writes one digit, the others after a point, and the exponent of the first. -/
def scientificText (l : Layout) (digits : List Char) (leading : Int) : String :=
  let fraction := digits.drop 1
  let mantissa :=
    if fraction.isEmpty then digits else digits.take 1 ++ '.' :: fraction
  String.ofList mantissa ++ (if leading < 0 then "e" else l.exponentMark) ++ toString leading

def decimalText (l : Layout) (d : Decimal) : String :=
  let digits := Decimal.toDigits d.digits
  let leading : Int := d.exponent + digits.length - 1
  if l.positional leading then
    l.positionalText digits d.exponent
  else
    l.scientificText digits leading

/-- The text of a floating point value. -/
def text (l : Layout) : Binary64 → String
  | .nan                  => l.nan
  | .number negative rank =>
    if rank.val = Binary64.infinityRank then
      l.infinity negative
    else
      (if negative then "-" else "") ++ l.decimalText (Decimal.shortest l.tie rank.val)

/-- Always positional, and whole numbers without a point. -/
def plain : Layout where
  positional   := fun _ => true
  afterWhole   := ""
  exponentMark := "e"
  tie          := .up
  infinity     := fun negative => if negative then "-inf" else "inf"
  nan          := "NaN"

/-- Positional from 1e-5 up to below 1e16, with a point in every such number. -/
def yaml : Layout where
  positional   := fun leading => -5 ≤ leading && leading < 16
  afterWhole   := ".0"
  exponentMark := "e"
  tie          := .toEven
  infinity     := fun negative => if negative then "-.inf" else ".inf"
  nan          := ".nan"

/-- As in YAML, but a positive exponent has a sign, and what is not finite is `null`. -/
def json : Layout :=
  { yaml with exponentMark := "e+", infinity := fun _ => "null", nan := "null" }

end Layout
end YamlSieve
