import YamlSieve.Number.Decimal
import YamlSieve.Text.Blank

/-!
# Comparison of scalar texts

Two texts that both spell finite numbers are compared as numbers. All others can only be equal or
different.
-/

namespace YamlSieve

/-- A comparison operator; `invalid` stands for a text that is none. -/
inductive Comparison where
  | equal
  | notEqual
  | greater
  | greaterOrEqual
  | less
  | lessOrEqual
  | invalid
deriving DecidableEq, Repr

namespace Comparison

def ofText (text : String) : Comparison :=
  if text = "==" then equal
  else if text = "!=" then notEqual
  else if text = ">" then greater
  else if text = ">=" then greaterOrEqual
  else if text = "<" then less
  else if text = "<=" then lessOrEqual
  else invalid

/-- Whether the operator holds of two numbers in the given order. -/
def accepts : Comparison → Ordering → Bool
  | equal,          o => o == .eq
  | notEqual,       o => o != .eq
  | greater,        o => o == .gt
  | greaterOrEqual, o => o != .lt
  | less,           o => o == .lt
  | lessOrEqual,    o => o != .gt
  | invalid,        _ => false

/-- The number that a text spells: it holds a digit, is finite, and may stand between blanks. -/
def number? (text : String) : Option Binary64 :=
  if text.toList.any Char.isDigit then
    (Binary64.read? (Text.trim text.toList)).filter Binary64.isFinite
  else
    none

/-- Whether the operator holds of two texts. -/
def holds (operator : Comparison) (lhs rhs : String) : Bool :=
  match number? lhs, number? rhs with
  | some x, some y =>
    match x.order y with
    | some o => operator.accepts o
    | none   => false
  | _, _ =>
    match operator with
    | equal    => lhs == rhs
    | notEqual => lhs != rhs
    | _        => false

end Comparison
end YamlSieve
