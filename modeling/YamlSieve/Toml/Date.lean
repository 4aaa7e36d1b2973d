import YamlSieve.Toml.Number

/-!
# Dates and times

A date, a time of day, or both with an optional offset. Their parts are checked, and their spelling
is kept.
-/

namespace YamlSieve.Toml.Reader

/-- Reads a number of so many digits between two bounds. -/
def partBetween (length least most : Nat) : Reader Nat := do
  match Integer.readNat? 10 (← exactly (satisfying Char.isDigit) length) with
  | some n => if least ≤ n && n ≤ most then return n else failure
  | none   => failure

def isLeapYear (year : Nat) : Bool := year % 4 = 0 && (year % 100 ≠ 0 || year % 400 = 0)

def daysInMonth (year month : Nat) : Nat :=
  if month = 2 then
    if isLeapYear year then 29 else 28
  else if month ∈ [4, 6, 9, 11] then
    30
  else
    31

def date : Reader Unit := do
  let year ← partBetween 4 0 9999
  character '-'
  let month ← partBetween 2 1 12
  character '-'
  discard (partBetween 2 1 (daysInMonth year month))

/-- Reads a time of day; a minute may have a leap second. -/
def time : Reader Unit := do
  let _ ← partBetween 2 0 23
  character ':'
  let _ ← partBetween 2 0 59
  character ':'
  let _ ← partBetween 2 0 60
  discard (optional (do character '.'; atLeastOne (satisfying Char.isDigit)))

def offset : Reader Unit :=
  discard (satisfying fun c => c = 'Z' || c = 'z') <|> do
    let _ ← sign
    let _ ← partBetween 2 0 23
    character ':'
    discard (partBetween 2 0 59)

/-- Reads a date, a time of day, or both. -/
def dateTime : Reader String := do
  return .ofList (← spelling
    ((do
      date
      discard (optional (do
        let _ ← satisfying fun c => c = 'T' || c = 't' || c = ' '
        time
        optional offset)))
      <|> time))

end YamlSieve.Toml.Reader
