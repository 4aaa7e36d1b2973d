import YamlSieve.Filter.Call

/-!
# Sessions

A session is a reading position in a list of tokens that a caller moves by hand. Positions and
counts are 64-bit words, and their sum is taken before it is cut off at the end of the tokens: a sum
that is no word stops the program, so an operation with a count may give nothing at all.
-/

namespace YamlSieve

/-- A list of tokens with a reading position. -/
structure Session where
  tokens      : List Token
  position    : Nat
  position_le : position ≤ tokens.length

namespace Session

def new (tokens : List Token) : Session := ⟨tokens, 0, Nat.zero_le _⟩

def remaining (s : Session) : List Token := s.tokens.drop s.position

def length (s : Session) : Nat := s.tokens.length - s.position

/-- The place a count after the position, if the sum is a word. -/
def offset? (s : Session) (count : UInt64) : Option Nat :=
  let place := s.position + count.toNat
  if place < UInt64.size then some place else none

def peek? (s : Session) : Option Token := s.tokens[s.position]?

/-- The token a count after the position, if one stands there; nothing at all on an overflow. -/
def peekNth? (s : Session) (count : UInt64) : Option (Option Token) :=
  (s.offset? count).map fun place => s.tokens[place]?

/-- The last token, if it is not passed yet. -/
def last? (s : Session) : Option Token := s.remaining.getLast?

/-- The number of tokens before the first one that passes a test. -/
def find? (s : Session) (test : Token → Bool) : Option Nat := s.remaining.findIdx? test

/-- Moves the position to a place, at most to the end. -/
def moveTo (s : Session) (place : Nat) : Session :=
  ⟨s.tokens, min place s.tokens.length, Nat.min_le_right ..⟩

/-- Moves the position by a count, at most to the end. -/
def advance? (s : Session) (count : UInt64) : Option Session := (s.offset? count).map s.moveTo

/-- A session of its own on the next tokens. -/
def window? (s : Session) (count : UInt64) : Option Session :=
  (s.offset? count).map fun place => new (s.remaining.take (place - s.position))

/-- Moves the position to where only the given tokens remain. -/
def leaving (s : Session) (rest : List Token) : Session :=
  s.moveTo (s.tokens.length - rest.length)

/-- Reads the run of path steps at the position. -/
def readRun (s : Session) : List PathStep × Session :=
  let (steps, rest) := PathStep.readRun s.remaining
  (steps, s.leaving rest)

/-- Reads a predicate that takes up all remaining tokens. -/
def readPredicate (s : Session) : Except FilterError Predicate × Session :=
  let (result, rest) := Predicate.read s.remaining
  (result, s.leaving rest)

/-- Moves a cursor along the run of path steps at the position. -/
def follow (s : Session) (cursor : Cursor) : Cursor × Session :=
  let (steps, s) := s.readRun
  (PathStep.applyAll cursor steps, s)

/-- Applies a function to the arguments at the position; a failure leaves the position. -/
def apply (s : Session) (name : String) (cursor : Cursor) :
    Except FilterError Cursor × Session :=
  match Function.apply name cursor s.remaining with
  | .ok (cursor, rest) => (.ok cursor, s.leaving rest)
  | .error e           => (.error e, s)

end Session
end YamlSieve
