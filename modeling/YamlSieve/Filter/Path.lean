import YamlSieve.Filter.Cursor
import YamlSieve.Filter.Token

/-!
# Path steps

A run of path steps is read from the front of a token list, the longest form of a step first, and
ends at the first token that continues no step. A lone dot is no step and is passed over.
-/

namespace YamlSieve

/-- A step of a path. -/
inductive PathStep where
  /-- The step `.key`. -/
  | key (key : String)
  /-- The step `.key[]`. -/
  | flattenKey (key : String)
  /-- The step `.[]`. -/
  | flatten
deriving DecidableEq, Repr

namespace PathStep

def tokens : PathStep → List Token
  | key k        => [.delim '.', .word k]
  | flattenKey k => [.delim '.', .word k, .delim '[', .delim ']']
  | flatten      => [.delim '.', .delim '[', .delim ']']

def apply (cursor : Cursor) : PathStep → Cursor
  | key k        => cursor.collectKey k
  | flattenKey k => cursor.flattenKey k
  | flatten      => cursor.flatten

def applyAll (cursor : Cursor) (steps : List PathStep) : Cursor :=
  steps.foldl apply cursor

/-- Reads the run of path steps at the front, and gives it with the tokens after it. -/
def readRun : List Token → List PathStep × List Token
  | .delim '.' :: .word k :: .delim '[' :: .delim ']' :: ts =>
    let (steps, rest) := readRun ts
    (flattenKey k :: steps, rest)
  | .delim '.' :: .delim '[' :: .delim ']' :: ts =>
    let (steps, rest) := readRun ts
    (flatten :: steps, rest)
  | .delim '.' :: .word k :: ts =>
    let (steps, rest) := readRun ts
    (key k :: steps, rest)
  | .delim '.' :: ts => readRun ts
  | ts               => ([], ts)

end PathStep
end YamlSieve
