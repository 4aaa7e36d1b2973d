import YamlSieve.Filter.Comparison
import YamlSieve.Filter.Error
import YamlSieve.Filter.Path

/-!
# Predicates and selection

A predicate is a path, an operator and a literal. It matches a node when the path leads from the
node to a scalar whose text compares true with the literal.
-/

namespace YamlSieve

/-- A comparison of the scalar at the end of a path with a literal. -/
structure Predicate where
  path     : List PathStep
  operator : Comparison
  literal  : String
deriving DecidableEq, Repr

namespace Predicate

def isOperatorToken : Token → Bool
  | .delim c => c = '!' || c = '=' || c = '<' || c = '>'
  | .word _  => false

/-- Reads the literal at the end of a predicate, and gives what is left of the tokens. -/
def readLiteral (path : List PathStep) (operator : Comparison) :
    List Token → Except FilterError Predicate × List Token
  | .word literal :: []         => (.ok ⟨path, operator, literal⟩, [])
  | .word _ :: extra :: ts      => (.error (.unexpectedInPredicate extra), extra :: ts)
  | ts                          => (.error .missingArguments, ts)

/-- Reads operator and literal after the path of a predicate. -/
def readComparison (path : List PathStep) :
    List Token → Except FilterError Predicate × List Token
  | t :: u :: ts =>
    let tokens := t :: u :: ts
    let run := tokens.takeWhile isOperatorToken
    let text := if run.isEmpty then t.text else String.join (run.map Token.text)
    match Comparison.ofText text with
    | .invalid => (.error (.invalidOperator text), tokens)
    | operator => readLiteral path operator (tokens.drop run.length)
  | ts => (.error .missingArguments, ts)

/--
Reads a predicate that takes up all tokens. Beside the result stand the tokens that were not read,
all of them when the failure is found before anything but the path was passed.
-/
def read (tokens : List Token) : Except FilterError Predicate × List Token :=
  let (path, rest) := PathStep.readRun tokens
  readComparison path rest

/-- Whether the path leads to a scalar that compares true with the literal. -/
def holds (predicate : Predicate) (node : Node) : Bool :=
  match (PathStep.applyAll (.borrow node) predicate.path).node.scalarText? with
  | some text => predicate.operator.holds text predicate.literal
  | none      => false

end Predicate

/--
Keeps what a predicate matches: of a sequence the matching items, any other node as a whole, or
nothing.
-/
def Cursor.select (predicate : Predicate) (cursor : Cursor) : Cursor :=
  match cursor.node with
  | .sequence items => own (.sequence (items.filter predicate.holds))
  | node            => if predicate.holds node then cursor else absent

end YamlSieve
