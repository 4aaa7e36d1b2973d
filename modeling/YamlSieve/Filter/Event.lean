import YamlSieve.Filter.Token

/-!
# Events

The events of an expression are its structure without its texts: where a step starts, where a run
of path steps or a call begins and ends, and where the expression closes.
-/

namespace YamlSieve

/-- A structural event of an expression. -/
inductive Event where
  /-- The start of the expression, or a `|` between two steps. -/
  | boundary
  /-- A run of path steps. -/
  | path
  /-- The opening or the closing parenthesis of a call. -/
  | call
  /-- The closing single quote. -/
  | close
deriving DecidableEq, Repr

namespace Event

def name : Event → String
  | boundary => "PipeBoundary"
  | path     => "ObjectIndexStep"
  | call     => "FunctionOperatorStep"
  | close    => "End"

/--
The events of the tokens after the start of the expression.

Inside a run of path steps a further dot is no event, and inside parentheses neither a dot nor a
`|` is one. A closing parenthesis without an open one is no event either.
-/
def ofSteps (inRun : Bool) (depth : Nat) : List Token → List Event
  | []                 => []
  | .delim '\'' :: ts  => close :: ofSteps inRun depth ts
  | .delim '|' :: ts   =>
    if depth = 0 then boundary :: ofSteps false depth ts else ofSteps inRun depth ts
  | .delim '.' :: ts   =>
    if depth = 0 && !inRun then path :: ofSteps true depth ts else ofSteps inRun depth ts
  | .delim '(' :: ts   => call :: ofSteps inRun (depth + 1) ts
  | .delim ')' :: ts   =>
    match depth with
    | 0         => ofSteps inRun 0 ts
    | depth + 1 => call :: ofSteps (inRun && depth ≠ 0) depth ts
  | _ :: ts            => ofSteps inRun depth ts

/-- The events of an expression. The first is the start, whether a single quote marks it or not. -/
def ofTokens : List Token → List Event
  | .delim '\'' :: ts => boundary :: ofSteps false 0 ts
  | ts                => boundary :: ofSteps false 0 ts

end Event
end YamlSieve
