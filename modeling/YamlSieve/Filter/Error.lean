import YamlSieve.Filter.Event

/-!
# Failures of a filter

A filter fails on the text of its expression, on the order of its tokens, or because it took more
steps than it was allowed.
-/

namespace YamlSieve

inductive Phase where
  | start
  | pipe
  | path
  | call
  | done
  | failed
deriving DecidableEq, Repr

def Phase.name : Phase → String
  | start  => "Start"
  | pipe   => "Pipe"
  | path   => "Oii"
  | call   => "FunctionOperator"
  | done   => "End"
  | failed => "Error"

inductive FilterError.Kind where
  | lexical
  | grammatical
  | stepLimit
deriving DecidableEq, Repr

/-- What ends an evaluation without a result. -/
inductive FilterError where
  /-- A double quote is left open. -/
  | unterminatedString
  /-- The expression has fewer than two tokens. -/
  | tooFewArguments
  /-- The first or the last token is not a single quote. -/
  | notQuoted
  /-- A run of path steps does not start with a dot. -/
  | noDot
  /-- Tokens are missing. -/
  | missingArguments
  /-- A call does not start with a name and an opening parenthesis. -/
  | notACall
  /-- The call of an unknown function. -/
  | invalidFunction (name : String)
  /-- A call has no closing parenthesis. -/
  | unterminatedCall
  /-- The text between the path and the literal of a predicate is no operator. -/
  | invalidOperator (text : String)
  /-- A predicate goes on after its literal. -/
  | unexpectedInPredicate (token : Token)
  /-- A step is not followed by a `|`. -/
  | noPipe
  /-- A token stands where none is allowed. -/
  | unexpectedToken (token : Token)
  /-- The expression ends without a single quote. -/
  | noClosingQuote
  /-- An event arises in a phase that has no use for it. -/
  | unexpectedEvent (event : Event) (phase : Phase)
  /-- The evaluation took more steps than this. -/
  | stepLimitExceeded (limit : Nat)
  /-- A failure that a caller of the evaluation reports in its own words. -/
  | reported (kind : FilterError.Kind) (message : String)
deriving DecidableEq, Repr

namespace FilterError

def kind : FilterError → Kind
  | unterminatedString  => .lexical
  | stepLimitExceeded _ => .stepLimit
  | reported kind _     => kind
  | _                   => .grammatical

/-- The diagnostic of a failure, without its kind. -/
def message : FilterError → String
  | unterminatedString          => "unterminated string: missing closing double quote"
  | tooFewArguments             => "too few arguments"
  | notQuoted                   => "command must be enclosed in single quotes"
  | noDot                       => "object index must start with a dot"
  | missingArguments            => "missing arguments"
  | notACall                    => "function operator must start with a name followed by '('"
  | invalidFunction name        => "invalid function operator '" ++ name ++ "'"
  | unterminatedCall            => "unterminated function operator: missing ')'"
  | invalidOperator text        => "invalid logical operator '" ++ text ++ "'"
  | unexpectedInPredicate token => "unexpected token '" ++ token.text ++ "' in predicate"
  | noPipe                      => "expected '|' between steps"
  | unexpectedToken token       => "unexpected token '" ++ token.text ++ "'"
  | noClosingQuote              => "missing closing single quote"
  | unexpectedEvent event phase =>
    "unexpected event in state: " ++ event.name ++ " in " ++ phase.name
  | stepLimitExceeded limit     => "step limit of " ++ toString limit ++ " exceeded"
  | reported _ message          => message

def display : FilterError → String
  | stepLimitExceeded limit => "evaluation stopped after " ++ toString limit ++ " steps"
  | error                   =>
    match error.kind with
    | .lexical     => "lex error: " ++ error.message
    | .grammatical => "syntax error: " ++ error.message
    | .stepLimit   => error.message

end FilterError
end YamlSieve
