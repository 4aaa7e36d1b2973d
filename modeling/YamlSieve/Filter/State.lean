import YamlSieve.Filter.Call

/-!
# Evaluation

An evaluation goes from state to state, one event at a time, and reads the tokens of each step
from the front of the tokens that are left. The states `done` and `failed` are terminal: no
further event changes them.
-/

namespace YamlSieve

/-- A state of an evaluation. -/
inductive State where
  | start (cursor : Cursor)
  | pipe (cursor : Cursor)
  | path (cursor : Cursor)
  /-- After a call, whose closing parenthesis is yet to come while it is `pending`. -/
  | call (cursor : Cursor) (name : String) (pending : Bool)
  | done (cursor : Cursor)
  | failed (error : FilterError)

namespace State

def phase : State → Phase
  | start _    => .start
  | pipe _     => .pipe
  | path _     => .path
  | call _ _ _ => .call
  | done _     => .done
  | failed _   => .failed

/-- Whether no event changes the state any more. -/
def isTerminal : State → Bool
  | done _ | failed _ => true
  | _                 => false

/-- The cursor of a state, or its failure. -/
def result : State → Except FilterError Cursor
  | failed error => .error error
  | start cursor | pipe cursor | path cursor | call cursor _ _ | done cursor => .ok cursor

/-! ### Transitions

Each of the following functions makes one kind of step from the given cursor, and gives the next
state with the tokens that are left. -/

/-- Opens the expression: its first and its last token have to be single quotes. -/
def opening (cursor : Cursor) (tokens : List Token) : State × List Token :=
  match tokens with
  | first :: second :: rest =>
    if first = .delim '\'' ∧ (second :: rest).getLast? = some (.delim '\'') then
      if rest.isEmpty then (done cursor, []) else (pipe cursor, second :: rest)
    else
      (failed .notQuoted, tokens)
  | _ => (failed .tooFewArguments, tokens)

def follow (cursor : Cursor) (tokens : List Token) : State × List Token :=
  match tokens with
  | []              => (failed .missingArguments, tokens)
  | .delim '.' :: _ =>
    let (steps, rest) := PathStep.readRun tokens
    (path (PathStep.applyAll cursor steps), rest)
  | _               => (failed .noDot, tokens)

/-- Calls a function. -/
def invoke (cursor : Cursor) (tokens : List Token) : State × List Token :=
  match tokens with
  | .word name :: .delim '(' :: t :: ts =>
    match Function.apply name cursor (t :: ts) with
    | .ok (cursor, rest) => (call cursor name true, rest)
    | .error e           => (failed e, t :: ts)
  | _ :: _ :: _ :: _ => (failed .notACall, tokens)
  | _                => (failed .missingArguments, tokens)

/-- Passes a `|` between two steps. -/
def separate (cursor : Cursor) (tokens : List Token) : State × List Token :=
  match tokens with
  | .delim '|' :: rest => (pipe cursor, rest)
  | _                  => (failed .noPipe, tokens)

/-- Closes the expression: the last token is left, and it is a single quote. -/
def closing (cursor : Cursor) (tokens : List Token) : State × List Token :=
  match tokens with
  | [.delim '\''] => (done cursor, [])
  | t :: _        => (failed (.unexpectedToken t), tokens)
  | []            => (failed .noClosingQuote, tokens)

/-- An event inside or after a call: the call's own closing parenthesis, or a further call. -/
def afterCall (cursor : Cursor) (name : String) (pending : Bool) (tokens : List Token) :
    State × List Token :=
  match tokens with
  | .delim ')' :: rest =>
    if pending then (call cursor name false, rest)
    else (failed (.unexpectedToken (.delim ')')), tokens)
  | _ => invoke cursor tokens

/-- The state after an event, and the tokens that are left then. -/
def transition (event : Event) : State → List Token → State × List Token
  | done cursor,   tokens => (done cursor, tokens)
  | failed error,  tokens => (failed error, tokens)
  | start cursor,  tokens =>
    match event with
    | .boundary => opening cursor tokens
    | _         => (failed (.unexpectedEvent event .start), tokens)
  | pipe cursor,   tokens =>
    match event with
    | .path => follow cursor tokens
    | .call => invoke cursor tokens
    | _     => (failed (.unexpectedEvent event .pipe), tokens)
  | path cursor,   tokens =>
    match event with
    | .call     => invoke cursor tokens
    | .boundary => separate cursor tokens
    | .close    => closing cursor tokens
    | .path     => (failed (.unexpectedEvent event .path), tokens)
  | call cursor name pending, tokens =>
    match event with
    | .path     => follow cursor tokens
    | .call     => afterCall cursor name pending tokens
    | .boundary => separate cursor tokens
    | .close    => closing cursor tokens

def transitions (events : List Event) (state : State) (tokens : List Token) :
    State × List Token :=
  events.foldl (fun (state, tokens) event => state.transition event tokens) (state, tokens)

/--
Runs a state through a list of events up to the first terminal state, of which `steps` were made
before. A step limit stops it in front of the first step beyond the limit.
-/
def runFrom (limit : Option Nat) (steps : Nat) :
    List Event → State → List Token → Except FilterError Cursor
  | [],              state, _      => state.result
  | event :: events, state, tokens =>
    if state.isTerminal then
      state.result
    else
      match limit.filter (· ≤ steps) with
      | some n => .error (.stepLimitExceeded n)
      | none   =>
        let (state, tokens) := state.transition event tokens
        runFrom limit (steps + 1) events state tokens

/-- Evaluates tokens on a document, driven by the given events. -/
def run (tokens : List Token) (events : List Event) (root : Node) (limit : Option Nat) :
    Except FilterError Cursor :=
  runFrom limit 0 events (start (.borrow root)) tokens

end State
end YamlSieve
