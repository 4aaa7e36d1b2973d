import YamlSieve.Yaml.Input

/-!
# Plain scalars

A plain scalar is a text without quotes. Within a line its words keep the white space between
them; a line break between two words is a space, and further line breaks are kept.
-/

namespace YamlSieve.Yaml.Plain

/-- Whether a character goes on with a plain scalar, given the one after it. -/
def continues (inFlow : Bool) (c : Char) (next : Option Char) : Bool :=
  if c = ':' then
    !(endsWord next || (inFlow && isFlow next))
  else
    !(inFlow && isFlowIndicator c)

/-- The word in front of a text. -/
def word (inFlow : Bool) : List Char → List Char
  | []      => []
  | c :: cs =>
    if endsWord (some c) || !continues inFlow c cs.head? then [] else c :: word inFlow cs

/-- The text between two words that are `breaks` line breaks apart. -/
def separator (whites : List Char) : Nat → List Char
  | 0          => whites
  | 1          => [' ']
  | breaks + 2 => List.replicate (breaks + 1) '\n'

/--
Passes the white space and the line breaks after a word, and gives the text that they stand for.
In columns that are indentation, a tab is only allowed on an empty line.
-/
def skipSpace (indent : Int) (whites : List Char) (breaks : Nat) (input : Input) :
    Nat → Except SyntaxError (List Char × Input)
  | 0        => .ok (separator whites breaks, input)
  | fuel + 1 =>
    match input.peek? with
    | none   => .ok (separator whites breaks, input)
    | some c =>
      if isBreak c then
        skipSpace indent [] (breaks + 1) input.skipBreak fuel
      else if isWhite c then
        if !input.atMargin then
          skipSpace indent (whites ++ [c]) breaks input.skipWhite fuel
        else if input.column < indent && c = '\t' then
          match input.skipToToken with
          | .error e    => .error e
          | .ok skipped =>
            if endsLine skipped.peek? then skipSpace indent whites breaks skipped fuel
            else .error .tabIndentation
        else
          skipSpace indent whites breaks input.skipWhite fuel
      else
        .ok (separator whites breaks, input)

/-- Reads the words from here on, the first of them after the given text between words. -/
def readWords (inFlow : Bool) (indent : Int) (gap : List Char) (input : Input) :
    Nat → Except SyntaxError (List Char × Input)
  | 0        => .ok ([], input)
  | fuel + 1 =>
    if input.atDocumentMarker || input.peek? = some '#' then
      .ok ([], input)
    else if inFlow && input.peek? = some '-' && isFlow (input.peekNth? 1) then
      .error (.misplacedIndicator '-')
    else
      let next := word inFlow input.rest
      let text := if next.isEmpty then [] else gap ++ next
      let input := if next.isEmpty then input else input.skip next.length
      if input.rest.isEmpty || !endsWord input.peek? then
        .ok (text, input)
      else
        match skipSpace indent [] 0 input input.size with
        | .error e         => .error e
        | .ok (gap, input) =>
          if !inFlow && input.column < indent then
            .ok (text, input)
          else
            match readWords inFlow indent gap input fuel with
            | .error e           => .error e
            | .ok (words, input) => .ok (text ++ words, input)

/-- Reads a plain scalar whose further lines have to be indented by the given number of columns. -/
def read (inFlow : Bool) (indent : Int) (input : Input) :
    Except SyntaxError (String × Input) :=
  if inFlow && input.column < indent then
    .error .invalidIndentation
  else
    match readWords inFlow indent [] input (input.size + 1) with
    | .error e          => .error e
    | .ok ([], _)       => .error .emptyPlainScalar
    | .ok (text, input) => .ok (String.ofList text, input)

end YamlSieve.Yaml.Plain
