import YamlSieve.Yaml.Character
import YamlSieve.Yaml.Error

/-!
# Input

The text that is still to be read, with the place of its first character.
-/

namespace YamlSieve.Yaml

/-- A place in a text. -/
structure Position where
  index  : Nat
  line   : Nat
  column : Nat
deriving DecidableEq, Repr

/-- The rest of a text. -/
structure Input where
  rest     : List Char
  position : Position
  /-- Whether only white space stands before the position on its line. -/
  atMargin : Bool
  /-- The length of the whole text, a bound for every loop over the rest. -/
  size     : Nat

namespace Input

/-- The start of a text. A text ends in front of its first NUL character. -/
def ofText (text : String) : Input :=
  let rest := text.toList.takeWhile (· != '\x00')
  ⟨rest, ⟨0, 0, 0⟩, true, rest.length⟩

def column (input : Input) : Nat := input.position.column

def peek? (input : Input) : Option Char := input.rest.head?

def peekNth? (n : Nat) (input : Input) : Option Char := input.rest[n]?

/-- Passes `n` characters of one line. -/
def passed (n : Nat) (rest : List Char) (input : Input) : Input :=
  { input with
    rest     := rest
    position := ⟨input.position.index + n, input.position.line, input.column + n⟩ }

/-- Passes `n` characters of one line that are not all white. -/
def skip (n : Nat) (input : Input) : Input :=
  { input.passed n (input.rest.drop n) with atMargin := false }

def skipWhite (input : Input) : Input := input.passed 1 (input.rest.drop 1)

/-- Passes a line break; a carriage return and a line feed are one. -/
def skipBreak (input : Input) : Input :=
  let (n, rest) : Nat × List Char :=
    match input.rest with
    | '\r' :: '\n' :: rest => (2, rest)
    | _ :: rest            => (1, rest)
    | []                   => (0, [])
  { input with
    rest     := rest
    position := ⟨input.position.index + n, input.position.line + 1, 0⟩
    atMargin := true }

/-- Takes the characters of the line that pass a test. -/
def takeWhile (test : Char → Bool) (input : Input) : List Char × Input :=
  let taken := input.rest.takeWhile test
  (taken, if taken.isEmpty then input else input.skip taken.length)

def skipWhites (input : Input) : Input :=
  let n := (input.rest.takeWhile isWhite).length
  input.passed n (input.rest.drop n)

def skipLine (input : Input) : Input := (input.takeWhile fun c => !isBreak c).2

/-- The white space that stood between two tokens of a line. -/
structure Gap where
  tabs   : Bool
  spaces : Bool

/-- Passes white space, with or without tabs, and a comment after it. -/
def skipGap (tabs : Bool) (input : Input) : Except SyntaxError (Gap × Input) :=
  let whites := input.rest.takeWhile fun c => c = ' ' || (tabs && c = '\t')
  let after := input.passed whites.length (input.rest.drop whites.length)
  let gap : Gap := ⟨whites.contains '\t', whites.contains ' '⟩
  if after.peek? = some '#' then
    if whites.isEmpty then .error .unseparatedComment else .ok (gap, after.skipLine)
  else
    .ok (gap, after)

/-- Passes white space and a comment up to the end of the line or the next token. -/
def skipToToken (input : Input) : Except SyntaxError Input :=
  (input.skipGap true).map Prod.snd

def isMarker (c : Char) (input : Input) : Bool :=
  match input.rest with
  | x :: y :: z :: rest => x = c && y = c && z = c && endsWord rest.head?
  | _                   => false

def atDocumentMarker (input : Input) : Bool :=
  input.column = 0 && (input.isMarker '-' || input.isMarker '.')

end Input
end YamlSieve.Yaml
