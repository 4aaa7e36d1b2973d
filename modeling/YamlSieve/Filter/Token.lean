import YamlSieve.Text.Blank

/-!
# Tokens of a filter expression

An expression is split at delimiters, blank characters and double quotes. A delimiter is a token
of its own, a blank separates words, and the text between two double quotes is one word whatever
it holds.
-/

namespace YamlSieve

/-- A token of a filter expression. -/
inductive Token where
  | delim (c : Char)
  | word (text : String)
deriving DecidableEq, Repr

namespace Token

/-- The characters that end a word and form a token of their own. -/
def delimiters : List Char := ['.', ',', '|', '(', ')', '[', ']', '\'', '!', '=', '<', '>']

def text : Token → String
  | delim c   => String.singleton c
  | word text => text

def word? : Token → Option String
  | word text => some text
  | delim _   => none

/-- The word whose characters were collected in reverse, unless there are none. -/
def ofCollected : List Char → List Token
  | [] => []
  | cs => [word (String.ofList cs.reverse)]

mutual

/-- Reads tokens outside double quotes, after the collected characters of an open word. -/
def readOpen : List Char → List Char → Option (List Token)
  | collected, []      => some (ofCollected collected)
  | collected, c :: cs =>
    if c = '"' then
      (readQuoted [] cs).map (ofCollected collected ++ ·)
    else if c ∈ delimiters then
      (readOpen [] cs).map (ofCollected collected ++ delim c :: ·)
    else if Text.isBlank c then
      (readOpen [] cs).map (ofCollected collected ++ ·)
    else
      readOpen (c :: collected) cs

/-- Reads tokens after an opening double quote and the collected characters of the quoted word. -/
def readQuoted : List Char → List Char → Option (List Token)
  | _, []              => none
  | collected, c :: cs =>
    if c = '"' then
      (readOpen [] cs).map (word (String.ofList collected.reverse) :: ·)
    else
      readQuoted (c :: collected) cs

end

/-- The tokens of a text, unless a double quote is left open. -/
def tokenize? (text : String) : Option (List Token) :=
  readOpen [] text.toList

end Token
end YamlSieve
