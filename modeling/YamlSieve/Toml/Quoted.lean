import YamlSieve.Number.Integer
import YamlSieve.Toml.Reader

/-!
# Quoted texts

Texts between double quotes may hold escape sequences; texts between single quotes are taken as
they are. Between three quotes of either kind a text may hold line breaks, and one or two quotes.
-/

namespace YamlSieve.Toml.Reader

/-! ### Escape sequences -/

def characterNumber (digits : Nat) : Reader Char := do
  let cs ← exactly (satisfying fun c => (Integer.digit? 16 c).isSome) digits
  match Integer.readNat? 16 cs with
  | none   => failure
  | some n => if n.isValidChar then return Char.ofNat n else failure

/-- Reads an escape sequence. -/
def escape : Reader Char := do
  character '\\'
  match ← satisfying fun _ => true with
  | 'b'  => return '\x08'
  | 'f'  => return '\x0c'
  | 'n'  => return '\n'
  | 'r'  => return '\r'
  | 't'  => return '\t'
  | '"'  => return '"'
  | '\\' => return '\\'
  | 'u'  => characterNumber 4
  | 'U'  => characterNumber 8
  | _    => failure

/-- Reads a backslash at the end of a line, with all blanks and line breaks after it. -/
def escapedLineBreak : Reader Unit := do
  character '\\'
  blanks
  lineBreak
  discard (many (lineBreak <|> discard (satisfying fun c => c = ' ' || c = '\t')))

/-! ### Texts on a line -/

/-- Whether a character stands for itself between double quotes. -/
def isBasic (c : Char) : Bool := isPrintable c && c ≠ '"' && c ≠ '\\'

def isLiteral (c : Char) : Bool := isPrintable c && c ≠ '\''

/-- Reads a text between double quotes. -/
def basicText : Reader String := do
  character '"'
  let cs ← many (satisfying isBasic <|> escape)
  character '"'
  return .ofList cs

def literalText : Reader String := do
  character '\''
  let cs ← many (satisfying isLiteral)
  character '\''
  return .ofList cs

/-! ### Texts on several lines -/

/-- Reads quotes inside of a text between three of them: one or two, and no more. -/
def innerQuotes (quote : Char) : Reader (List Char) := do
  let quotes ← atLeastOne (satisfying (· = quote))
  guard (quotes.length ≤ 2)
  return quotes

/-- Reads the three quotes at the end of a text, with one or two more that belong to it. -/
def closingQuotes (quote : Char) : Reader (List Char) := do
  let quotes ← atLeastOne (satisfying (· = quote))
  guard (3 ≤ quotes.length && quotes.length ≤ 5)
  return quotes.drop 3

/-- Reads a text between three quotes that is made of the given parts. -/
def longText (quote : Char) (part : Reader (List Char)) : Reader String := do
  word [quote, quote, quote]
  let _ ← optional lineBreak
  let parts ← many (part <|> (do lineBreak; return ['\n']) <|> innerQuotes quote)
  let quotes ← closingQuotes quote
  return .ofList (parts.flatten ++ quotes)

def longBasicText : Reader String :=
  longText '"' <|
    atLeastOne (satisfying isBasic)
      <|> (do escapedLineBreak; return [])
      <|> (do return [← escape])

def longLiteralText : Reader String := longText '\'' (atLeastOne (satisfying isLiteral))

/-- Reads a quoted text of any kind. -/
def quotedText : Reader String := longBasicText <|> basicText <|> longLiteralText <|> literalText

end YamlSieve.Toml.Reader
