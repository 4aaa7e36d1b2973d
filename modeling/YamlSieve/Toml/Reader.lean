/-!
# Readers of configuration text

A reader takes characters from the front of a text, or fails. When it fails, another one can be
tried at the same place.
-/

namespace YamlSieve.Toml

/-- Takes characters from the front of a text. -/
abbrev Reader := StateT (List Char) Option

namespace Reader

variable {α β : Type}

/-! ### Single characters -/

def peek? : Reader (Option Char) := do return (← get).head?

/-- Reads a character of a class. -/
def satisfying (admits : Char → Bool) : Reader Char := do
  match ← get with
  | []      => failure
  | c :: cs => if admits c then do set cs; return c else failure

def character (c : Char) : Reader Unit := discard (satisfying (· = c))

def word : List Char → Reader Unit
  | []      => return
  | c :: cs => do character c; word cs

/-! ### Repetition -/

/-- Reads at most so many items, as long as there are some. -/
def upTo (item : Reader α) : Nat → Reader (List α)
  | 0     => return []
  | n + 1 => (do return (← item) :: (← upTo item n)) <|> return []

/-- Reads items as long as there are some. Each of them takes a character at least. -/
def many (item : Reader α) : Reader (List α) := do upTo item (← get).length

def atLeastOne (item : Reader α) : Reader (List α) := do return (← item) :: (← many item)

def exactly (item : Reader α) : Nat → Reader (List α)
  | 0     => return []
  | n + 1 => do return (← item) :: (← exactly item n)

def separated (item : Reader α) (separator : Reader β) : Reader (List α) := do
  return (← item) :: (← many (do let _ ← separator; item))

/-- The characters that a reader takes. -/
def spelling (reader : Reader α) : Reader (List Char) := do
  let before ← get
  let _ ← reader
  return before.take (before.length - (← get).length)

/-! ### Blanks and line ends -/

def blanks : Reader Unit := discard (many (satisfying fun c => c = ' ' || c = '\t'))

def lineBreak : Reader Unit := do
  let _ ← optional (character '\r')
  character '\n'

/-- Whether a character can stand in a text on a line: no control character but the tab. -/
def isPrintable (c : Char) : Bool :=
  c = '\t' || (0x20 ≤ c.toNat && c.toNat ≠ 0x7f)

def comment : Reader Unit := do
  character '#'
  discard (many (satisfying isPrintable))

def atEnd : Reader Unit := do guard (← get).isEmpty

/-- Reads the rest of a line, which holds nothing but a comment. -/
def lineEnd : Reader Unit := do
  blanks
  let _ ← optional comment
  lineBreak <|> atEnd

def gap : Reader Unit := do
  blanks
  discard (many (do let _ ← optional comment; lineBreak; blanks))

end Reader
end YamlSieve.Toml
