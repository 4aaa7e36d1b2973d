/-!
# Character classes of YAML

Each class is a test on characters. A text that has ended is treated like one that goes on with a
line break, so the tests of what may follow take an optional character.
-/

namespace YamlSieve.Yaml

/-- Line feed and carriage return end a line. -/
def isBreak (c : Char) : Bool := c = '\n' || c = '\r'

/-- Space and tab separate within a line. -/
def isWhite (c : Char) : Bool := c = ' ' || c = '\t'

def isFlowIndicator (c : Char) : Bool := c = ',' || c = '[' || c = ']' || c = '\x7b' || c = '\x7d'

/-- The characters of directive names and tag handles. -/
def isNameChar (c : Char) : Bool := c.isAlphanum || c = '_' || c = '-'

def isUriChar (c : Char) : Bool :=
  (isNameChar c && c != '_') || c ∈ "#;/?:@&=+$,_.!~*'()[]%".toList

def isTagChar (c : Char) : Bool := isUriChar c && !isFlowIndicator c && c != '!'

def isAnchorChar (c : Char) : Bool :=
  !isBreak c && !isWhite c && !isFlowIndicator c && c != '\ufeff'

def endsLine : Option Char → Bool
  | some c => isBreak c
  | none   => true

/-- Whether a word ends where this character stands. -/
def endsWord : Option Char → Bool
  | some c => isBreak c || isWhite c
  | none   => true

def isFlow : Option Char → Bool
  | some c => isFlowIndicator c
  | none   => false

end YamlSieve.Yaml
