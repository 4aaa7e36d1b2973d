import YamlSieve.Number.Decimal
import YamlSieve.Number.Integer

/-!
# Styles of written scalars

A string is written plain, quoted, or as a literal block. It is written plain only if no reader of
the core schema could take it for anything else than this string.
-/

namespace YamlSieve.Yaml

/-- A style of a written scalar. -/
inductive Style where
  | plain
  | singleQuoted
  | doubleQuoted
  | literal
deriving DecidableEq, Repr

namespace Style

/-! ### Characters -/

/-- The characters that break a line when a scalar is written. -/
def isLineBreak (c : Char) : Bool :=
  c = '\n' || c = '\r' || c = '\u0085' || c = '\u2028' || c = '\u2029'

/-- The characters that are written as they are outside of double quotes. -/
def isPrintable (c : Char) : Bool :=
  c = '\n' || (' ' ≤ c && c ≤ '~') ||
    ('\u00a0' ≤ c && c ≠ '\ufeff' && c ≠ '\ufffe' && c ≠ '\uffff')

/-- The characters that separate words; the end of the text does so too. -/
def isSeparator : Option Char → Bool
  | some c => c = ' ' || c = '\t' || c = '\x00' || isLineBreak c
  | none   => true

def isSpacing (c : Char) : Bool := c = ' ' || isLineBreak c

/-! ### Properties of texts -/

/-- Whether a text holds two neighbours of which each passes its test. -/
def hasNeighbours (first second : Char → Bool) : List Char → Bool
  | c :: d :: cs => (first c && second d) || hasNeighbours first second (d :: cs)
  | _            => false

def startIndicators : List Char :=
  ['#', ',', '[', ']', '\x7b', '\x7d', '&', '*', '!', '|', '>', '\'', '"', '%', '@', '\x60']

/-- Whether a text starts like something else than a plain scalar. -/
def startsWithIndicator : List Char → Bool
  | '-' :: '-' :: '-' :: _ => true
  | '.' :: '.' :: '.' :: _ => true
  | c :: cs                =>
    c ∈ startIndicators || ((c = '?' || c = ':' || c = '-') && isSeparator cs.head?)
  | []                     => false

/-- Whether a colon in front of a separator or a `#` after one stands in a text. -/
def hasIndicator : List Char → Bool
  | []      => false
  | c :: cs =>
    (c = ':' && isSeparator cs.head?) || (isSeparator (some c) && cs.head? = some '#') ||
      hasIndicator cs

def atEnds (test : Char → Bool) (cs : List Char) : Bool :=
  cs.head?.any test || cs.getLast?.any test

/-- Whether all characters can be written as they are, and no space stands before a line break. -/
def isClean (cs : List Char) : Bool :=
  cs.all isPrintable && !hasNeighbours (· = ' ') isLineBreak cs

def allowsPlain (cs : List Char) : Bool :=
  isClean cs && !cs.any isLineBreak && !atEnds isSpacing cs && !startsWithIndicator cs &&
    !hasIndicator cs

def allowsSingle (cs : List Char) : Bool :=
  isClean cs && !hasNeighbours isLineBreak (· = ' ') cs

def allowsLiteral (cs : List Char) : Bool :=
  isClean cs && cs.getLast? ≠ some ' '

/-! ### Texts that spell other scalars -/

/-- Whether a text is a row of several digits that starts with a zero, perhaps after a sign. -/
def isZeroPadded (cs : List Char) : Bool :=
  let digits := match cs with
    | '-' :: ds => ds
    | '+' :: ds => ds
    | ds        => ds
  digits.head? = some '0' && 1 < digits.length && digits.all Char.isDigit

def base? : Char → Option Nat
  | 'x' => some 16
  | 'o' => some 8
  | 'b' => some 2
  | _   => none

/-- Whether a text spells a number in another base than ten, not greater than the bound. -/
def isBasedNumber (bound : Nat) : List Char → Bool
  | '0' :: c :: cs => ((base? c).bind fun base => Integer.readNat? base cs).any (· ≤ bound)
  | _              => false

/-- Whether a text spells a 128-bit integer in another base than ten. -/
def isBasedInteger : List Char → Bool
  | '-' :: cs => isBasedNumber (Nat.pow 2 127) cs
  | '+' :: cs => isBasedNumber (Nat.pow 2 128 - 1) cs
  | cs        => isBasedNumber (Nat.pow 2 128 - 1) cs

/-- Whether a text is read as something else than a string when it is written plain. -/
def isAmbiguous (text : String) : Bool :=
  text ∈ ["", "~", "null", "Null", "NULL", "true", "True", "TRUE", "false", "False", "FALSE",
    ".inf", ".Inf", ".INF", "+.inf", "+.Inf", "+.INF", "-.inf", "-.Inf", "-.INF",
    ".nan", ".NaN", ".NAN"] ||
  isZeroPadded text.toList || isBasedInteger text.toList ||
  (Binary64.read? text.toList).any Binary64.isFinite

/-- The style in which a string is written. -/
def ofText (text : String) : Style :=
  let cs := text.toList
  if cs.contains '\n' then
    if allowsLiteral cs then literal else doubleQuoted
  else if !isAmbiguous text && allowsPlain cs then
    plain
  else if allowsSingle cs then
    singleQuoted
  else
    doubleQuoted

end Style
end YamlSieve.Yaml
