import YamlSieve.Node
import YamlSieve.Yaml.Style

/-!
# Written documents

Writes a node in block style: two columns of indentation for each level, sequences not indented
under their key, and only empty collections in flow style.
-/

namespace YamlSieve.Yaml

/-! ### Scalars -/

namespace Style

def padding (indent : Nat) : List Char := List.replicate indent ' '

/-- The lines of a text, each after its indentation. -/
def indentLines (indent : Nat) (lineStart : Bool) : List Char → List Char
  | []      => []
  | c :: cs =>
    if isLineBreak c then c :: indentLines indent true cs
    else (if lineStart then padding indent else []) ++ c :: indentLines indent false cs

/-- The chomping indicator of a text: whether it ends with no, with one, or with several breaks. -/
def chomping (cs : List Char) : List Char :=
  match cs.reverse with
  | c :: rest =>
    if !isLineBreak c then ['-']
    else if rest.isEmpty || rest.head?.any isLineBreak then ['+']
    else []
  | []        => ['-']

/-- A text as a literal block, without a line break after its last line. -/
def literalText (indent : Nat) (cs : List Char) : List Char :=
  let hint := if cs.head?.any isSpacing then ['2'] else []
  '|' :: hint ++ chomping cs ++ '\n' :: indentLines indent true cs

def doubleQuotes (cs : List Char) : List Char :=
  cs.flatMap fun c => if c = '\'' then ['\'', '\''] else [c]

/-- A text in single quotes; a line after a line break is indented. -/
def singleText (indent : Nat) (cs : List Char) : List Char :=
  let closing := if cs.getLast?.any isLineBreak then padding indent else []
  '\'' :: doubleQuotes (indentLines indent false cs) ++ closing ++ ['\'']

def hexText (n : Nat) : Nat → List Char
  | 0         => []
  | width + 1 => hexText (n / 16) width ++ [Integer.hexDigit 'A' (n % 16)]

/-- The escape sequence of a character, without its backslash. -/
def escapeOf (c : Char) : List Char :=
  match c with
  | '\x00'   => ['0']
  | '\x07'   => ['a']
  | '\x08'   => ['b']
  | '\t'     => ['t']
  | '\n'     => ['n']
  | '\x0b'   => ['v']
  | '\x0c'   => ['f']
  | '\r'     => ['r']
  | '\x1b'   => ['e']
  | '"'      => ['"']
  | '\\'     => ['\\']
  | '\u0085' => ['N']
  | '\u00a0' => ['_']
  | '\u2028' => ['L']
  | '\u2029' => ['P']
  | c        =>
    if c.toNat ≤ 0xFF then 'x' :: hexText c.toNat 2
    else if c.toNat ≤ 0xFFFF then 'u' :: hexText c.toNat 4
    else 'U' :: hexText c.toNat 8

def isEscaped (c : Char) : Bool :=
  !isPrintable c || isLineBreak c || c = '"' || c = '\\'

/-- A text in double quotes. -/
def doubleText (cs : List Char) : List Char :=
  '"' :: (cs.flatMap fun c => if isEscaped c then '\\' :: escapeOf c else [c]) ++ ['"']

/-- A string in its style. The further lines of a scalar are indented by the given columns. -/
def write (indent : Nat) (text : String) : List Char :=
  match ofText text with
  | plain        => text.toList
  | singleQuoted => singleText indent text.toList
  | doubleQuoted => doubleText text.toList
  | literal      => literalText indent text.toList

end Style

/-! ### Nodes -/

/-- Ends the line of a text, unless the text itself does. -/
def endLine (cs : List Char) : List Char :=
  if cs.getLast?.any Style.isLineBreak then cs else cs ++ ['\n']

/-- Where a node is written: alone, after the key of a mapping, or after an indicator. -/
inductive Place where
  | top
  | afterKey (indent : Nat)
  | afterIndicator (indent : Nat)
deriving DecidableEq, Repr

namespace Place

/-- The indentation of the further lines of a scalar. -/
def scalarIndent : Place → Nat
  | top                   => 2
  | afterKey indent       => indent + 2
  | afterIndicator indent => indent + 2

/-- The indentation of the items of a sequence. -/
def itemIndent : Place → Nat
  | top                   => 0
  | afterKey indent       => indent
  | afterIndicator indent => indent + 2

/-- The indentation of the keys of a mapping. -/
def keyIndent : Place → Nat
  | top                   => 0
  | afterKey indent       => indent + 2
  | afterIndicator indent => indent + 2

/-- A text on the line of the place. -/
def inLine (place : Place) (cs : List Char) : List Char :=
  match place with
  | top => cs
  | _   => ' ' :: cs

/-- Entries in the given column, each on lines of its own; after a key they start a new line. -/
def entries (place : Place) (indent : Nat) (lines : List (List Char)) : List Char :=
  let text := (lines.map (Style.padding indent ++ ·)).flatten
  match place with
  | top              => text
  | afterKey _       => '\n' :: text
  | afterIndicator _ => ' ' :: text.drop indent

end Place

/-- A key is written on one line with its value if it is short and holds no line break. -/
def isSimpleKey (key : String) : Bool :=
  !key.toList.any Style.isLineBreak && key.utf8ByteSize ≤ 128

/-- The text of a key in the given column up to its value, and where the value is written. -/
def writeKey (indent : Nat) (key : String) : List Char × Place :=
  let text := Style.write (indent + 2) key
  if isSimpleKey key then
    (text ++ [':'], .afterKey indent)
  else
    ('?' :: ' ' :: endLine text ++ Style.padding indent ++ [':'], .afterIndicator indent)

mutual

/-- Writes a node. -/
def write (place : Place) : Node → List Char
  | .mapping []       => place.inLine ['\x7b', '\x7d', '\n']
  | .mapping (e :: es) => place.entries place.keyIndent (writeEntries place.keyIndent (e :: es))
  | .sequence []      => place.inLine ['[', ']', '\n']
  | .sequence (x :: xs) => place.entries place.itemIndent (writeItems place.itemIndent (x :: xs))
  | .string text      => place.inLine (endLine (Style.write place.scalarIndent text))
  | .integer value    => place.inLine ((Integer.text value).toList ++ ['\n'])
  | .float value      => place.inLine ((Layout.yaml.text value).toList ++ ['\n'])
  | .boolean value    => place.inLine ((if value then "true" else "false").toList ++ ['\n'])
  | .null             => place.inLine ("null".toList ++ ['\n'])
  | .absent           => place.inLine ("null".toList ++ ['\n'])

/-- Writes the entries of a mapping whose keys stand in the given column. -/
def writeEntries (indent : Nat) : List (String × Node) → List (List Char)
  | []             => []
  | (key, value) :: es =>
    let (text, place) := writeKey indent key
    (text ++ write place value) :: writeEntries indent es

def writeItems (indent : Nat) : List Node → List (List Char)
  | []      => []
  | x :: xs => ('-' :: write (.afterIndicator indent) x) :: writeItems indent xs

end

/-- A node as a YAML document. -/
def print (node : Node) : String := String.ofList (write .top node)

end YamlSieve.Yaml
