import YamlSieve.Toml.Date
import YamlSieve.Toml.Quoted
import YamlSieve.Toml.Value

/-!
# Configuration documents

Reads the lines of a configuration, each of which gives a value to a key or starts a table, and
builds the table that they describe.
-/

namespace YamlSieve.Toml

/-- Arrays and tables in one another, and the parts of a key, stay below this number. -/
def nestingLimit : Nat := 80

namespace Reader

/-! ### Keys -/

/-- Reads a part of a key: a quoted text, or letters, digits, dashes and underscores. -/
def keyPart : Reader String :=
  basicText <|> literalText <|> do
    return .ofList (← atLeastOne (satisfying fun c => c.isAlphanum || c = '-' || c = '_'))

/-- Reads a key, whose parts are separated by dots. -/
def key : Reader (List String) := do
  let parts ← separated (do blanks; let part ← keyPart; blanks; return part) (character '.')
  guard (parts.length < nestingLimit)
  return parts

/-! ### Values -/

def scalar : Reader Value :=
  (do return .string (← quotedText))
    <|> (do return .dateTime (← dateTime))
    <|> (do return .float (← float))
    <|> (do return .integer (← integer))
    <|> (do word "true".toList; return .boolean true)
    <|> (do word "false".toList; return .boolean false)

def emptyArray : Reader Value := do
  word ['[', ']']
  return .array []

/-- Reads an array of the given items; a comma may follow the last one. -/
def array (item : Reader Value) : Reader Value := do
  character '['
  let row := separated (do gap; let value ← item; gap; return value) (character ',')
  let items ← optional (do let items ← row; discard (optional (character ',')); return items)
  gap
  character ']'
  return .array (items.getD [])

/-- Reads a table between braces, whose keys may be dotted. -/
def inlineTable (item : Reader Value) : Reader Value := do
  character '\x7b'
  let entry := do
    let path ← key
    character '='
    blanks
    let value ← item
    blanks
    return (path, value)
  let row ← optional (separated entry (character ','))
  blanks
  character '\x7d'
  let fill (entries : Entries) (assignment : List String × Value) : Option Entries :=
    entries.assign assignment.2 assignment.1 true
  match (row.getD []).foldlM fill [] with
  | some entries => return .table .closed entries
  | none         => failure

/-- Reads a value with arrays and tables in one another up to the given depth. -/
def value : Nat → Reader Value
  | 0         => scalar <|> emptyArray
  | depth + 1 => scalar <|> emptyArray <|> array (value depth) <|> inlineTable (value depth)

end Reader

/-! ### Lines -/

/-- What a line of a configuration says. -/
inductive Line where
  /-- A comment, or nothing. -/
  | blank
  /-- A key has a value. -/
  | assignment (path : List String) (value : Value)
  /-- A table starts. -/
  | table (path : List String)
  /-- A table in a row of tables starts. -/
  | element (path : List String)

namespace Reader

/-- Reads the rest of a line that starts with a key. -/
def assignment : Reader Line := do
  let path ← key
  character '='
  blanks
  let value ← value (nestingLimit - 1)
  lineEnd
  return .assignment path value

def header : Reader Line :=
  (do
    word ['[', '[']
    let path ← key
    word [']', ']']
    lineEnd
    return .element path)
  <|> do
    character '['
    let path ← key
    character ']'
    lineEnd
    return .table path

/-- Reads a line after its blanks, and the blanks of the next one. -/
def line : Reader Line := do
  let line ←
    match ← peek? with
    | none   => failure
    | some c => do
      if c = '#' || c = '\n' || c = '\r' then
        lineEnd
        pure Line.blank
      else if c = '[' then
        header
      else
        assignment
  blanks
  return line

/-- Reads a document, which may start with a byte order mark. -/
def document : Reader (List Line) := do
  discard (optional (character '\ufeff'))
  blanks
  let lines ← many line
  atEnd
  return lines

end Reader

/-! ### Tables -/

/-- Builds a table from lines, where keys belong to the table at the path of the last header. -/
def build : List String → Entries → List Line → Option Entries
  | _, entries, []                                => some entries
  | path, entries, .blank :: lines                => build path entries lines
  | path, entries, .assignment key value :: lines => do
    build path (← entries.changeAt (Entries.assign value key true) path) lines
  | _, entries, .table path :: lines              => do
    let last ← path.getLast?
    build path (← entries.changeAt (Entries.openTable last) path.dropLast) lines
  | _, entries, .element path :: lines            => do
    let last ← path.getLast?
    build path (← entries.changeAt (Entries.openElement last) path.dropLast) lines

/-- Reads a configuration; it fails where the text does not describe a table. -/
def parse? (text : String) : Option Entries := do
  let (lines, _) ← Reader.document text.toList
  build [] [] lines

end YamlSieve.Toml
