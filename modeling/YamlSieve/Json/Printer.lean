import YamlSieve.Node

/-!
# Written JSON

Writes a node as JSON, on one line or with two columns of indentation for each level.
-/

namespace YamlSieve.Json

/-! ### Strings -/

/-- A character inside of a string. Quotes, backslashes and control characters are escaped. -/
def escape (c : Char) : List Char :=
  match c with
  | '"'    => ['\\', '"']
  | '\\'   => ['\\', '\\']
  | '\x08' => ['\\', 'b']
  | '\x0c' => ['\\', 'f']
  | '\n'   => ['\\', 'n']
  | '\r'   => ['\\', 'r']
  | '\t'   => ['\\', 't']
  | c      =>
    if c.toNat < 0x20 then
      ['\\', 'u', '0', '0', Integer.hexDigit 'a' (c.toNat / 16),
        Integer.hexDigit 'a' (c.toNat % 16)]
    else
      [c]

def quote (text : String) : List Char := '"' :: text.toList.flatMap escape ++ ['"']

/-! ### Nodes -/

inductive Spacing where
  /-- On one line, without spaces. -/
  | compact
  /-- One entry a line, indented by two columns for each level. -/
  | indented
deriving DecidableEq, Repr

namespace Spacing

/-- What stands in front of an entry or a closing bracket at the given depth. -/
def newLine (depth : Nat) : Spacing → List Char
  | compact  => []
  | indented => '\n' :: List.replicate (2 * depth) ' '

def colon : Spacing → List Char
  | compact  => [':']
  | indented => [':', ' ']

def bracket (spacing : Spacing) (depth : Nat) (opening closing : Char)
    (entries : List (List Char)) : List Char :=
  match entries with
  | [] => [opening, closing]
  | es =>
    let separator := ',' :: spacing.newLine (depth + 1)
    opening :: spacing.newLine (depth + 1) ++ separator.intercalate es ++
      spacing.newLine depth ++ [closing]

end Spacing

mutual

/-- Writes a node at the given depth. -/
def write (spacing : Spacing) (depth : Nat) : Node → List Char
  | .mapping entries =>
    spacing.bracket depth '\x7b' '\x7d' (writeEntries spacing (depth + 1) entries)
  | .sequence items  => spacing.bracket depth '[' ']' (writeItems spacing (depth + 1) items)
  | .string text     => quote text
  | .integer value   => (Integer.text value).toList
  | .float value     => (Layout.json.text value).toList
  | .boolean value   => (if value then "true" else "false").toList
  | .null            => "null".toList
  | .absent          => "null".toList

def writeEntries (spacing : Spacing) (depth : Nat) :
    List (String × Node) → List (List Char)
  | []                   => []
  | (key, value) :: rest =>
    (quote key ++ spacing.colon ++ write spacing depth value) :: writeEntries spacing depth rest

def writeItems (spacing : Spacing) (depth : Nat) : List Node → List (List Char)
  | []           => []
  | item :: rest => write spacing depth item :: writeItems spacing depth rest

end

/-- A node as JSON. -/
def print (spacing : Spacing) (node : Node) : String := String.ofList (write spacing 0 node)

end YamlSieve.Json
