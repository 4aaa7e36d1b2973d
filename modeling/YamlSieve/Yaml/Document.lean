import YamlSieve.Node
import YamlSieve.Yaml.ValueStream

/-!
# Documents of a YAML text

Turns the values of a stream into nodes. The keys of a mapping become texts; where two keys become
the same text, the first place and the last value stay.
-/

namespace YamlSieve

/-- Why a text has no documents. -/
inductive DocumentError where
  /-- The text is no YAML stream. -/
  | malformed (cause : Yaml.SyntaxError)
  /-- A value is invalid. -/
  | invalidValue
  /-- An alias was not replaced. -/
  | unresolvedAlias (anchor : Nat)
  /-- A key is no scalar. -/
  | unsupportedKey
deriving DecidableEq, Repr

def DocumentError.message : DocumentError → String
  | malformed _            => "Failed to parse YAML"
  | invalidValue           => "Invalid YAML value"
  | unresolvedAlias anchor => "Unresolved YAML alias (id " ++ toString anchor ++ ")"
  | unsupportedKey         => "Unsupported mapping key: only scalar keys are allowed"

namespace Yaml.Value

/-- The text of a scalar used as a key; a floating point number keeps its spelling. -/
def keyText? : Value → Option String
  | string text   => some text
  | real text     => some text
  | integer value => some (Integer.text value)
  | boolean value => some (if value then "true" else "false")
  | null          => some "null"
  | sequence _ | mapping _ | aliasOf _ | invalid => none

mutual

/-- The node of a value. Of several errors the first in document order counts. -/
def toNode : Value → Except DocumentError Node
  | string text     => .ok (.string text)
  | real text       =>
    match readReal? text with
    | some value => .ok (.float value)
    | none       => .ok (.string text)
  | integer value   => .ok (.integer value)
  | boolean value   => .ok (.boolean value)
  | null            => .ok .null
  | sequence items  =>
    match itemNodes items with
    | .ok nodes => .ok (.sequence nodes)
    | .error e  => .error e
  | mapping entries =>
    match entryNodes [] entries with
    | .ok nodes => .ok (.mapping nodes)
    | .error e  => .error e
  | aliasOf anchor  => .error (.unresolvedAlias anchor)
  | invalid         => .error .invalidValue

def itemNodes : List Value → Except DocumentError (List Node)
  | []          => .ok []
  | item :: items =>
    match toNode item with
    | .error e => .error e
    | .ok node =>
      match itemNodes items with
      | .error e  => .error e
      | .ok nodes => .ok (node :: nodes)

/-- Binds the keys of entries one after the other. A key is looked at before its value. -/
def entryNodes (bound : List (String × Node)) :
    List (Value × Value) → Except DocumentError (List (String × Node))
  | []                    => .ok bound
  | (key, value) :: entries =>
    match keyText? key with
    | none      => .error .unsupportedKey
    | some text =>
      match toNode value with
      | .error e => .error e
      | .ok node => entryNodes (Node.bind text node bound) entries

end

/-- The nodes of the documents of a stream. -/
def toNodes (documents : List Value) : Except DocumentError (List Node) :=
  itemNodes documents

end Yaml.Value

namespace Yaml

/-- The documents of a YAML text. -/
def parse (text : String) : Except DocumentError (List Node) :=
  match Value.ofText text with
  | .error e      => .error (.malformed e)
  | .ok documents => Value.toNodes documents

/-- The first document of a YAML text, or null if there is none. -/
def parseFirst (text : String) : Except DocumentError Node :=
  (parse text).map fun documents => documents.head?.getD .null

end Yaml
end YamlSieve
