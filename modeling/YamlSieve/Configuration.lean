import YamlSieve.Output.Options
import YamlSieve.Toml.Document

/-!
# Configuration

What a user sets for all runs. A configuration that cannot be read, or that gives a key a value of
the wrong kind, is as good as none; keys of other names do not matter.
-/

namespace YamlSieve

/-- What a user sets for all runs. -/
structure Configuration where
  format     : Output.Format := .yaml
  /-- The most steps of one evaluation. -/
  stepLimit  : Option Nat := none
  skipAbsent : Bool := true
  prettyJson : Bool := true
deriving DecidableEq, Repr

namespace Configuration

/-! ### Reading -/

def isEmptyValue : Toml.Value → Bool
  | .array []    => true
  | .table _ []  => true
  | _            => false

/-- A format is given by its name, or by a table whose one key is its name and has no parts. -/
def formatOf? : Toml.Value → Option Output.Format
  | .string name              => Output.Format.ofName? name
  | .table _ [(name, value)]  => if isEmptyValue value then Output.Format.ofName? name else none
  | _                         => none

/-- A bound is a whole number that is not negative. -/
def boundOf? : Toml.Value → Option Nat
  | .integer value => if 0 ≤ value.toInt then some value.toInt.toNat else none
  | _              => none

def switchOf? : Toml.Value → Option Bool
  | .boolean value => some value
  | _              => none

/-- The setting of a key, or the given one if the key is missing. -/
def setting {α : Type} (read? : Toml.Value → Option α) (default : α) (key : String)
    (entries : Toml.Entries) : Option α :=
  match entries.lookup key with
  | some value => read? value
  | none       => some default

/-- The configuration that a table describes. -/
def ofEntries? (entries : Toml.Entries) : Option Configuration := do
  let format ← setting formatOf? .yaml "output_format" entries
  let stepLimit ← setting (fun value => (boundOf? value).map some) none "step_limit" entries
  let skipAbsent ← setting switchOf? true "skip_absent" entries
  let prettyJson ← setting switchOf? true "pretty_json" entries
  return ⟨format, stepLimit, skipAbsent, prettyJson⟩

/-- The configuration in the content of a file; there is no content if the file cannot be read. -/
def ofContent (content : Option ByteArray) : Configuration :=
  ((content.bind String.fromUTF8?).bind Toml.parse? >>= ofEntries?).getD {}

/-! ### Writing -/

def text (configuration : Configuration) : String :=
  let switch (value : Bool) := if value then "true" else "false"
  let stepLimit :=
    match configuration.stepLimit with
    | some n => "step_limit = " ++ toString n ++ "\n"
    | none   => ""
  "output_format = \"" ++ configuration.format.name ++ "\"\n" ++ stepLimit ++
    "skip_absent = " ++ switch configuration.skipAbsent ++ "\n" ++
    "pretty_json = " ++ switch configuration.prettyJson ++ "\n"

def outputOptions (configuration : Configuration) : Output.Options where
  format     := configuration.format
  raw        := false
  skipAbsent := configuration.skipAbsent
  prettyJson := configuration.prettyJson

end Configuration
end YamlSieve
