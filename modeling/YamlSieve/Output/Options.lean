/-!
# Output options

The formats of results, and the choices that a user makes about them.
-/

namespace YamlSieve.Output

inductive Format where
  | yaml
  | json
deriving DecidableEq, Repr

namespace Format

def name : Format → String
  | yaml => "yaml"
  | json => "json"

/-- The format with a name; case counts. -/
def ofName? (name : String) : Option Format :=
  [yaml, json].find? fun format => format.name = name

end Format

/-- How results are written. -/
structure Options where
  format     : Format := .yaml
  /-- Scalars are written as plain text, one per line. -/
  raw        : Bool := false
  /-- Nothing is written where there is no result. -/
  skipAbsent : Bool := true
  /-- JSON is indented. -/
  prettyJson : Bool := true
deriving DecidableEq, Repr

end YamlSieve.Output
