import YamlSieve.Filter.State

/-!
# Filters

A filter is an expression that has been split into tokens, with the events of its steps. It can be
applied to any number of documents.
-/

namespace YamlSieve

/-- A filter expression, ready to be applied. -/
structure Filter where
  expression : String
  tokens     : List Token
  events     : List Event
  stepLimit  : Option Nat

namespace Filter

/-- Reads a filter. Only an open double quote is found here; applying it finds all else. -/
def parse (expression : String) : Except FilterError Filter :=
  match Token.tokenize? expression with
  | some tokens => .ok ⟨expression, tokens, Event.ofTokens tokens, none⟩
  | none        => .error .unterminatedString

/-- Reads a filter that is given without its enclosing single quotes. -/
def parseBare (body : String) : Except FilterError Filter :=
  parse ("'" ++ body ++ "'")

def withStepLimit (limit : Nat) (filter : Filter) : Filter :=
  { filter with stepLimit := some limit }

/-- Evaluates the filter on a document. -/
def apply (filter : Filter) (root : Node) : Except FilterError Node :=
  (State.run filter.tokens filter.events root filter.stepLimit).map Cursor.node

/-- Reads an expression and evaluates it on a document. -/
def evaluate (expression : String) (root : Node) : Except FilterError Node :=
  parse expression >>= (apply · root)

/-- The text of the result of an expression, if that is a scalar. -/
def value? (expression : String) (root : Node) : Except FilterError (Option String) :=
  (evaluate expression root).map Node.scalarText?

def values (expression : String) (root : Node) : Except FilterError (List String) :=
  (evaluate expression root).map Node.scalarTexts

end Filter
end YamlSieve
