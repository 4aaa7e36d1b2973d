import YamlSieve.Filter.Predicate

/-!
# Calls

The one function is `select`, which takes a predicate up to the next closing parenthesis.
-/

namespace YamlSieve

/-- A function; `invalid` stands for a name that is none. -/
inductive Function where
  | select
  | invalid
deriving DecidableEq, Repr

namespace Function

def ofName (name : String) : Function :=
  if name = "select" then select else invalid

/-- The tokens before the first closing parenthesis, and those from it on. -/
def splitAtClose? (tokens : List Token) : Option (List Token × List Token) :=
  match tokens.dropWhile (· ≠ .delim ')') with
  | []   => none
  | rest => some (tokens.takeWhile (· ≠ .delim ')'), rest)

/--
Applies the function with the given name to a cursor. The tokens are those after the opening
parenthesis; on success those from the closing one on are given back.
-/
def apply (name : String) (cursor : Cursor) (tokens : List Token) :
    Except FilterError (Cursor × List Token) :=
  match ofName name with
  | invalid => .error (.invalidFunction name)
  | select  =>
    match splitAtClose? tokens with
    | none                  => .error .unterminatedCall
    | some (argument, rest) =>
      match (Predicate.read argument).1 with
      | .error e      => .error e
      | .ok predicate => .ok (cursor.select predicate, rest)

end Function
end YamlSieve
