import YamlSieve.Number.Binary64

/-!
# Configuration values

The values of a configuration, and the ways in which a table grows: by keys, which may be dotted,
and by headers.
-/

namespace YamlSieve.Toml

/-- How a table came about. This decides what can be added to it. -/
inductive TableKind where
  /-- By a pair of braces. -/
  | closed
  /-- By a header. -/
  | headed
  /-- By the header of a table inside of it. -/
  | implied
  /-- By a dotted key. -/
  | dotted
deriving DecidableEq, Repr

/-- A value of a configuration. -/
inductive Value where
  | string (text : String)
  | integer (value : Int64)
  | float (value : Binary64)
  | boolean (value : Bool)
  | dateTime (text : String)
  | array (items : List Value)
  | table (kind : TableKind) (entries : List (String × Value))
  /-- A row of tables with a header each. -/
  | tables (elements : List (List (String × Value)))
deriving Inhabited

/-- The keys of a table with their values, in the order in which they came. -/
abbrev Entries := List (String × Value)

namespace Entries

/-! ### Changes in place -/

/-- Changes the value of a key. There is none yet for a new key, which comes last. -/
def change (key : String) (f : Option Value → Option Value) : Entries → Option Entries
  | []                => (f none).map fun value => [(key, value)]
  | (k, v) :: entries =>
    if k = key then
      (f (some v)).map fun value => (k, value) :: entries
    else
      (change key f entries).map ((k, v) :: ·)

def changeLast (f : Entries → Option Entries) : List Entries → Option (List Entries)
  | []              => none
  | [entries]       => (f entries).map ([·])
  | entries :: rest => (changeLast f rest).map (entries :: ·)

/-! ### Keys -/

/--
Gives a value to a dotted key that has none. A table on the way arises by dotted keys, or by the
header of a table inside of it; the last one has to admit the key.
-/
def assign (value : Value) : List String → Bool → Entries → Option Entries
  | [], _, _                => none
  | [key], admits, entries  =>
    if admits then
      change key (fun old => if old.isNone then some value else none) entries
    else
      none
  | key :: path, _, entries =>
    change key (fun
      | none                       => (assign value path true []).map (.table .dotted)
      | some (.table .dotted es)   => (assign value path true es).map (.table .dotted)
      | some (.table .implied es)  => (assign value path false es).map (.table .implied)
      | some (.tables elements)    => (changeLast (assign value path false) elements).map .tables
      | some _                     => none) entries

/-! ### Headers -/

/-- Changes the table at a path of headers. Tables that are missing on the way are implied. -/
def changeAt (f : Entries → Option Entries) : List String → Entries → Option Entries
  | [], entries          => f entries
  | key :: path, entries =>
    change key (fun
      | none                     => (changeAt f path []).map (.table .implied)
      | some (.table .closed _)  => none
      | some (.table kind es)    => (changeAt f path es).map (.table kind)
      | some (.tables elements)  => (changeLast (changeAt f path) elements).map .tables
      | some _                   => none) entries

/-- Starts the table of a header. No header, value or dotted key made one in its place. -/
def openTable (key : String) : Entries → Option Entries :=
  change key fun
    | none                      => some (.table .headed [])
    | some (.table .implied es) => some (.table .headed es)
    | some _                    => none

/-- Starts one more table of the row of a header. -/
def openElement (key : String) : Entries → Option Entries :=
  change key fun
    | none                    => some (.tables [[]])
    | some (.tables elements) => some (.tables (elements ++ [[]]))
    | some _                  => none

end Entries
end YamlSieve.Toml
