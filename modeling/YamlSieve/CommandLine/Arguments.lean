import YamlSieve.Number.Integer
import YamlSieve.Output.Options

/-!
# Arguments

The arguments of the command line: an expression, the path of a file, which may be missing, and
options. Options can stand anywhere, short ones can be joined, and after `--` there are no more.
-/

namespace YamlSieve.CommandLine

/-! ### Options -/

inductive Choice where
  /-- The format of results. -/
  | output
  /-- Plain text for scalars. -/
  | rawOutput
  /-- An expression without its quotes. -/
  | bare
  /-- The most steps of one evaluation. -/
  | stepLimit
  /-- More messages about the run, which can be asked for more than once. -/
  | verbose
deriving DecidableEq, Repr

namespace Choice

def ofName? : String → Option Choice
  | "output"     => some output
  | "raw-output" => some rawOutput
  | "bare"       => some bare
  | "step-limit" => some stepLimit
  | "verbose"    => some verbose
  | _            => none

def ofLetter? : Char → Option Choice
  | 'o' => some output
  | 'r' => some rawOutput
  | 'b' => some bare
  | 'v' => some verbose
  | _   => none

def hasValue : Choice → Bool
  | output | stepLimit         => true
  | rawOutput | bare | verbose => false

end Choice

inductive Part where
  /-- An option, with its value if it has one. -/
  | option (choice : Choice) (value : Option String)
  /-- Any other argument. -/
  | operand (text : String)
deriving DecidableEq, Repr

/-! ### Splitting -/

/--
The parts in an argument of joined short options, and whether the last of them still needs its
value. A value takes the rest of the argument, without an equals sign in front of it.
-/
def readLetters : List Char → Option (List Part × Option Choice)
  | []      => some ([], none)
  | c :: cs =>
    match Choice.ofLetter? c with
    | none        => none
    | some choice =>
      if choice.hasValue then
        match cs with
        | []        => some ([], some choice)
        | '=' :: cs => some ([.option choice (some (.ofList cs))], none)
        | cs        => some ([.option choice (some (.ofList cs))], none)
      else
        (readLetters cs).map fun (parts, pending) => (.option choice none :: parts, pending)

/-- The option in an argument with a long name, and whether it still needs its value. -/
def readName (cs : List Char) : Option (List Part × Option Choice) := do
  let choice ← Choice.ofName? (.ofList (cs.takeWhile (· ≠ '=')))
  match choice.hasValue, cs.dropWhile (· ≠ '=') with
  | true, []          => return ([], some choice)
  | true, _ :: value  => return ([.option choice (some (.ofList value))], none)
  | false, []         => return ([.option choice none], none)
  | false, _ :: _     => none

/-- The parts of one argument, and the option that still needs its value. -/
def readArgument (argument : String) : Option (List Part × Option Choice) :=
  match argument.toList with
  | '-' :: '-' :: cs => readName cs
  | '-' :: c :: cs   => readLetters (c :: cs)
  | _                => some ([.operand argument], none)

/--
The parts of a command line, after an option that still needs its value. No value of an option
starts with a dash, so that such an argument in its place is wrong in any case.
-/
def readParts : Option Choice → List String → Option (List Part)
  | none, []                            => some []
  | some _, []                          => none
  | some choice, argument :: arguments  =>
    (readParts none arguments).map (.option choice (some argument) :: ·)
  | none, argument :: arguments         =>
    if argument = "--" then
      some (arguments.map .operand)
    else do
      let (parts, pending) ← readArgument argument
      return parts ++ (← readParts pending arguments)

/-! ### Meaning -/

/-- What a command line asks for. -/
structure Arguments where
  expression : String
  file       : Option String
  format     : Option Output.Format
  rawOutput  : Bool
  bare       : Bool
  stepLimit  : Option Nat
deriving DecidableEq, Repr

/-- The values that are given to an option, one for each time it occurs. -/
def valuesOf (choice : Choice) (parts : List Part) : List (Option String) :=
  parts.filterMap fun
    | .option c value => if c = choice then some value else none
    | .operand _      => none

def operands (parts : List Part) : List String :=
  parts.filterMap fun
    | .operand text => some text
    | .option _ _   => none

/-- Whether an option without a value is given, which is so at most once. -/
def flag? (choice : Choice) (parts : List Part) : Option Bool :=
  match valuesOf choice parts with
  | []  => some false
  | [_] => some true
  | _   => none

/-- The value of an option, which is given at most once and has to be readable. -/
def setting? {α : Type} (read? : String → Option α) (choice : Choice) (parts : List Part) :
    Option (Option α) :=
  match valuesOf choice parts with
  | []           => some none
  | [some value] => (read? value).map some
  | _            => none

/-- Reads a number of steps, with an optional plus sign, that fits into 64 bits. -/
def readBound? (text : String) : Option Nat :=
  let digits :=
    match text.toList with
    | '+' :: cs => cs
    | cs        => cs
  (Integer.readNat? 10 digits).filter (· < Nat.pow 2 64)

/-- Reads a command line; it fails where the arguments are not the ones that the program takes. -/
def Arguments.read? (arguments : List String) : Option Arguments := do
  let parts ← readParts none arguments
  let format ← setting? Output.Format.ofName? .output parts
  let stepLimit ← setting? readBound? .stepLimit parts
  let rawOutput ← flag? .rawOutput parts
  let bare ← flag? .bare parts
  match operands parts with
  | [expression]       => return ⟨expression, none, format, rawOutput, bare, stepLimit⟩
  | [expression, file] =>
    if file = "" then
      none
    else
      return ⟨expression, some file, format, rawOutput, bare, stepLimit⟩
  | _                  => none

end YamlSieve.CommandLine
