import YamlSieve.Number.Integer
import YamlSieve.Yaml.Input

/-!
# Quoted scalars

In single quotes a quote is written twice. In double quotes a backslash starts an escape sequence,
and one at the end of a line joins it with the next line. In both, line breaks are folded: one
between two words is a space, and further ones are kept.
-/

namespace YamlSieve.Yaml.Quoted

inductive Quote where
  | single
  | double
deriving DecidableEq, Repr

def Quote.char : Quote → Char
  | single => '\''
  | double => '"'

def escaped? : Char → Option Char
  | '0'  => some '\x00'
  | 'a'  => some '\x07'
  | 'b'  => some '\x08'
  | 't'  => some '\t'
  | '\t' => some '\t'
  | 'n'  => some '\n'
  | 'v'  => some '\x0b'
  | 'f'  => some '\x0c'
  | 'r'  => some '\r'
  | 'e'  => some '\x1b'
  | ' '  => some ' '
  | '"'  => some '"'
  | '/'  => some '/'
  | '\\' => some '\\'
  | 'N'  => some '\u0085'
  | '_'  => some '\u00a0'
  | 'L'  => some '\u2028'
  | 'P'  => some '\u2029'
  | _    => none

def codeLength? : Char → Option Nat
  | 'x' => some 2
  | 'u' => some 4
  | 'U' => some 8
  | _   => none

/-- The character with a code point, if there is one. -/
def charOfCode? (n : Nat) : Option Char :=
  if n.isValidChar then some (Char.ofNat n) else none

/-- The character of an escape sequence after its backslash, and the length of what was read. -/
def readEscape? : List Char → Option (Char × Nat)
  | []      => none
  | c :: cs =>
    match escaped? c with
    | some d => some (d, 1)
    | none   =>
      match codeLength? c with
      | none   => none
      | some n =>
        if (cs.take n).length < n then none
        else ((Integer.readNat? 16 (cs.take n)).bind charOfCode?).map fun d => (d, n + 1)

/-- What a run of characters without white space consists of. -/
structure Run where
  text : List Char
  /-- The number of characters that were read. -/
  size : Nat
  /-- Whether the run ends with a backslash in front of a line break. -/
  joinsLines : Bool

/-- A run that goes on with the given character, which was read from `n` characters. -/
def Run.cons (c : Char) (n : Nat) (run : Run) : Run :=
  ⟨c :: run.text, run.size + n, run.joinsLines⟩

/-- Reads the characters up to white space, a line break, or the closing quote. -/
def readRun (quote : Quote) (cs : List Char) : Nat → Except SyntaxError Run
  | 0        => .ok ⟨[], 0, false⟩
  | fuel + 1 =>
    match quote, cs with
    | _, []                         => .ok ⟨[], 0, false⟩
    | .single, '\'' :: '\'' :: rest => (readRun quote rest fuel).map (Run.cons '\'' 2)
    | .single, '\'' :: _            => .ok ⟨[], 0, false⟩
    | .double, '"' :: _             => .ok ⟨[], 0, false⟩
    | .double, '\\' :: rest         =>
      match rest.head? with
      | some c =>
        if isBreak c then
          .ok ⟨[], 1, true⟩
        else
          match readEscape? rest with
          | some (d, n) => (readRun quote (rest.drop n) fuel).map (Run.cons d (n + 1))
          | none        => .error .invalidEscape
      | none   => .error .invalidEscape
    | _, c :: rest                  =>
      if isWhite c || isBreak c then .ok ⟨[], 0, false⟩
      else (readRun quote rest fuel).map (Run.cons c 1)

/-- The line breaks passed since the last word. -/
inductive Breaks where
  /-- None, but the given white space. -/
  | none (whites : List Char)
  /-- One that joins the lines, and further ones. -/
  | joined (more : Nat)
  /-- One that is folded, and further ones. -/
  | folded (more : Nat)

/-- The text that stands for what was passed. -/
def Breaks.text : Breaks → List Char
  | none whites       => whites
  | joined more       => List.replicate more '\n'
  | folded 0          => [' ']
  | folded (more + 1) => List.replicate (more + 1) '\n'

def Breaks.next : Breaks → Breaks
  | none _      => folded 0
  | joined more => joined (more + 1)
  | folded more => folded (more + 1)

/-- Passes white space and line breaks between two runs. -/
def skipSpace (indent : Int) (breaks : Breaks) (input : Input) :
    Nat → Except SyntaxError (List Char × Input)
  | 0        => .ok (breaks.text, input)
  | fuel + 1 =>
    match input.peek? with
    | none   => .ok (breaks.text, input)
    | some c =>
      if isBreak c then
        skipSpace indent breaks.next input.skipBreak fuel
      else if isWhite c then
        match breaks with
        | .none whites => skipSpace indent (.none (whites ++ [c])) input.skipWhite fuel
        | _            =>
          if c = '\t' && input.column < indent then .error .tabIndentation
          else skipSpace indent breaks input.skipWhite fuel
      else
        .ok (breaks.text, input)

/-- Reads the runs up to the closing quote, and passes that. -/
def readRuns (quote : Quote) (indent : Int) (input : Input) :
    Nat → Except SyntaxError (List Char × Input)
  | 0        => .error .unterminatedQuote
  | fuel + 1 =>
    if input.atDocumentMarker || input.rest.isEmpty then
      .error .unterminatedQuote
    else if input.column < indent then
      .error .invalidIndentation
    else
      match readRun quote input.rest (input.size + 1) with
      | .error e => .error e
      | .ok run  =>
        let input := if run.size = 0 then input else input.skip run.size
        let input := if run.joinsLines then input.skipBreak else input
        if input.peek? = some quote.char then
          .ok (run.text, input.skip 1)
        else
          let breaks := if run.joinsLines then Breaks.joined 0 else Breaks.none []
          match skipSpace indent breaks input input.size with
          | .error e         => .error e
          | .ok (gap, input) =>
            match readRuns quote indent input fuel with
            | .error e          => .error e
            | .ok (text, input) => .ok (run.text ++ gap ++ text, input)

/-- Whether a quoted scalar that started on the given line may end in front of this character. -/
def mayEndBefore (inFlow : Bool) (line : Nat) (input : Input) : Bool :=
  match input.peek? with
  | none   => true
  | some c =>
    isBreak c || (inFlow && (c = ',' || c = ']' || c = '\x7d')) ||
      (c = ':' && (inFlow || line = input.position.line))

/-- Reads a quoted scalar, from its opening quote to the white space after the closing one. -/
def read (quote : Quote) (inFlow : Bool) (indent : Int) (input : Input) :
    Except SyntaxError (String × Input) :=
  match readRuns quote indent (input.skip 1) (input.size + 1) with
  | .error e         => .error e
  | .ok (text, rest) =>
    match rest.skipToToken with
    | .error e => .error e
    | .ok rest =>
      if mayEndBefore inFlow input.position.line rest then .ok (String.ofList text, rest)
      else .error .contentAfterQuote

end YamlSieve.Yaml.Quoted
