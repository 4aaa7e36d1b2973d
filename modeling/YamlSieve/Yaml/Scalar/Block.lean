import YamlSieve.Yaml.Input

/-!
# Block scalars

A block scalar is the text of the lines after its header that are indented. A literal one keeps
the line breaks; a folded one turns a break between two lines that start with text into a space.
The header says what becomes of the line breaks at the end, and may give the indentation.
-/

namespace YamlSieve.Yaml.Block

/-- What becomes of the line breaks at the end of a block scalar. -/
inductive Chomping where
  /-- None is kept. -/
  | strip
  /-- One is kept. -/
  | clip
  /-- All are kept. -/
  | keep
deriving DecidableEq, Repr

/-- The header of a block scalar; the indentation counts from that of the parent. -/
structure Header where
  chomping : Chomping
  indent?  : Option Nat

def chomping? : Char → Option Chomping
  | '+' => some .keep
  | '-' => some .strip
  | _   => none

/-- The indentation indicator in front, which is not zero. -/
def readIndent? (input : Input) : Except SyntaxError (Option Nat × Input) :=
  match input.peek? with
  | some c =>
    if c = '0' then .error .invalidBlockHeader
    else if c.isDigit then .ok (some (c.toNat - '0'.toNat), input.skip 1)
    else .ok (none, input)
  | none   => .ok (none, input)

/-- Reads the indicators of a header, in either order. -/
def readHeader (input : Input) : Except SyntaxError (Header × Input) :=
  match input.peek?.bind chomping? with
  | some chomping =>
    (readIndent? (input.skip 1)).map fun (indent?, input) => (⟨chomping, indent?⟩, input)
  | none =>
    match readIndent? input with
    | .error e            => .error e
    | .ok (none, input)   => .ok (⟨.clip, none⟩, input)
    | .ok (indent, input) =>
      match input.peek?.bind chomping? with
      | some chomping => .ok (⟨chomping, indent⟩, input.skip 1)
      | none          => .ok (⟨.clip, indent⟩, input)

/-- Passes the spaces of the indentation, at most up to the given column. -/
def skipSpaces (limit : Option Nat) (input : Input) : Input :=
  let spaces := (input.rest.takeWhile (· = ' ')).length
  let n := match limit with
    | some column => min spaces (column - input.column)
    | none        => spaces
  input.passed n (input.rest.drop n)

/--
Passes empty lines and the indentation of the next line. Beside the number of empty lines stands
the greatest column reached.
-/
def skipEmptyLines (limit : Option Nat) (breaks widest : Nat) (input : Input) :
    Nat → Nat × Nat × Input
  | 0        => (breaks, widest, input)
  | fuel + 1 =>
    let input := skipSpaces limit input
    let widest := max widest input.column
    match input.peek? with
    | some c =>
      if isBreak c then skipEmptyLines limit (breaks + 1) widest input.skipBreak fuel
      else (breaks, widest, input)
    | none   => (breaks, widest, input)

/-- A line whose text starts with white space is not folded. -/
def startsWhite (input : Input) : Bool := input.peek?.any isWhite

/-- The text read so far, with the line breaks whose place in it is not clear yet. -/
structure Content where
  text  : List Char
  /-- The break after the last line of text, if it was passed. -/
  last  : Nat
  /-- The empty lines after it. -/
  empty : Nat

/-- The text between a line of text and the next one. -/
def betweenLines (folds : Bool) (last empty : Nat) : List Char :=
  if folds && last ≠ 0 then
    if empty = 0 then [' '] else List.replicate empty '\n'
  else
    List.replicate (last + empty) '\n'

/-- Reads the lines of text in the given column. -/
def readLines (literal : Bool) (indent : Nat) (afterWhite : Bool) (last empty : Nat)
    (input : Input) : Nat → Content × Input
  | 0        => (⟨[], last, empty⟩, input)
  | fuel + 1 =>
    if input.column ≠ indent || input.rest.isEmpty || (indent = 0 && input.isMarker '.') then
      (⟨[], last, empty⟩, input)
    else
      let white := startsWhite input
      let gap := betweenLines (!literal && !afterWhite && !white) last empty
      let (line, input) := input.takeWhile fun c => !isBreak c
      if input.rest.isEmpty then
        (⟨gap ++ line, 0, 0⟩, input)
      else
        let (empty, _, input) := skipEmptyLines (some indent) 0 0 input.skipBreak input.size
        let (content, input) := readLines literal indent white 1 empty input fuel
        ({ content with text := gap ++ line ++ content.text }, input)

/-- The text of a block scalar after its last line of text. -/
def ending (chomping : Chomping) (indent : Nat) (content : Content) (input : Input) : List Char :=
  let last := List.replicate content.last '\n'
  let added := if input.rest.isEmpty && max indent 1 ≤ input.column then ['\n'] else []
  match chomping with
  | .strip => []
  | .clip  => last ++ added
  | .keep  => last ++ added ++ List.replicate content.empty '\n'

/-- The text of a block scalar whose stream ends before any line of text. -/
def textAtEnd (chomping : Chomping) (onHeaderLine : Bool) (breaks empty : Nat) : List Char :=
  match chomping with
  | .strip => []
  | .clip  => if onHeaderLine then [] else List.replicate breaks '\n'
  | .keep  =>
    if onHeaderLine then [] else List.replicate (if empty = 0 then breaks else empty) '\n'

/-- Reads the text after the header of a block scalar inside a parent of the given indentation. -/
def readText (literal : Bool) (parent : Int) (header : Header) (line : Nat) (input : Input) :
    Except SyntaxError (String × Input) :=
  let breaks := if input.rest.isEmpty then 0 else 1
  let input := if input.rest.isEmpty then input else input.skipBreak
  if input.peek? = some '\t' then
    .error .tabIndentation
  else
    let given := header.indent?.map fun n => (max parent 0).toNat + n
    let (empty, widest, input) := skipEmptyLines given 0 0 input (input.size + 1)
    let indent := match given with
      | some n => n
      | none   => max widest (parent + 1).toNat
    if input.rest.isEmpty then
      let text := textAtEnd header.chomping (input.position.line = line) breaks empty
      .ok (String.ofList text, input)
    else if input.column < indent && parent < input.column then
      .error .invalidIndentation
    else
      let (content, input) := readLines literal indent false 0 empty input (input.size + 1)
      .ok (String.ofList (content.text ++ ending header.chomping indent content input), input)

def read (literal : Bool) (parent : Int) (input : Input) :
    Except SyntaxError (String × Input) :=
  match readHeader (input.skip 1) with
  | .error e            => .error e
  | .ok (header, after) =>
    match after.skipToToken with
    | .error e  => .error e
    | .ok after =>
      if endsLine after.peek? then readText literal parent header input.position.line after
      else .error .invalidBlockHeader

end YamlSieve.Yaml.Block
