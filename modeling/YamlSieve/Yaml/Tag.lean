import YamlSieve.Number.Integer
import YamlSieve.Yaml.Input

/-!
# Tags and directives

A tag is a handle and a suffix. A directive in front of a document gives the version of the
language, or declares a handle as a shorthand.
-/

namespace YamlSieve.Yaml

/-- A tag, before or after its handle is replaced by what it stands for. -/
structure Tag where
  handle : String
  suffix : String
deriving DecidableEq, Repr

namespace Tag

/-- The number of bytes that a leading byte announces. -/
def byteCount? (byte : Nat) : Option Nat :=
  if byte < 0x80 then some 1
  else if byte / 0x20 = 0x6 then some 2
  else if byte / 0x10 = 0xE then some 3
  else if byte / 0x8 = 0x1E then some 4
  else none

/-- The byte of a percent escape in front of a text. -/
def escapedByte? : List Char → Option Nat
  | '%' :: high :: low :: _ => Integer.readNat? 16 [high, low]
  | _                       => none

/-- The number that continues with further escaped bytes. -/
def continueCode? (code : Nat) (cs : List Char) : Nat → Option Nat
  | 0     => some code
  | n + 1 =>
    match escapedByte? cs with
    | some byte =>
      if byte / 0x40 = 0x2 then continueCode? (code * 0x100 + byte) (cs.drop 3) n else none
    | none      => none

/--
The character of the percent escapes in front, and the number of characters that were read. The
bytes of the escapes, one after the other, are the code point.
-/
def unescape? (cs : List Char) : Option (Char × Nat) :=
  match escapedByte? cs with
  | none      => none
  | some lead =>
    match byteCount? lead with
    | none   => none
    | some n =>
      match continueCode? lead (cs.drop 3) (n - 1) with
      | some code => if code.isValidChar then some (Char.ofNat code, 3 * n) else none
      | none      => none

/-- Reads the characters that pass a test, with percent escapes among them. -/
def readChars (test : Char → Bool) (input : Input) :
    Nat → Except SyntaxError (List Char × Input)
  | 0        => .ok ([], input)
  | fuel + 1 =>
    match input.peek? with
    | none   => .ok ([], input)
    | some c =>
      if !test c then
        .ok ([], input)
      else if c = '%' then
        match unescape? input.rest with
        | some (d, n) =>
          (readChars test (input.skip n) fuel).map fun (ds, rest) => (d :: ds, rest)
        | none        => .error .invalidTag
      else
        (readChars test (input.skip 1) fuel).map fun (cs, rest) => (c :: cs, rest)

/-- Reads a handle: an exclamation mark, name characters, and perhaps a second mark. -/
def readHandle (input : Input) : Except SyntaxError (List Char × Input) :=
  if input.peek? ≠ some '!' then
    .error .invalidTag
  else
    let (name, input) := (input.skip 1).takeWhile isNameChar
    if input.peek? = some '!' then .ok ('!' :: name ++ ['!'], input.skip 1)
    else .ok ('!' :: name, input)

/-- A handle is closed when an exclamation mark ends it, beside that which starts it. -/
def isClosed (handle : List Char) : Bool :=
  2 ≤ handle.length && handle.getLast? = some '!'

/-- Reads the suffix of a tag up to the closing angle bracket. -/
def readVerbatim (input : Input) : Except SyntaxError (Tag × Input) :=
  match readChars isUriChar (input.skip 2) input.size with
  | .error e           => .error e
  | .ok (suffix, rest) =>
    if rest.peek? = some '>' then .ok (⟨"", String.ofList suffix⟩, rest.skip 1)
    else .error .invalidTag

/-- Reads a tag of a handle and a suffix; what starts like a handle may belong to the suffix. -/
def readShorthand (input : Input) : Except SyntaxError (Tag × Input) :=
  match readHandle input with
  | .error e            => .error e
  | .ok (handle, after) =>
    match readChars isTagChar after input.size with
    | .error e           => .error e
    | .ok (suffix, rest) =>
      if isClosed handle then
        if suffix.isEmpty then .error .invalidTag
        else .ok (⟨String.ofList handle, String.ofList suffix⟩, rest)
      else
        match handle.drop 1 ++ suffix with
        | []     => .ok (⟨"", "!"⟩, rest)
        | suffix => .ok (⟨"!", String.ofList suffix⟩, rest)

/-- Reads a tag, which has to be followed by the end of a word or by a flow indicator. -/
def read (inFlow : Bool) (input : Input) : Except SyntaxError (Tag × Input) :=
  let tag :=
    if input.peekNth? 1 = some '<' then readVerbatim input else readShorthand input
  match tag with
  | .error e        => .error e
  | .ok (tag, rest) =>
    if endsWord rest.peek? || (inFlow && isFlow rest.peek?) then .ok (tag, rest)
    else .error .invalidTag

end Tag

/-- A directive; those that are reserved for the future have no meaning. -/
inductive Directive where
  | version (major minor : Nat)
  | tag (handle tagPrefix : String)
  | reserved
deriving DecidableEq, Repr

namespace Directive

def readNumber (input : Input) : Except SyntaxError (Nat × Input) :=
  let (digits, rest) := input.takeWhile Char.isDigit
  match Integer.readNat? 10 digits with
  | some n => if digits.length ≤ 9 then .ok (n, rest) else .error .invalidDirective
  | none   => .error .invalidDirective

/-- Reads a version: two numbers around a point. -/
def readVersion (input : Input) : Except SyntaxError (Directive × Input) :=
  match readNumber input.skipWhites with
  | .error e            => .error e
  | .ok (major, after) =>
    if after.peek? ≠ some '.' then
      .error .invalidDirective
    else
      (readNumber (after.skip 1)).map fun (minor, rest) => (version major minor, rest)

/-- Reads the first character of the text that a handle stands for, if that is not missing. -/
def readPrefixStart (input : Input) : Except SyntaxError (List Char × Input) :=
  match input.peek? with
  | some '!' => .ok (['!'], input.skip 1)
  | some c   =>
    if !isTagChar c then
      .error .invalidTag
    else if c = '%' then
      match Tag.unescape? input.rest with
      | some (d, n) => .ok ([d], input.skip n)
      | none        => .error .invalidTag
    else
      .ok ([c], input.skip 1)
  | none     => .error .invalidTag

def readTag (input : Input) : Except SyntaxError (Directive × Input) :=
  match Tag.readHandle input.skipWhites with
  | .error e            => .error e
  | .ok (handle, after) =>
    if handle ≠ ['!'] && !Tag.isClosed handle then
      .error .invalidDirective
    else
      match readPrefixStart after.skipWhites with
      | .error e           => .error e
      | .ok (start, after) =>
        match Tag.readChars isUriChar after input.size with
        | .error e         => .error e
        | .ok (more, rest) =>
          if endsWord rest.peek? then
            .ok (tag (String.ofList handle) (String.ofList (start ++ more)), rest)
          else
            .error .invalidDirective

def readNamed (name : String) (input : Input) : Except SyntaxError (Directive × Input) :=
  if name = "YAML" then readVersion input
  else if name = "TAG" then readTag input
  else .ok (reserved, input.skipLine)

def read (input : Input) : Except SyntaxError (Directive × Input) :=
  let (name, after) := (input.skip 1).takeWhile isNameChar
  if name.isEmpty || !endsWord after.peek? then
    .error .invalidDirective
  else
    match readNamed (String.ofList name) after with
    | .error e               => .error e
    | .ok (directive, after) =>
      match after.skipToToken with
      | .error e => .error e
      | .ok rest =>
        if rest.rest.isEmpty then .ok (directive, rest)
        else if endsLine rest.peek? then .ok (directive, rest.skipBreak)
        else .error .invalidDirective

end Directive
end YamlSieve.Yaml
