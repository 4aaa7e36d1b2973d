import YamlSieve.Yaml.Nesting
import YamlSieve.Yaml.Scalar.Block
import YamlSieve.Yaml.Scalar.Plain
import YamlSieve.Yaml.Scalar.Quoted

/-!
# The tokens of a text

Each step passes what separates tokens, closes the block collections that end there, and reads one
token. A key is only known by its colon, so the tokens that open a mapping and a key are put in
front of what was read since the key started.
-/

namespace YamlSieve.Yaml

namespace Nesting

/-- A step of the reader. -/
abbrev Step := Except SyntaxError Nesting

/-- Passes white space, comments and line breaks up to the next token. -/
def skipToToken (s : Nesting) : Nat → Step
  | 0        => .ok s
  | fuel + 1 =>
    match s.input.peek? with
    | none   => .ok s
    | some c =>
      if c = '\t' && !s.levels.isEmpty && s.input.atMargin && s.input.column < s.indent then
        match s.input.skipToToken with
        | .error e  => .error e
        | .ok input =>
          if endsLine input.peek? then { s with input }.skipToToken fuel
          else .error .tabIndentation
      else if isWhite c then
        { s with input := s.input.skipWhite }.skipToToken fuel
      else if isBreak c then
        { s with input := s.input.skipBreak, keyAllowed := s.keyAllowed || !s.inFlow }.skipToToken
          fuel
      else if c = '#' then
        { s with input := s.input.skipLine }.skipToToken fuel
      else
        .ok s

/-- Passes one indicator and the white space after it. -/
def skipIndicator (s : Nesting) : Step :=
  (s.input.skip 1).skipToToken.map fun input => { s with input }

/-! ### Documents -/

/-- Closes all block collections in front of a directive or a document marker. -/
def leaveDocument (s : Nesting) : Step :=
  (s.closeBlocks (-1)).dropKey.map fun s => { s with keyAllowed := false }

/-- Reads the end of the stream; no required key may be open there. -/
def readStreamEnd (s : Nesting) : Step :=
  if s.keys.any fun key => key.any PossibleKey.required then
    .error .missingColon
  else
    let s := { s with keys := s.keys.map fun _ => none }.closeBlocks (-1)
    .ok (s.emit .streamEnd s.position)

def readDirective (s : Nesting) : Step :=
  match s.leaveDocument with
  | .error e => .error e
  | .ok s    =>
    (Directive.read s.input).map fun (directive, input) =>
      { s.emit (.directive directive) s.position with input }

def readMarker (s : Nesting) (kind : TokenKind) : Step :=
  s.leaveDocument.map fun s =>
    { s.emit kind s.position with input := s.input.skip 3 }

/-- Reads a document end marker, after which its line may not go on. -/
def readDocumentEnd (s : Nesting) : Step :=
  match s.readMarker .documentEnd with
  | .error e => .error e
  | .ok s    =>
    match s.input.skipToToken with
    | .error e  => .error e
    | .ok input =>
      if endsLine input.peek? then .ok { s with input } else .error .contentAfterDocumentEnd

/-! ### Flow collections -/

/-- Reads the start of a flow collection, which may be that of a key. -/
def readFlowStart (s : Nesting) (kind : TokenKind) : Step :=
  let start := s.position
  match s.markKey.openLoose.openFlow with
  | .error e => .error e
  | .ok s    =>
    let s := { s with keyAllowed := true }
    let s :=
      if kind = .flowMappingStart then { s with flowMappingStarted := true }
      else { s with implicitMappings := none :: s.implicitMappings }
    s.skipIndicator.map fun s => s.emit kind start

def readFlowEnd (s : Nesting) (kind : TokenKind) : Step :=
  let start := s.position
  match s.dropKey with
  | .error e => .error e
  | .ok s    =>
    let s :=
      if kind = .flowSequenceEnd then
        let s := s.endImplicitMapping
        { s with implicitMappings := s.implicitMappings.drop 1 }
      else
        s
    let closed : Nesting := { s.closeFlow with keyAllowed := false }
    closed.skipIndicator.map fun s =>
      let adjacent := if s.inFlow then s.position.index else s.adjacentValueAt
      { s with adjacentValueAt := adjacent }.emit kind start

/-- Reads the comma between two entries. -/
def readFlowEntry (s : Nesting) : Step :=
  let start := s.position
  match s.dropKey with
  | .error e => .error e
  | .ok s    =>
    let ended := { s with keyAllowed := true }.endImplicitMapping
    ended.skipIndicator.map fun s => s.emit .flowEntry start

/-! ### Block collections -/

/-- Whether the last token is a property in the first column, like the place that was reached. -/
def followsMarginProperty (s : Nesting) : Bool :=
  match s.tokens.back? with
  | some ⟨.anchor _, position⟩ => s.input.column = 0 && position.column = 0 && -1 < s.indent
  | some ⟨.tag _, position⟩    => s.input.column = 0 && position.column = 0 && -1 < s.indent
  | _                          => false

/-- Reads the indicator of a sequence entry. -/
def readBlockEntry (s : Nesting) : Step :=
  if s.inFlow || !s.keyAllowed then
    .error (.misplacedIndicator '-')
  else if s.followsMarginProperty then
    .error .invalidIndentation
  else
    let start := s.position
    let s := { s with input := s.input.skip 1 }.openBlock start.column s.tokens.size
      .blockSequenceStart start
    match s.input.skipGap true with
    | .error e         => .error e
    | .ok (gap, input) =>
      if gap.tabs && input.peek? = some '-' && endsWord (input.peekNth? 1) then
        .error .missingSpace
      else
        let s := { s with input }
        let s :=
          if input.peek?.any fun c => isBreak c || isFlowIndicator c then s.openLoose else s
        s.dropKey.map fun s => { s with keyAllowed := true }.emit .blockEntry start

/-- Passes spaces, comments and line breaks, of which there has to be one, but no tabs. -/
def skipSpaces (s : Nesting) (found : Bool) : Nat → Step
  | 0        => .ok s
  | fuel + 1 =>
    match s.input.peek? with
    | some c =>
      if c = ' ' then
        { s with input := s.input.skipWhite }.skipSpaces true fuel
      else if isBreak c then
        { s with input := s.input.skipBreak, keyAllowed := s.keyAllowed || !s.inFlow }.skipSpaces
          true fuel
      else if c = '#' then
        { s with input := s.input.skipLine }.skipSpaces found fuel
      else if !found then
        .error .missingSpace
      else if c = '\t' then
        .error .tabIndentation
      else
        .ok s
    | none   => if found then .ok s else .error .missingSpace

/-- Reads the indicator of an explicit key. -/
def readKey (s : Nesting) : Step :=
  let start := s.position
  if !s.inFlow && !s.keyAllowed then
    .error (.misplacedIndicator '?')
  else
    let s :=
      if s.inFlow then { s with flowMappingStarted := true }
      else s.openBlock start.column s.tokens.size .blockMappingStart start
    match s.dropKey with
    | .error e => .error e
    | .ok s    =>
      let s := { s with keyAllowed := !s.inFlow, input := s.input.skip 1 }
      (s.skipSpaces false (s.input.size + 1)).map fun s => s.emit .key start

/-- Puts the tokens of a mapping and a key in front of a key whose colon was found. -/
def insertKey (s : Nesting) (key : PossibleKey) (isImplicit : Bool) : Nesting :=
  let s := s.insert key.tokenCount .key key.position
  let s := if isImplicit then s.insert key.tokenCount .flowMappingStart s.position else s
  let s := (s.openBlock key.position.column key.tokenCount .blockMappingStart key.position)
  { s.openLoose.withKey none with keyAllowed := false }

/-- Opens the value of an explicit or an empty key. -/
def openValue (s : Nesting) (isImplicit : Bool) (start : Position) : Step :=
  let s := if isImplicit then s.emit .flowMappingStart s.position else s
  if s.inFlow then
    .ok { s.openLoose with keyAllowed := false }
  else if !s.keyAllowed then
    .error (.misplacedIndicator ':')
  else
    let s := s.openBlock start.column s.tokens.size .blockMappingStart start
    .ok { s.openLoose with keyAllowed := true }

/-- Whether tabs without a space follow, and then something that looks like a key or an entry. -/
def hasTabbedValue (gap : Input.Gap) (input : Input) : Bool :=
  !gap.spaces && input.peek?.any isNameChar

/-- Passes the colon of a value, and tabs after it. -/
def skipColon (s : Nesting) : Step :=
  let input := s.input.skip 1
  if input.peek? = some '\t' then
    match input.skipGap true with
    | .error e         => .error e
    | .ok (gap, input) =>
      if hasTabbedValue gap input then .error .missingSpace else .ok { s with input }
  else
    .ok { s with input }

def readValue (s : Nesting) : Step :=
  let start := s.position
  let isImplicit := !s.implicitMappings.isEmpty && !s.flowMappingStarted
  let s :=
    if isImplicit then
      { s with implicitMappings := some s.flowLevel :: s.implicitMappings.drop 1 }
    else
      s
  match s.skipColon with
  | .error e => .error e
  | .ok s    =>
    let opened : Step :=
      match s.key? with
      | some key =>
        if isImplicit && key.position.line < start.line then .error (.misplacedIndicator ':')
        else .ok (s.insertKey key isImplicit)
      | none     => s.openValue isImplicit start
    opened.map fun s => s.emit .value start

/-- Reads a colon in a flow collection that no white space follows. -/
def readFlowValue (s : Nesting) : Step :=
  let next := s.input.peekNth? 1
  if s.position.index ≠ s.adjacentValueAt && (next = some '[' || next = some '\x7b') then
    .error (.misplacedIndicator ':')
  else
    s.readValue

/-! ### Scalars and properties -/

/-- Reads a token that may be a key, and after which none may start. -/
def readContent (s : Nesting) (read : Nesting → Except SyntaxError (TokenKind × Input)) : Step :=
  let start := s.position
  let s := { s.markKey with keyAllowed := false }
  (read s).map fun (kind, input) => { s.emit kind start with input }

def readName (s : Nesting) : Except SyntaxError (String × Input) :=
  let (name, input) := (s.input.skip 1).takeWhile isAnchorChar
  if name.isEmpty then .error .emptyAnchor else .ok (String.ofList name, input)

def readAnchor (s : Nesting) : Step :=
  s.readContent fun s => s.readName.map fun (name, input) => (.anchor name, input)

def readAlias (s : Nesting) : Step :=
  s.readContent fun s => s.readName.map fun (name, input) => (.aliasOf name, input)

def readTag (s : Nesting) : Step :=
  s.readContent fun s => (Tag.read s.inFlow s.input).map fun (tag, input) => (.tag tag, input)

/-- Reads a quoted scalar. A colon right after it ends a key. -/
def readQuoted (s : Nesting) (quote : Quoted.Quote) : Step :=
  let scalar := s.readContent fun s =>
    (Quoted.read quote s.inFlow s.indent s.input).map fun (text, input) =>
      (.scalar false text, input)
  match scalar with
  | .error e => .error e
  | .ok s    =>
    (s.skipToToken (s.input.size + 1)).map fun s => { s with adjacentValueAt := s.position.index }

def readBlock (s : Nesting) (literal : Bool) : Step :=
  let start := s.position
  let s := { s.markKey with keyAllowed := true }.leaveLoose
  (Block.read literal s.indent s.input).map fun (text, input) =>
    { s.emit (.scalar false text) start with input }

/-- Reads a plain scalar. When it ends in front of a new line, a key may start there. -/
def readPlain (s : Nesting) : Step :=
  let start := s.position
  let s := { s.markKey with keyAllowed := false }.leaveLoose
  (Plain.read s.inFlow (s.indent + 1) s.input).map fun (text, input) =>
    { s.emit (.scalar true text) start with input, keyAllowed := input.atMargin }

/-! ### All tokens -/

/-- Whether the colon in front of the given character is that of a value in a flow collection. -/
def isFlowColon (s : Nesting) (next : Option Char) : Bool :=
  s.inFlow && (isFlow next || s.position.index = s.adjacentValueAt)

def readAt (s : Nesting) (c : Char) : Step :=
  let next := s.input.peekNth? 1
  if c = '[' then s.readFlowStart .flowSequenceStart
  else if c = '\x7b' then s.readFlowStart .flowMappingStart
  else if c = ']' then s.readFlowEnd .flowSequenceEnd
  else if c = '\x7d' then s.readFlowEnd .flowMappingEnd
  else if c = ',' then s.readFlowEntry
  else if c = '-' && endsWord next then s.readBlockEntry
  else if c = '?' && endsWord next then s.readKey
  else if c = ':' && endsWord next then s.readValue
  else if c = ':' && s.isFlowColon next then s.readFlowValue
  else if c = '*' then s.readAlias
  else if c = '&' then s.readAnchor
  else if c = '!' then s.readTag
  else if c = '|' && !s.inFlow then s.readBlock true
  else if c = '>' && !s.inFlow then s.readBlock false
  else if c = '\'' then s.readQuoted .single
  else if c = '"' then s.readQuoted .double
  else if c = '%' || c = '@' || c = '\x60' then .error (.unexpectedCharacter c)
  else s.readPlain

/-- Whether the next character is indented too little; a flow collection may be closed there. -/
def isUnderIndented (s : Nesting) (c : Char) : Bool :=
  s.input.column < s.indent && !(s.inFlow && (c = ']' || c = '\x7d' || c = ','))

/-- Reads the next token, and tells whether the stream goes on. -/
def readToken (s : Nesting) : Except SyntaxError (Nesting × Bool) :=
  match s.skipToToken (s.input.size + 1) with
  | .error e => .error e
  | .ok s    =>
    match s.dropStaleKeys with
    | .error e => .error e
    | .ok s    =>
      let s := s.closeBlocks s.input.column
      match s.input.peek? with
      | none   => s.readStreamEnd.map (·, false)
      | some c =>
        let step : Step :=
          if s.input.column = 0 && c = '%' then s.readDirective
          else if s.input.column = 0 && s.input.isMarker '-' then s.readMarker .documentStart
          else if s.input.column = 0 && s.input.isMarker '.' then s.readDocumentEnd
          else if s.isUnderIndented c then .error .invalidIndentation
          else s.readAt c
        step.map (·, true)

/-- Reads all tokens that follow. -/
def readTokens (s : Nesting) : Nat → Except SyntaxError (Array Token)
  | 0        => .ok s.tokens
  | fuel + 1 =>
    match s.readToken with
    | .error e       => .error e
    | .ok (s, true)  => s.readTokens fuel
    | .ok (s, false) => .ok s.tokens

end Nesting

/-- The tokens of a text. -/
def Token.ofText (text : String) : Except SyntaxError (List Token) :=
  let start := Nesting.ofText text
  (start.readTokens (start.input.size + 2)).map Array.toList

end YamlSieve.Yaml
