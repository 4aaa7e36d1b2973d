import YamlSieve.Yaml.TokenStream
import YamlSieve.Yaml.Value

/-!
# The documents of a text

Reads the values of a stream from its tokens. An alias stands for a copy of what its anchor marks;
inside of that it stands for an invalid value.
-/

namespace YamlSieve.Yaml

/-- What is known while the tokens of a stream are read. -/
structure Composer where
  /-- The tokens that are left. -/
  tokens  : List TokenKind
  /-- The handles that the directives of the document declare. -/
  handles : List (String × String)
  /-- The number of the latest anchor of each name, the latest first. -/
  names   : List (String × Nat)
  /-- The values of the anchors whose nodes are complete. -/
  values  : List (Nat × Value)
  /-- The number of anchors so far. -/
  anchors : Nat

namespace Composer

/-- A reader of values. -/
abbrev Reader := StateT Composer (Except SyntaxError)

def peek : Reader TokenKind := do
  return (← get).tokens.head?.getD .streamEnd

def skip : Reader Unit :=
  modify fun c => { c with tokens := c.tokens.drop 1 }

def expect (kind : TokenKind) : Reader Unit := do
  if (← peek) = kind then skip else throw .unexpectedToken

def accept (kind : TokenKind) : Reader Bool := do
  if (← peek) = kind then
    skip
    return true
  else
    return false

/-! ### Properties -/

def addAnchor (name : String) : Reader Nat := do
  let c ← get
  set { c with names := (name, c.anchors) :: c.names, anchors := c.anchors + 1 }
  return c.anchors

/-- Remembers the value of an anchor. -/
def setAnchor (anchor : Option Nat) (value : Value) : Reader Value := do
  match anchor with
  | some n => modify fun c => { c with values := (n, value) :: c.values }
  | none   => pure ()
  return value

/-- The value that an alias stands for. -/
def resolveAlias (name : String) : Reader Value := do
  let c ← get
  match c.names.lookup name with
  | some n => return (c.values.lookup n).getD .invalid
  | none   => throw (.unknownAnchor name)

/-- The tag with what its handle stands for in the place of the handle. -/
def resolveTag (tag : Tag) : Reader Tag := do
  match (← get).handles.lookup tag.handle with
  | some handle => return { tag with handle }
  | none        =>
    if tag.handle = "!!" then
      return { tag with handle := Value.coreHandle }
    else if Tag.isClosed tag.handle.toList then
      throw (.undeclaredHandle tag.handle)
    else
      return tag

/-- Reads the anchor and the tag of a node, in either order. -/
def properties : Reader (Option Nat × Option Tag) := do
  match ← peek with
  | .anchor name => do
    skip
    let anchor ← addAnchor name
    match ← peek with
    | .tag tag => do
      skip
      return (some anchor, some (← resolveTag tag))
    | _        => return (some anchor, none)
  | .tag tag     => do
    skip
    let tag ← resolveTag tag
    match ← peek with
    | .anchor name => do
      skip
      return (some (← addAnchor name), some tag)
    | _            => return (none, some tag)
  | _            => return (none, none)

/-! ### Nodes

The readers of nodes and of the entries of a collection take the number of tokens that are left as
a bound on their depth. -/

def mappingOf (row : List Value) : Reader Value :=
  match Value.mapping? row with
  | some value => return value
  | none       => throw .duplicateKey

mutual

/-- Reads a node. Block collections are only allowed outside of flow collections. -/
def node (block indentless : Bool) : Nat → Reader Value
  | 0        => throw .unexpectedToken
  | fuel + 1 => do
    match ← peek with
    | .aliasOf name => do
      skip
      resolveAlias name
    | _           => do
      let (anchor, tag) ← properties
      let value ← content block indentless (anchor.isSome || tag.isSome) tag fuel
      setAnchor anchor value

/-- Reads a node after its properties; with properties, it may be empty. -/
def content (block indentless hasProperties : Bool) (tag : Option Tag) : Nat → Reader Value
  | 0        => throw .unexpectedToken
  | fuel + 1 => do
    match ← peek with
    | .scalar plain text  => do
      skip
      return .ofScalar tag plain text
    | .blockEntry         =>
      if indentless then
        return .sequence (← indentlessEntries fuel)
      else
        emptyNode hasProperties tag
    | .flowSequenceStart  => do
      skip
      return .sequence (← flowItems true fuel)
    | .flowMappingStart   => do
      skip
      mappingOf (← flowEntries true fuel)
    | .blockSequenceStart =>
      if block then do
        skip
        return .sequence (← blockItems fuel)
      else
        emptyNode hasProperties tag
    | .blockMappingStart  =>
      if block then do
        skip
        mappingOf (← blockEntries fuel)
      else
        emptyNode hasProperties tag
    | _                   => emptyNode hasProperties tag

/-- The node of which there are only properties. -/
def emptyNode (hasProperties : Bool) (tag : Option Tag) : Reader Value :=
  if hasProperties then return .ofScalar tag true "" else throw .unexpectedToken

def blockItems : Nat → Reader (List Value)
  | 0        => throw .unexpectedToken
  | fuel + 1 => do
    if ← accept .blockEnd then
      return []
    expect .blockEntry
    let item ←
      match ← peek with
      | .blockEntry | .blockEnd => pure Value.null
      | _                       => node true false fuel
    return item :: (← blockItems fuel)

/-- Reads the items of a block sequence that is not indented more than its key. -/
def indentlessEntries : Nat → Reader (List Value)
  | 0        => throw .unexpectedToken
  | fuel + 1 => do
    if ← accept .blockEntry then
      let item ←
        match ← peek with
        | .blockEntry | .key | .value | .blockEnd => pure Value.null
        | _                                       => node true false fuel
      return item :: (← indentlessEntries fuel)
    else
      return []

/-- Reads a key or a value of a block mapping, which may be missing. -/
def blockField : Nat → Reader Value
  | 0        => throw .unexpectedToken
  | fuel + 1 => do
    match ← peek with
    | .key | .value | .blockEnd => return .null
    | _                         => node true true fuel

def blockEntries : Nat → Reader (List Value)
  | 0        => throw .unexpectedToken
  | fuel + 1 => do
    if ← accept .blockEnd then
      return []
    let key ←
      if ← accept .key then
        blockField fuel
      else if (← peek) = .value then
        pure Value.null
      else
        throw .unexpectedToken
    let value ← if ← accept .value then blockField fuel else pure .null
    return key :: value :: (← blockEntries fuel)

/-- Reads a field of a flow mapping, which may be missing in front of the given kind of token. -/
def flowField (close : TokenKind) : Nat → Reader Value
  | 0        => throw .unexpectedToken
  | fuel + 1 => do
    let next ← peek
    if next = .flowEntry || next = close then return .null else node false false fuel

def flowEntries (first : Bool) : Nat → Reader (List Value)
  | 0        => throw .unexpectedToken
  | fuel + 1 => do
    if ← accept .flowMappingEnd then
      return []
    if !first then
      expect .flowEntry
    if ← accept .flowMappingEnd then
      return []
    let (key, hasValue) ←
      if ← accept .key then
        if (← peek) = .value then pure (Value.null, true)
        else pure (← flowField .flowMappingEnd fuel, true)
      else if (← peek) = .value then
        pure (.null, true)
      else
        pure (← node false false fuel, false)
    let value ←
      if hasValue then
        if ← accept .value then flowField .flowMappingEnd fuel else pure .null
      else
        pure .null
    return key :: value :: (← flowEntries false fuel)

def flowItems (first : Bool) : Nat → Reader (List Value)
  | 0        => throw .unexpectedToken
  | fuel + 1 => do
    if ← accept .flowSequenceEnd then
      return []
    if !first then
      expect .flowEntry
    if ← accept .flowSequenceEnd then
      return []
    let item ← if ← accept .key then flowPair fuel else node false false fuel
    return item :: (← flowItems false fuel)

/--
Reads the key and the value of a single pair in a flow sequence. A token that takes the place of
the key is passed.
-/
def flowPair : Nat → Reader Value
  | 0        => throw .unexpectedToken
  | fuel + 1 => do
    let key ←
      match ← peek with
      | .value | .flowEntry | .flowSequenceEnd => do
        skip
        pure Value.null
      | _                                      => node false false fuel
    let value ← if ← accept .value then flowField .flowSequenceEnd fuel else pure .null
    mappingOf [key, value]

end

/-! ### Documents -/

/-- Reads the directives in front of a document. Only the last of them is in force. -/
def directives (versioned : Bool) : Nat → Reader Unit
  | 0        => return
  | fuel + 1 => do
    match ← peek with
    | .directive (.version _ _)     => do
      if versioned then
        throw .repeatedVersion
      modify fun c => { c with handles := [] }
      skip
      directives true fuel
    | .directive (.tag handle text) => do
      modify fun c => { c with handles := [(handle, text)] }
      skip
      directives versioned fuel
    | .directive .reserved          => do
      modify fun c => { c with handles := [] }
      skip
      directives versioned fuel
    | _                             => return

/-- Reads a document with a start marker, which may be empty. -/
def explicitDocument (bound : Nat) : Reader Value := do
  directives false bound
  expect .documentStart
  match ← peek with
  | .directive _ | .documentStart | .documentEnd | .streamEnd => return .null
  | _                                                         => node true false bound

def skipDocumentEnds : Nat → Reader Unit
  | 0        => return
  | fuel + 1 => do
    if ← accept .documentEnd then
      skipDocumentEnds fuel

/-- Reads the end of a document, and tells whether an end marker stands there. -/
def documentEnd : Reader Bool := do
  let marked ← accept .documentEnd
  modify fun c => { c with handles := [], names := [] }
  match ← peek with
  | .directive _ => if marked then return true else throw .unexpectedToken
  | _            => return marked

/-- Reads the documents of a stream; the next one may lack a start marker if `bare` says so. -/
def documents (bound : Nat) (bare : Bool) : Nat → Reader (List Value)
  | 0        => throw .unexpectedToken
  | fuel + 1 => do
    skipDocumentEnds bound
    match ← peek with
    | .streamEnd => return []
    | next       => do
      let explicit :=
        match next with
        | .directive _ | .documentStart => true
        | _                             => !bare
      let value ← if explicit then explicitDocument bound else node true false bound
      let marked ← documentEnd
      return value :: (← documents bound marked fuel)

end Composer

/-- The documents of a text. -/
def Value.ofText (text : String) : Except SyntaxError (List Value) :=
  match Token.ofText text with
  | .error e   => .error e
  | .ok tokens =>
    let kinds := tokens.map Token.kind
    let bound := 4 * kinds.length + 4
    (Composer.documents bound true bound).run' ⟨kinds, [], [], [], 0⟩

end YamlSieve.Yaml
