import YamlSieve.Yaml.Token

/-!
# Nesting

What has to be known of the text before the current place: the block collections that are open
with their indentation, the flow collections that are open, and the places where a key may have
started whose colon is yet to come.
-/

namespace YamlSieve.Yaml

/-- An indentation level that another one has replaced. -/
structure Level where
  /-- The indentation to go back to. -/
  indent : Int
  /-- Whether the replacing level is that of a block collection, which has an end. -/
  collection : Bool

/-- A place where a key may have started. -/
structure PossibleKey where
  position   : Position
  /-- The number of tokens in front of the key. -/
  tokenCount : Nat
  /-- Whether the place allows nothing but a key. -/
  required   : Bool

/-- The state of a reader between two tokens. -/
structure Nesting where
  input   : Input
  tokens  : Array Token
  /-- Whether a key may start here. -/
  keyAllowed : Bool
  /-- The possible key of each flow level, the innermost first, and at last that outside of all. -/
  keys : List (Option PossibleKey)
  /-- The current indentation, -1 outside of all collections. -/
  indent : Int
  levels : List Level
  /-- The number of open flow collections. -/
  flowLevel : Nat
  /-- The index at which a colon ends a key even without white space after it. -/
  adjacentValueAt : Nat
  /-- Whether a flow mapping was started explicitly since the last implicit one ended. -/
  flowMappingStarted : Bool
  /-- For each open flow sequence, the flow level of the implicit mapping open in it. -/
  implicitMappings : List (Option Nat)

namespace Nesting

/-- The state at the start of a text. -/
def ofText (text : String) : Nesting where
  input              := .ofText text
  tokens             := #[]
  keyAllowed         := true
  keys               := [none]
  indent             := -1
  levels             := []
  flowLevel          := 0
  adjacentValueAt    := 0
  flowMappingStarted := false
  implicitMappings   := []

def inFlow (s : Nesting) : Bool := s.flowLevel ≠ 0

def position (s : Nesting) : Position := s.input.position

def emit (s : Nesting) (kind : TokenKind) (position : Position) : Nesting :=
  { s with tokens := s.tokens.push ⟨kind, position⟩ }

/-- Adds a token in front of the last ones. -/
def insert (s : Nesting) (index : Nat) (kind : TokenKind) (position : Position) : Nesting :=
  { s with tokens := s.tokens.insertIdxIfInBounds index ⟨kind, position⟩ }

/-! ### Indentation -/

def leaveLevel (s : Nesting) : Nesting :=
  match s.levels with
  | []              => s
  | level :: levels => { s with indent := level.indent, levels }

/-- Whether the innermost level belongs to no block collection. -/
def inLooseLevel (s : Nesting) : Bool :=
  match s.levels with
  | []         => false
  | level :: _ => !level.collection

/-- Leaves the levels that belong to no block collection. -/
def leaveLoose (s : Nesting) : Nesting :=
  let loose := (s.levels.takeWhile fun level => !level.collection).getLast?
  { s with
    indent := (loose.map Level.indent).getD s.indent
    levels := s.levels.dropWhile fun level => !level.collection }

/-- Opens a block collection in a column, unless one is open there already. -/
def openBlock (s : Nesting) (column : Nat) (index : Nat) (kind : TokenKind)
    (position : Position) : Nesting :=
  if s.inFlow then
    s
  else
    let s := if s.indent ≤ column && s.inLooseLevel then s.leaveLevel else s
    if s.indent < column then
      { s with indent := column, levels := ⟨s.indent, true⟩ :: s.levels }.insert
        index kind position
    else
      s

/-- Asks the content of an entry for one more column of indentation than the entry has. -/
def openLoose (s : Nesting) : Nesting :=
  if !s.inFlow && !s.levels.isEmpty && !s.inLooseLevel then
    { s with indent := s.indent + 1, levels := ⟨s.indent, false⟩ :: s.levels }
  else
    s

/-- Closes one level after the other down to the given indentation. -/
def closeLevels (indent : Int) (s : Nesting) : Nat → Nesting
  | 0        => s
  | fuel + 1 =>
    if s.indent ≤ indent then
      s
    else
      match s.levels with
      | []         => s
      | level :: _ =>
        let left := s.leaveLevel
        closeLevels indent
          (if level.collection then left.emit .blockEnd s.position else left) fuel

/-- Closes the block collections that are indented more than the given column. -/
def closeBlocks (s : Nesting) (indent : Int) : Nesting :=
  if s.inFlow then s else s.closeLevels indent s.levels.length

/-! ### Possible keys -/

def key? (s : Nesting) : Option PossibleKey := s.keys.head?.join

def withKey (s : Nesting) (key : Option PossibleKey) : Nesting :=
  { s with keys := key :: s.keys.drop 1 }

/-- Gives up the possible key; it must not be a required one. -/
def dropKey (s : Nesting) : Except SyntaxError Nesting :=
  match s.key? with
  | some key => if key.required then .error .missingColon else .ok (s.withKey none)
  | none     => .ok (s.withKey none)

/-- Remembers that a key may start here. -/
def markKey (s : Nesting) : Nesting :=
  if s.keyAllowed then
    let required :=
      !s.inFlow && s.indent = s.input.column && (s.levels.head?.any Level.collection)
    s.withKey (some ⟨s.position, s.tokens.size, required⟩)
  else
    s

/-- Whether a possible key lies too far back: on an earlier line, or more than 1024 characters. -/
def isStale (s : Nesting) (key : PossibleKey) : Bool :=
  key.position.line < s.position.line || key.position.index + 1024 < s.position.index

/-- Gives up the possible keys that lie too far back, outside of flow collections. -/
def dropStaleKeys (s : Nesting) : Except SyntaxError Nesting :=
  let stale (key : Option PossibleKey) : Bool := key.any s.isStale
  if s.inFlow then
    .ok s
  else if s.keys.any fun key => stale key && key.any PossibleKey.required then
    .error .missingColon
  else
    .ok { s with keys := s.keys.map fun key => if stale key then none else key }

/-! ### Flow collections -/

/-- Opens a flow collection, of which at most 255 may be open. -/
def openFlow (s : Nesting) : Except SyntaxError Nesting :=
  if s.flowLevel = 255 then .error .nestedTooDeep
  else .ok { s with flowLevel := s.flowLevel + 1, keys := none :: s.keys }

def closeFlow (s : Nesting) : Nesting :=
  if s.inFlow then { s with flowLevel := s.flowLevel - 1, keys := s.keys.drop 1 } else s

/-- Ends the implicit mapping that is open on this flow level of the innermost flow sequence. -/
def endImplicitMapping (s : Nesting) : Nesting :=
  match s.implicitMappings with
  | some level :: outer =>
    if level = s.flowLevel then
      { s with flowMappingStarted := false, implicitMappings := none :: outer }.emit
        .flowMappingEnd s.position
    else
      s
  | _ => s

end Nesting
end YamlSieve.Yaml
