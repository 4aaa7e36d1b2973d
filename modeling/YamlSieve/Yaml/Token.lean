import YamlSieve.Yaml.Tag

/-!
# Tokens of a stream

The tokens say where documents, collections and their entries start and end, and hold the scalars
and the properties of nodes.
-/

namespace YamlSieve.Yaml

inductive TokenKind where
  | streamEnd
  | directive (directive : Directive)
  | documentStart
  | documentEnd
  | blockSequenceStart
  | blockMappingStart
  /-- The end of a block sequence or a block mapping. -/
  | blockEnd
  | flowSequenceStart
  | flowSequenceEnd
  | flowMappingStart
  | flowMappingEnd
  /-- An entry of a block sequence. -/
  | blockEntry
  /-- The comma between two entries of a flow collection. -/
  | flowEntry
  | key
  | value
  | aliasOf (name : String)
  | anchor (name : String)
  | tag (tag : Tag)
  /-- A scalar; only a plain one can be anything else than a string. -/
  | scalar (plain : Bool) (text : String)
deriving DecidableEq, Repr

structure Token where
  kind     : TokenKind
  position : Position

end YamlSieve.Yaml
