/-!
# Malformed streams

The causes for which a text is no YAML stream.
-/

namespace YamlSieve.Yaml

inductive SyntaxError where
  /-- A tab stands where indentation is counted. -/
  | tabIndentation
  /-- A line is indented less, or otherwise, than its context asks for. -/
  | invalidIndentation
  /-- A line goes on after a document end marker. -/
  | contentAfterDocumentEnd
  /-- A character that starts no token. -/
  | unexpectedCharacter (c : Char)
  /-- A comment that is not separated from what stands before it. -/
  | unseparatedComment
  /-- An indicator that is not followed by white space. -/
  | missingSpace
  /-- A key is not followed by a colon on its line. -/
  | missingColon
  /-- A sequence entry, key or value stands where none is allowed. -/
  | misplacedIndicator (c : Char)
  /-- A directive is not well formed. -/
  | invalidDirective
  /-- Two version directives in front of one document. -/
  | repeatedVersion
  /-- A tag is not well formed. -/
  | invalidTag
  /-- A tag has a handle that no directive declares. -/
  | undeclaredHandle (handle : String)
  /-- An anchor or alias without a name. -/
  | emptyAnchor
  /-- An alias whose name no anchor before it has. -/
  | unknownAnchor (name : String)
  /-- A quoted scalar without an end. -/
  | unterminatedQuote
  /-- An escape sequence that stands for no character. -/
  | invalidEscape
  /-- A line goes on after a quoted scalar. -/
  | contentAfterQuote
  /-- The first line of a block scalar is not well formed. -/
  | invalidBlockHeader
  /-- A plain scalar without a character. -/
  | emptyPlainScalar
  /-- More than 255 flow collections in one another. -/
  | nestedTooDeep
  /-- A token stands where the structure of the stream does not allow it. -/
  | unexpectedToken
  /-- A key occurs twice in one mapping. -/
  | duplicateKey
deriving DecidableEq, Repr

def SyntaxError.message : SyntaxError → String
  | tabIndentation          => "tabs cannot be used as indentation"
  | invalidIndentation      => "invalid indentation"
  | contentAfterDocumentEnd => "invalid content after document end marker"
  | unexpectedCharacter c   => "unexpected character: '" ++ String.singleton c ++ "'"
  | unseparatedComment      => "comments must be separated from other tokens by whitespace"
  | missingSpace            => "expected whitespace"
  | missingColon            => "simple key expected ':'"
  | misplacedIndicator c    => "'" ++ String.singleton c ++ "' is not allowed in this context"
  | invalidDirective        => "invalid directive"
  | repeatedVersion         => "duplicate version directive"
  | invalidTag              => "invalid tag"
  | undeclaredHandle handle => "the tag handle '" ++ handle ++ "' was not declared"
  | emptyAnchor             => "expected the name of an anchor or alias"
  | unknownAnchor name      => "unknown anchor '" ++ name ++ "'"
  | unterminatedQuote       => "unexpected end of a quoted scalar"
  | invalidEscape           => "invalid escape sequence in a quoted scalar"
  | contentAfterQuote       => "invalid trailing content after quoted scalar"
  | invalidBlockHeader      => "invalid header of a block scalar"
  | emptyPlainScalar        => "unexpected end of plain scalar"
  | nestedTooDeep           => "recursion limit exceeded"
  | unexpectedToken         => "unexpected token in the structure of the document"
  | duplicateKey            => "duplicated key in mapping"

end YamlSieve.Yaml
