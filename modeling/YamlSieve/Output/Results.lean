import YamlSieve.Filter.Expression
import YamlSieve.Json.Printer
import YamlSieve.Output.Options
import YamlSieve.Output.Sink
import YamlSieve.Yaml.Printer

/-!
# Results of a stream

Applies a filter to the documents of a stream, one after the other, and writes each result before
the next document is looked at. Rendered YAML results are separated by `---`; plain texts take no
part in that.
-/

namespace YamlSieve.Output

/-! ### Failures -/

inductive Failure where
  /-- The filter failed on the document with this number, counted from one. -/
  | filter (document : Nat) (cause : FilterError)
  /-- A plain text or a separator was refused. -/
  | textRefused
  /-- A rendered result was refused. -/
  | resultRefused
deriving DecidableEq, Repr

def Failure.messages : Failure → List String
  | filter document cause => ["Filter failed on document " ++ toString document, cause.display]
  | textRefused           => []
  | resultRefused         => ["Failed to write result"]

/-! ### Pieces -/

/-- A text that is written in one go, with the failure that arises if it is refused. -/
structure Piece where
  text    : String
  failure : Failure
deriving DecidableEq, Repr

/-- Writes pieces up to the first one that is refused. -/
def Piece.writeAll : List Piece → Sink → Except Failure Unit × Sink
  | [], sink              => (.ok (), sink)
  | piece :: pieces, sink =>
    match sink.write? piece.text with
    | some sink => writeAll pieces sink
    | none      => (.error piece.failure, sink)

/-- Whether a result can be written as plain text: a scalar, or a sequence of nothing else. -/
def isPlainText : Node → Bool
  | .sequence items => items.all Node.isScalar
  | node            => node.isScalar

namespace Options

/-- Whether nothing is written for a result. -/
def skips (options : Options) (result : Node) : Bool :=
  options.skipAbsent && result.isAbsent

def showsText (options : Options) (result : Node) : Bool :=
  options.raw && isPlainText result

def showsYaml (options : Options) (result : Node) : Bool :=
  !options.showsText result && options.format = .yaml

/-- The texts of a rendered result, in the order in which they are written. -/
def rendering (options : Options) (result : Node) : List String :=
  match options.format with
  | .yaml => [Yaml.print result]
  | .json => [Json.print (if options.prettyJson then .indented else .compact) result, "\n"]

/-- The texts that stand in front of a result; `separated` tells of an earlier YAML document. -/
def separator (options : Options) (separated : Bool) (result : Node) : List String :=
  if separated && options.showsYaml result then ["---\n"] else []

/-- The pieces of a result. -/
def pieces (options : Options) (separated : Bool) (result : Node) : List Piece :=
  if options.showsText result then
    result.scalarTexts.flatMap fun text => [⟨text, .textRefused⟩, ⟨"\n", .textRefused⟩]
  else
    (options.separator separated result).map (⟨·, .textRefused⟩) ++
      (options.rendering result).map (⟨·, .resultRefused⟩)

end Options

/-! ### Streams -/

/--
Writes the results of the documents from the one with the given number on, and counts them. A
result of plain text counts, even if it has no line.
-/
def writeFrom (options : Options) (filter : Filter) (number : Nat) (separated : Bool) :
    List Node → Sink → Except Failure Nat × Sink
  | [], sink                    => (.ok 0, sink)
  | document :: documents, sink =>
    match filter.apply document with
    | .error cause => (.error (.filter number cause), sink)
    | .ok result   =>
      if options.skips result then
        writeFrom options filter (number + 1) separated documents sink
      else
        match Piece.writeAll (options.pieces separated result) sink with
        | (.error failure, sink) => (.error failure, sink)
        | (.ok (), sink)         =>
          let separated := separated || options.showsYaml result
          let (count, sink) := writeFrom options filter (number + 1) separated documents sink
          (count.map (· + 1), sink)

/-- Writes the results of the documents of a stream, and counts them. -/
def write (options : Options) (filter : Filter) (documents : List Node) (sink : Sink) :
    Except Failure Nat × Sink :=
  writeFrom options filter 1 false documents sink

end YamlSieve.Output
