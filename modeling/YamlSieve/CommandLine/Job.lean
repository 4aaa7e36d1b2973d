import YamlSieve.CommandLine.Arguments
import YamlSieve.Configuration
import YamlSieve.Output.Results
import YamlSieve.Source

/-!
# Jobs

What a command line comes down to: a filter, the place of its documents, and the way in which
results are written. The expression is read before any document is.
-/

namespace YamlSieve.CommandLine

/-! ### Failures -/

inductive Failure where
  /-- The expression cannot be read. -/
  | expression (cause : FilterError)
  /-- The documents cannot be loaded. -/
  | source (cause : LoadFailure)
  /-- The results cannot be written. -/
  | output (cause : Output.Failure)
deriving DecidableEq, Repr

namespace Failure

/-- The diagnostics of a failure, outermost first. -/
def messages : Failure → List String
  | expression cause => ["Invalid filter expression", cause.display]
  | source cause     => cause.messages
  | output cause     => cause.messages

/-- What is wrong with the text of the documents, if that is the reason of a failure. -/
def detail? : Failure → Option String
  | source cause =>
    match cause.cause? with
    | some (.malformed e) => some e.message
    | _                   => none
  | expression _ | output _ => none

end Failure

/-! ### Runs -/

/-- A filter that is ready to run. -/
structure Job where
  filter  : Filter
  /-- The path of the file that holds the documents; without it, standard input holds them. -/
  file    : Option String
  options : Output.Options

structure Outcome where
  output  : String
  failure : Option Failure

def Outcome.exitCode (outcome : Outcome) : Nat :=
  if outcome.failure.isSome then 1 else 0

namespace Job

/-- The job of a command line. Its options take the place of what the configuration says. -/
def make (arguments : Arguments) (configuration : Configuration) : Except Failure Job :=
  let parsed :=
    if arguments.bare then
      Filter.parseBare arguments.expression
    else
      Filter.parse arguments.expression
  match parsed with
  | .error cause => .error (.expression cause)
  | .ok filter   =>
    let options := configuration.outputOptions
    .ok {
      filter  := { filter with stepLimit := arguments.stepLimit <|> configuration.stepLimit }
      file    := arguments.file
      options :=
        { options with
          format := arguments.format.getD options.format
          raw    := arguments.rawOutput }
    }

/--
Runs a job, given the bytes of its file or of standard input. There are no bytes if the file cannot
be read.
-/
def run (job : Job) (content : Option ByteArray) : Outcome :=
  let documents :=
    match job.file with
    | some path => Source.loadFile path content
    | none      => Source.loadBytes (content.getD .empty)
  match documents with
  | .error cause  => ⟨"", some (.source cause)⟩
  | .ok documents =>
    match Output.write job.options job.filter documents {} with
    | (.ok _, sink)        => ⟨sink.content, none⟩
    | (.error cause, sink) => ⟨sink.content, some (.output cause)⟩

/-- The outcome of a command line. Where it makes no job, no documents are looked at. -/
def outcome (job : Except Failure Job) (content : Option ByteArray) : Outcome :=
  match job with
  | .error failure => ⟨"", some failure⟩
  | .ok job        => job.run content

end Job
end YamlSieve.CommandLine
