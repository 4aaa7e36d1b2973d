import YamlSieve.CommandLine.Arguments
import YamlSieve.CommandLine.Job
import YamlSieve.Configuration
import YamlSieve.Filter.Call
import YamlSieve.Filter.Comparison
import YamlSieve.Filter.Cursor
import YamlSieve.Filter.Error
import YamlSieve.Filter.Event
import YamlSieve.Filter.Expression
import YamlSieve.Filter.Path
import YamlSieve.Filter.Predicate
import YamlSieve.Filter.Session
import YamlSieve.Filter.State
import YamlSieve.Filter.Token
import YamlSieve.Gzip.Bits
import YamlSieve.Gzip.CanonicalCode
import YamlSieve.Gzip.Checksum
import YamlSieve.Gzip.Inflate
import YamlSieve.Gzip.Member
import YamlSieve.Json.Printer
import YamlSieve.Main
import YamlSieve.Node
import YamlSieve.Number.Binary64
import YamlSieve.Number.Decimal
import YamlSieve.Number.Integer
import YamlSieve.Number.Layout
import YamlSieve.Output.Options
import YamlSieve.Output.Results
import YamlSieve.Output.Sink
import YamlSieve.Proofs.Acceptance
import YamlSieve.Proofs.Composition
import YamlSieve.Proofs.Concatenation
import YamlSieve.Proofs.CopyOnWrite
import YamlSieve.Proofs.Grammar
import YamlSieve.Proofs.Independence
import YamlSieve.Proofs.Juxtaposition
import YamlSieve.Proofs.Lockstep
import YamlSieve.Proofs.Meaning
import YamlSieve.Proofs.Move
import YamlSieve.Proofs.Number.Numeral
import YamlSieve.Proofs.Number.Rounding
import YamlSieve.Proofs.PathRun
import YamlSieve.Proofs.Position
import YamlSieve.Proofs.Progress
import YamlSieve.Proofs.Provenance
import YamlSieve.Proofs.Refusal
import YamlSieve.Proofs.Result
import YamlSieve.Proofs.Rewording
import YamlSieve.Proofs.Run
import YamlSieve.Proofs.Sequence
import YamlSieve.Proofs.Spelling
import YamlSieve.Proofs.StepLimit
import YamlSieve.Proofs.Stream
import YamlSieve.Proofs.TokenText
import YamlSieve.Proofs.Tokenization
import YamlSieve.Proofs.Yaml.Ambiguity
import YamlSieve.Proofs.Yaml.EmptySteps
import YamlSieve.Proofs.Yaml.EntrySteps
import YamlSieve.Proofs.Yaml.Levels
import YamlSieve.Proofs.Yaml.LiteralScalar
import YamlSieve.Proofs.Yaml.NodeSteps
import YamlSieve.Proofs.Yaml.Passing
import YamlSieve.Proofs.Yaml.PlainScalar
import YamlSieve.Proofs.Yaml.QuotedScalar
import YamlSieve.Proofs.Yaml.Roundtrip
import YamlSieve.Proofs.Yaml.ScalarSteps
import YamlSieve.Proofs.Yaml.TokenSteps
import YamlSieve.Proofs.Yaml.WrittenScalar
import YamlSieve.Proofs.Yaml.WrittenTokens
import YamlSieve.Source
import YamlSieve.Text.Blank
import YamlSieve.Toml.Date
import YamlSieve.Toml.Document
import YamlSieve.Toml.Number
import YamlSieve.Toml.Quoted
import YamlSieve.Toml.Reader
import YamlSieve.Toml.Value
import YamlSieve.Yaml.Character
import YamlSieve.Yaml.Document
import YamlSieve.Yaml.Error
import YamlSieve.Yaml.Input
import YamlSieve.Yaml.Nesting
import YamlSieve.Yaml.Printer
import YamlSieve.Yaml.Scalar.Block
import YamlSieve.Yaml.Scalar.Plain
import YamlSieve.Yaml.Scalar.Quoted
import YamlSieve.Yaml.Style
import YamlSieve.Yaml.Tag
import YamlSieve.Yaml.Token
import YamlSieve.Yaml.TokenStream
import YamlSieve.Yaml.Value
import YamlSieve.Yaml.ValueStream
import YamlSieve.Proofs.PathSpelling
import YamlSieve.Proofs.Argument
import YamlSieve.Proofs.Window
import YamlSieve.Proofs.Matching
import YamlSieve.Proofs.Transparency
import YamlSieve.Proofs.Operand
import YamlSieve.Proofs.Respelling
import YamlSieve.Proofs.IntegerComparison
import YamlSieve.Proofs.Quoting
import YamlSieve.Proofs.Selection
import YamlSieve.Proofs.EqualDocuments
import YamlSieve.Proofs.Equality
import YamlSieve.Proofs.KeyPath
import YamlSieve.Proofs.Uniformity
import YamlSieve.Proofs.Yaml.DistinctKeys
import YamlSieve.Proofs.Equivalence
import YamlSieve.Proofs.Loading
import YamlSieve.Proofs.Yaml.Conversion
import YamlSieve.Proofs.JsonText
